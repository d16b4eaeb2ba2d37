import Xv6Audit.Fs.Blocks

/-! A file is an array of bytes: a write for which the disk has room replaces the bytes it
was given, and a read returns the bytes that are there. -/
namespace Xv6Audit.FileSys

open Prog Disk

/-! Room on the disk. -/

def Fs.freeCount (fs : Fs) : Nat :=
  ((Finset.range fs.sb.size).filter fun b => fs.bitmap b = false).card

def Fs.fileBlock (fs : Fs) (s : Fin NINODE) (bn : Nat) : Nat :=
  match posOf bn with
  | some p => blockAt fs.data (fs.itable s).d p
  | none => 0

def Fs.needs (fs : Fs) (s : Fin NINODE) (bns : List Nat) : Nat :=
  bns.countP (fun bn => fs.fileBlock s bn == 0) +
    if (fs.itable s).d.addrs INDIRECT = 0 ∧ ∃ bn ∈ bns, NDIRECT ≤ bn then 1 else 0

def touched (off n : Nat) : List Nat :=
  if n = 0 then [] else List.range' (off / BSIZE) ((off + n - 1) / BSIZE + 1 - off / BSIZE)

variable {n off : Nat}

theorem touched_cons {m : Nat} (h : m ≤ n) (hm : m = BSIZE - off % BSIZE ∨ m = n) (h0 : 0 < m)
    (hle : m ≤ BSIZE - off % BSIZE) :
    touched off n = off / BSIZE :: touched (off + m) (n - m) := by
  unfold touched
  rw [if_neg (by omega)]
  by_cases hmn : n - m = 0
  · have hdiv : (off + n - 1) / BSIZE = off / BSIZE := by
      unfold BSIZE at *
      omega
    rw [if_pos hmn, hdiv, Nat.add_sub_cancel_left]
    rfl
  · have hoff : (off + m) / BSIZE = off / BSIZE + 1 := by
      unfold BSIZE at *
      omega
    have hend : off + m + (n - m) - 1 = off + n - 1 := by omega
    have hcount : (off + n - 1) / BSIZE + 1 - off / BSIZE =
        ((off + n - 1) / BSIZE + 1 - (off / BSIZE + 1)) + 1 := by
      unfold BSIZE at *
      omega
    rw [if_neg hmn, hoff, hend, hcount, List.range'_succ]

section Room
variable {s : Fin NINODE} {fs gs : Fs} {E : String → Fs → Prop}

theorem freeBlock_isSome (h : 0 < fs.freeCount) : ∃ b, fs.freeBlock = some b := by
  obtain ⟨b, hb⟩ := Finset.card_pos.mp h
  obtain ⟨hlt, hbit⟩ := Finset.mem_filter.mp hb
  have hsome : (fs.freeBlock).isSome := by
    refine List.find?_isSome.mpr ⟨b, List.mem_range.mpr (Finset.mem_range.mp hlt), ?_⟩
    simpa using hbit
  exact Option.isSome_iff_exists.mp hsome

theorem freeCount_take {b : Nat} (hlt : b < fs.sb.size) (hb : fs.bitmap b = false) :
    (fs.take b).freeCount + 1 = fs.freeCount := by
  have hmem : b ∈ (Finset.range fs.sb.size).filter fun b => fs.bitmap b = false :=
    Finset.mem_filter.mpr ⟨Finset.mem_range.mpr hlt, hb⟩
  have herase : (Finset.range fs.sb.size).filter (fun c => (fs.take b).bitmap c = false) =
      ((Finset.range fs.sb.size).filter fun c => fs.bitmap c = false).erase b := by
    ext c
    have hbit : (fs.take b).bitmap c = if c = b then true else fs.bitmap c :=
      Function.update_apply fs.bitmap b true c
    simp only [Finset.mem_filter, Finset.mem_erase, hbit]
    by_cases hc : c = b
    · simp [hc]
    · simp [hc]
  have hpos : 0 < fs.freeCount := Finset.card_pos.mpr ⟨b, hmem⟩
  change ((Finset.range fs.sb.size).filter fun c => (fs.take b).bitmap c = false).card + 1 = _
  rw [herase, Finset.card_erase_of_mem hmem]
  unfold Fs.freeCount at *
  omega

theorem countP_grows (h : Work fs s) (hgrow : Grows s fs gs) (bns : List Nat) :
    bns.countP (fun bn => gs.fileBlock s bn == 0) ≤ bns.countP (fun bn => fs.fileBlock s bn == 0) := by
  refine List.countP_mono_left fun bn _ hbn => ?_
  simp only [beq_iff_eq, Fs.fileBlock] at hbn ⊢
  cases hp : posOf bn with
  | none => rfl
  | some p =>
    simp only [hp] at hbn ⊢
    by_contra hne
    have hrefs := hgrow.refs ((fs.itable s).inum, p) (by rwa [refs_self h.typed])
    rw [refs_self h.typed, ← hgrow.inum, refs_self (by rw [hgrow.type]; exact h.typed), hbn] at hrefs
    exact hne hrefs.symm

theorem needs_grows (h : Work fs s) (hgrow : Grows s fs gs) (bns : List Nat) :
    gs.needs s bns ≤ fs.needs s bns := by
  refine Nat.add_le_add (countP_grows h hgrow bns) ?_
  by_cases hc : (gs.itable s).d.addrs INDIRECT = 0 ∧ ∃ bn ∈ bns, NDIRECT ≤ bn
  · have h0 : (fs.itable s).d.addrs INDIRECT = 0 := by
      by_contra hne
      exact hne (hgrow.indirect h.typed hne ▸ hc.1)
    rw [if_pos hc, if_pos ⟨h0, hc.2⟩]
  · rw [if_neg hc]
    exact Nat.zero_le _

theorem needs_singleton (fs : Fs) (s : Fin NINODE) (bn : Nat) : fs.needs s [bn] =
    (if fs.fileBlock s bn = 0 then 1 else 0) +
      if (fs.itable s).d.addrs INDIRECT = 0 ∧ NDIRECT ≤ bn then 1 else 0 := by
  simp [Fs.needs, List.countP_cons]

variable {bn : Nat} {p : Pos}

theorem indirect_of_present (hp : posOf bn = some p) (hbn : NDIRECT ≤ bn) {data : Nat → Block}
    {d : Dinode} (hne : blockAt data d p ≠ 0) : d.addrs INDIRECT ≠ 0 := by
  unfold posOf at hp
  rw [dif_neg (by omega)] at hp
  split at hp
  · obtain rfl := Option.some.inj hp
    exact fun h0 => hne (if_pos h0)
  · cases hp

theorem needs_cons (h : Work fs s) (hgrow : Grows s fs gs) (bn : Nat) (bns : List Nat)
    (hind : NDIRECT ≤ bn → (gs.itable s).d.addrs INDIRECT ≠ 0) :
    gs.needs s bns + fs.needs s [bn] ≤ fs.needs s (bn :: bns) := by
  have hcount := countP_grows h hgrow bns
  have hneeds := needs_grows h hgrow bns
  rw [needs_singleton]
  unfold Fs.needs at *
  rw [List.countP_cons]
  simp only [beq_iff_eq, List.mem_cons, exists_eq_or_imp] at *
  by_cases hbn : NDIRECT ≤ bn
  · rw [if_neg (c := _ ∧ _) fun hc => hind hbn hc.1]
    simp only [hbn, true_or, and_true]
    omega
  · simp only [hbn, false_or, and_false, if_false]
    omega

theorem wp_balloc_count {Q : Nat → Fs → Prop} (hnone : fs.freeCount = 0 → Q 0 fs)
    (hsome : ∀ b, b < fs.sb.size → fs.bitmap b = false →
      (fs.take b).freeCount + 1 = fs.freeCount → Q b (fs.take b)) : wp balloc Q E fs := by
  by_cases h0 : fs.freeCount = 0
  · refine wp_balloc (hnone h0) fun b hlt hb => hsome b hlt hb (freeCount_take hlt hb)
  · obtain ⟨b, hb⟩ := freeBlock_isSome (Nat.pos_of_ne_zero h0)
    have hlt := List.mem_range.mp (List.mem_of_find?_eq_some hb)
    have hbit : fs.bitmap b = false := by simpa using List.find?_some hb
    simp only [balloc, wp_bind, wp_get, hb]
    exact hsome b hlt hbit (freeCount_take hlt hbit)

def Counts (fs : Fs) (missing : Prop) [Decidable missing] (r : Nat) (gs : Fs) : Prop :=
  (r ≠ 0 → gs.freeCount + (if missing then 1 else 0) = fs.freeCount) ∧
    (r = 0 → missing ∧ fs.freeCount = 0)

theorem wp_addrBlock_count (h : Work fs s) (k : Fin NADDRS) :
    wp (addrBlock s k) (Counts fs ((fs.itable s).d.addrs k = 0)) E fs := by
  simp only [addrBlock, wp_bind, wp_get, wp_ite, wp_pure]
  refine ⟨fun hk => wp_balloc_count (fun h0 => ?_) fun b hlt hb hcount => ?_, fun hk => ?_⟩
  · exact ⟨fun _ => ⟨fun hr => absurd rfl hr, fun _ => ⟨hk, h0⟩⟩, fun hr => absurd rfl hr⟩
  · refine ⟨fun hb0 => absurd hb0 (h.free_ne_zero hb), fun hb0 =>
      ⟨fun _ => ?_, fun hr => absurd hr hb0⟩⟩
    rw [if_pos hk]
    exact hcount
  · exact ⟨fun _ => by rw [if_neg hk]; rfl, fun hr => absurd hr hk⟩

theorem wp_entryBlock_count (hfree : ∀ b, fs.bitmap b = false → b ≠ 0) (addr j : Nat) :
    wp (entryBlock addr j) (Counts fs ((fs.data addr).word j = 0)) E fs := by
  simp only [entryBlock, wp_bind, wp_get, wp_ite, wp_pure]
  refine ⟨fun hj => wp_balloc_count (fun h0 => ?_) fun b hlt hb hcount => ?_, fun hj => ?_⟩
  · exact ⟨fun _ => ⟨fun hr => absurd rfl hr, fun _ => ⟨hj, h0⟩⟩, fun hr => absurd rfl hr⟩
  · refine ⟨fun hb0 => absurd hb0 (hfree b hb), fun hb0 => ⟨fun _ => ?_, fun hr => absurd hr hb0⟩⟩
    rw [if_pos hj]
    exact hcount
  · exact ⟨fun _ => by rw [if_neg hj]; rfl, fun hr => absurd hr hj⟩

section
variable (h : Work fs s)
include h

theorem wp_bmap_count (hp : posOf bn = some p) :
    wp (bmap s bn) (fun r gs => (r ≠ 0 → gs.freeCount + fs.needs s [bn] = fs.freeCount) ∧
      (r = 0 → fs.freeCount < fs.needs s [bn])) E fs := by
  have hat : fs.fileBlock s bn = blockAt fs.data (fs.itable s).d p := by simp [Fs.fileBlock, hp]
  rw [needs_singleton, hat]
  unfold bmap
  unfold posOf at hp
  by_cases h1 : bn < NDIRECT
  · rw [dif_pos h1] at hp ⊢
    obtain rfl := Option.some.inj hp
    rw [if_neg (c := _ ∧ _) (by omega)]
    refine wp_post (wp_addrBlock_count h _) fun r gs hr => ⟨fun h0 => hr.1 h0, fun h0 => ?_⟩
    obtain ⟨hk, hfree⟩ := hr.2 h0
    rw [if_pos (show blockAt fs.data (fs.itable s).d (.addr (directIdx bn h1)) = 0 from hk), hfree]
    decide
  · rw [dif_neg h1] at hp ⊢
    by_cases h2 : bn - NDIRECT < NINDIRECT
    · rw [dif_pos h2] at hp
      rw [if_pos h2, wp_bind]
      obtain rfl := Option.some.inj hp
      simp only [show NDIRECT ≤ bn by omega, and_true]
      by_cases hi : (fs.itable s).d.addrs INDIRECT = 0
      · -- the indirect block comes first, and it names nothing
        have hmiss : blockAt fs.data (fs.itable s).d (.entry ⟨bn - NDIRECT, h2⟩) = 0 := if_pos hi
        rw [if_pos hmiss, if_pos hi]
        simp only [addrBlock, wp_bind, wp_get, hi, if_true]
        refine wp_balloc_count (fun h0 => by simp [h0]) fun b hlt hb hcount => ?_
        have hb0 := h.free_ne_zero hb
        have hword : ((fs.growAddr s INDIRECT b).data b).word (bn - NDIRECT) = 0 := by
          rw [show (fs.growAddr s INDIRECT b).data b = Block.zero from Function.update_self ..]
          exact Block.word_zero _
        simp only [hb0, if_false, wp_bind, wp_modify, wp_pure]
        refine wp_post (wp_entryBlock_count (fun c => (h.growAddr hi hb hlt).free_ne_zero) b _) ?_
        rintro r gs ⟨hgot, hno⟩
        rw [if_pos hword] at hgot
        have hfree : (fs.growAddr s INDIRECT b).freeCount = (fs.take b).freeCount := rfl
        exact ⟨fun h0 => by have := hgot h0; omega, fun h0 => by have := (hno h0).2; omega⟩
      · simp only [addrBlock, wp_bind, wp_get, hi, if_false, wp_pure]
        refine wp_post (wp_entryBlock_count (fun c => h.free_ne_zero) _ _) fun r gs hr => ?_
        have hword : blockAt fs.data (fs.itable s).d (.entry ⟨bn - NDIRECT, h2⟩) =
            (fs.data ((fs.itable s).d.addrs INDIRECT)).word (bn - NDIRECT) := if_neg hi
        rw [hword]
        refine ⟨fun h0 => hr.1 h0, fun h0 => ?_⟩
        obtain ⟨hj, hfree⟩ := hr.2 h0
        rw [if_pos hj, hfree]
        decide
    · rw [dif_neg h2] at hp
      cases hp

theorem wp_bmap_room {bns : List Nat} (hp : posOf bn = some p)
    (hroom : fs.needs s (bn :: bns) ≤ fs.freeCount) :
    wp (bmap s bn) (fun r gs => r ≠ 0 ∧ gs.needs s bns ≤ gs.freeCount) E fs := by
  have hspec := wp_and (wp_bmap_count (E := E) h hp) (wp_bmap (E := E) h hp
    (Q := fun r gs => r ≠ 0 → Grows s fs gs ∧ blockAt gs.data (gs.itable s).d p ≠ 0)
    (fun _ _ _ h0 => absurd rfl h0) fun gs _ hgrow hne _ => ⟨hgrow, hne⟩)
  refine wp_mono hspec ?_ fun _ _ he => he.1
  rintro r gs ⟨⟨hgot, hno⟩, hgrow⟩
  have hneeds : fs.needs s [bn] ≤ fs.needs s (bn :: bns) := by
    rw [needs_singleton]
    simp only [Fs.needs, List.countP_cons, List.mem_cons, exists_eq_or_imp, beq_iff_eq]
    by_cases hc : (fs.itable s).d.addrs INDIRECT = 0 ∧ NDIRECT ≤ bn
    · rw [if_pos hc, if_pos (c := _ ∧ _) ⟨hc.1, .inl hc.2⟩]
      omega
    · rw [if_neg hc]
      omega
  have h0 : r ≠ 0 := fun h0 => by
    have := hno h0
    omega
  obtain ⟨hgrow, hne⟩ := hgrow h0
  have hcons := needs_cons h hgrow bn bns fun hbn => indirect_of_present hp hbn hne
  have := hgot h0
  exact ⟨h0, by omega⟩

theorem wp_bmap_full (hp : posOf bn = some p) (hfull : fs.freeCount < fs.needs s [bn]) :
    wp (bmap s bn) (fun r _ => r = 0) E fs := by
  refine wp_post (wp_bmap_count h hp) fun r gs hr => ?_
  by_contra h0
  have := hr.1 h0
  omega

theorem needs_setData (hp : p ≠ .addr INDIRECT) (hne : blockAt fs.data (fs.itable s).d p ≠ 0)
    (v : Block) (bns : List Nat) :
    (fs.setData (blockAt fs.data (fs.itable s).d p) v).needs s bns = fs.needs s bns := by
  have hsame : ∀ bn, (fs.setData (blockAt fs.data (fs.itable s).d p) v).fileBlock s bn =
      fs.fileBlock s bn := by
    intro bn
    unfold Fs.fileBlock
    cases posOf bn with
    | none => rfl
    | some q =>
      have hq := congrFun (setData_refs h hp hne v) ((fs.itable s).inum, q)
      rwa [refs_self h.typed, refs_self h.typed] at hq
  unfold Fs.needs
  simp only [hsame]
  rfl

theorem wp_writeLoop_room (src : Nat → Option UInt8) (hsrc : ∀ j, j < n → src j ≠ none)
    (fuel tot off : Nat) (hbound : off + (n - tot) ≤ MAXFILE * BSIZE) (htot : tot ≤ n)
    (hfuel : n ≤ tot + fuel) (hroom : fs.needs s (touched off (n - tot)) ≤ fs.freeCount) :
    wp (writeLoop s src n fuel tot off) (fun r _ => r.1 = n) E fs := by
  induction fuel generalizing fs tot off with
  | zero => exact (by omega : tot = n)
  | succ fuel ih =>
    simp only [writeLoop, wp_ite, wp_bind, wp_pure, wp_get, wp_set, wp_modify]
    refine ⟨fun hlt => ?_, fun hge => by omega⟩
    have hbn : off / BSIZE < MAXFILE := by
      refine Nat.div_lt_of_lt_mul ?_
      rw [Nat.mul_comm]
      omega
    obtain ⟨p, hp⟩ := posOf_isSome hbn
    obtain ⟨m, hm⟩ : ∃ m, m = min (n - tot) (BSIZE - off % BSIZE) := ⟨_, rfl⟩
    have hm0 : 0 < m := by
      have : off % BSIZE < BSIZE := Nat.mod_lt _ (by decide)
      omega
    rw [← hm]
    rw [touched_cons (m := m) (by omega) (by omega) hm0 (by omega)] at hroom
    have hbmap := wp_and (wp_bmap_room (E := E) h hp hroom)
      (wp_bmap (E := E) h hp (Q := fun r gs => r ≠ 0 → Work gs s ∧
        r = blockAt gs.data (gs.itable s).d p) (fun _ _ _ h0 => absurd rfl h0)
        fun gs hg _ _ _ => ⟨hg, rfl⟩)
    refine wp_mono hbmap ?_ fun _ _ he => he.1
    rintro r gs ⟨⟨hr, hroom'⟩, hg⟩
    obtain ⟨hw, rfl⟩ := hg hr
    refine ⟨fun h0 => absurd h0 hr, fun _ => ⟨fun _ => ?_, fun hbad => ?_⟩⟩
    · have hset := needs_setData hw (posOf_ne_indirect hp) hr
        (copyin src (gs.data (blockAt gs.data (gs.itable s).d p)) (off % BSIZE) tot m).1
        (touched (off + m) (n - (tot + m)))
      refine ih ((hw.setData (posOf_ne_indirect hp) hr _).logs _) (tot + m) (off + m) (by omega)
        (by omega) (by omega) ?_
      have hrest : n - (tot + m) = n - tot - m := by omega
      rw [hrest] at hset ⊢
      exact hset ▸ hroom'
    · exact absurd (copyin_ok src _ _ _ _ fun j _ hj => hsrc j (by omega)) hbad

end

theorem wp_writei_room (h : WellFormed fs) (hl : fs.live s) (hv : (fs.itable s).valid = true)
    (src : Nat → Option UInt8) (hsrc : ∀ j, j < n → src j ≠ none)
    (hoff : off ≤ (fs.itable s).d.size) (hmax : off + n ≤ MAXFILE * BSIZE)
    (hroom : fs.needs s (touched off n) ≤ fs.freeCount) :
    wp (writei s src off n) (fun r _ => r = (n : Int)) E fs := by
  have hwrap : (off + n) % U32 = off + n := by
    refine Nat.mod_eq_of_lt ?_
    unfold U32
    simp only [MAXFILE, NDIRECT, NINDIRECT, BSIZE] at hmax
    omega
  simp only [writei, wp_bind, wp_get, wp_ite, wp_pure, wp_modify, hwrap]
  refine ⟨fun hc => by omega, fun _ => ⟨fun hc => by omega, fun _ => ?_⟩⟩
  refine wp_post (wp_writeLoop_room (h.work hl hv) src hsrc n 0 off (by omega) (by omega) (by omega)
    (by simpa using hroom)) ?_
  rintro ⟨tot, off'⟩ gs hr
  simp only [iupdate, wp_modify]
  exact congrArg Nat.cast hr

end Room

theorem wp_writei_full {s : Fin NINODE} {fs : Fs} {E : String → Fs → Prop} (h : WellFormed fs)
    (hl : fs.live s) (hv : (fs.itable s).valid = true) (src : Nat → Option UInt8) (h0 : 0 < n)
    (hn : n < U32) (hfull : fs.freeCount < fs.needs s [off / BSIZE]) :
    wp (writei s src off n) (fun r _ => r ≤ 0) E fs := by
  obtain ⟨m, rfl⟩ : ∃ m, n = m + 1 := ⟨n - 1, by omega⟩
  simp only [writei, wp_bind, wp_get, wp_ite, wp_pure, wp_modify]
  refine ⟨fun _ => by decide, fun hoff => ⟨fun _ => by decide, fun hmax => ?_⟩⟩
  have hbn : off / BSIZE < MAXFILE := by
    have hsum : off + (m + 1) ≤ MAXFILE * BSIZE := by
      unfold U32 at *
      omega
    refine Nat.div_lt_of_lt_mul ?_
    rw [Nat.mul_comm]
    omega
  obtain ⟨p, hp⟩ := posOf_isSome hbn
  simp only [writeLoop, wp_ite, wp_bind]
  refine ⟨fun _ => ?_, fun hno => absurd h0 hno⟩
  refine wp_post (wp_bmap_full (h.work hl hv) hp hfull) fun r gs hr => ?_
  refine ⟨fun _ => ?_, fun hne => absurd hr hne⟩
  simp only [wp_pure, iupdate, wp_modify]
  decide

/-! The array of bytes. -/

def Fs.file (fs : Fs) (i : Nat) : List UInt8 := bytes fs.data fs.dinode i 0 (fs.dinode i).size

def overwrite (old : List UInt8) (off : Nat) (buf : List UInt8) : List UInt8 :=
  old.take off ++ buf ++ old.drop (off + buf.length)

@[simp] theorem bytes_length (data : Nat → Block) (D : Nat → Dinode) (i off n : Nat) :
    (bytes data D i off n).length = n := by
  simp [bytes]

@[simp] theorem file_length (fs : Fs) (i : Nat) : (fs.file i).length = (fs.dinode i).size :=
  bytes_length ..

theorem file_getElem? (fs : Fs) (i k : Nat) : (fs.file i)[k]? =
    if k < (fs.dinode i).size then some (content fs.data fs.dinode i k) else none := by
  by_cases hk : k < (fs.dinode i).size <;> simp [Fs.file, bytes, hk]

theorem overwrite_getElem? (old buf : List UInt8) (h : off ≤ old.length) (k : Nat) :
    (overwrite old off buf)[k]? =
      if off ≤ k ∧ k < off + buf.length then buf[k - off]? else old[k]? := by
  have htake : (old.take off).length = off := by simp [h]
  unfold overwrite
  by_cases h1 : k < off
  · rw [if_neg (by omega), List.append_assoc, List.getElem?_append_left (by omega),
      List.getElem?_take_of_lt h1]
  · by_cases h2 : k < off + buf.length
    · rw [if_pos ⟨by omega, h2⟩, List.getElem?_append_left (by simp [htake]; omega),
        List.getElem?_append_right (by omega), htake]
    · rw [if_neg (by omega), List.getElem?_append_right (by simp [htake]; omega),
        List.getElem?_drop, List.length_append, htake]
      congr 1
      omega

theorem bytes_eq_file (fs : Fs) (i off e : Nat) :
    bytes fs.data fs.dinode i off (min e (fs.dinode i).size - off) =
      ((fs.file i).take e).drop off := by
  refine List.ext_getElem? fun k => ?_
  rw [List.getElem?_drop, List.getElem?_take, file_getElem?]
  by_cases hk : k < min e (fs.dinode i).size - off
  · rw [if_pos (by omega), if_pos (by omega)]
    simp [bytes, hk]
  · rw [List.getElem?_eq_none (by simp; omega)]
    split
    · rw [if_neg (by omega)]
    · rfl

section Array
variable {s : Fin NINODE} {fs gs : Fs}

variable {src : Nat → Option UInt8} {E : String → Fs → Prop}

theorem Written.inode (hg : WellFormed gs) (hl : fs.live s) (hv : (fs.itable s).valid = true)
    {tot : Nat} (hw : Written s src off n fs tot gs) :
    (gs.itable s).d = gs.dinode (fs.itable s).inum := by
  have hent := hw.entry
  have hgl : gs.live s := by
    unfold Fs.live
    rw [hent]
    exact hl
  have hd := (hg.table.cached s hgl (by rw [hent]; exact hv)).1
  rw [hd]
  congr 1
  rw [hent]

theorem Written.file (h : WellFormed fs) (hg : WellFormed gs) (hl : fs.live s)
    (hv : (fs.itable s).valid = true) {buf : List UInt8}
    (hsrc : ∀ j, j < buf.length → src j = buf[j]?) (hoff : off ≤ (fs.itable s).d.size)
    (hw : Written s src off n fs buf.length gs)
    (hrest : ∀ k, off + buf.length ≤ k → k < (fs.itable s).d.size →
      content gs.data gs.dinode (fs.itable s).inum k =
        content fs.data fs.dinode (fs.itable s).inum k) :
    gs.file (fs.itable s).inum = overwrite (fs.file (fs.itable s).inum) off buf := by
  have hd := (h.table.cached s hl hv).1
  have hsize : (gs.dinode (fs.itable s).inum).size =
      max (fs.itable s).d.size (off + buf.length) := by
    rw [← Written.inode hg hl hv hw, hw.entry]
  refine List.ext_getElem? fun k => ?_
  rw [overwrite_getElem? _ _ (by rw [file_length, ← hd]; exact hoff), file_getElem?, file_getElem?,
    hsize, ← hd]
  by_cases hin : off ≤ k ∧ k < off + buf.length
  · rw [if_pos (by omega), if_pos hin, ← hw.new k hin.1 hin.2, hsrc _ (by omega)]
  · rw [if_neg hin]
    by_cases hk : k < (fs.itable s).d.size
    · rw [if_pos (by omega), if_pos hk]
      by_cases hlo : k < off
      · rw [hw.old _ _ (hd ▸ (h.table.cached s hl hv).2) (hd ▸ hk) fun _ => .inl hlo]
      · rw [hrest k (by omega) hk]
    · rw [if_neg (by omega), if_neg hk]

theorem overwrite_nil (old : List UInt8) (off : Nat) : overwrite old off [] = old := by
  simp [overwrite]

theorem wp_writei_beyond (hoff : (fs.itable s).d.size < off) (src : Nat → Option UInt8) (n : Nat)
    {Q : Int → Fs → Prop} (hQ : Q (-1) fs) :
    wp (writei s src off n) Q E fs := by
  simp only [writei, wp_bind, wp_get, wp_ite, wp_pure]
  exact ⟨fun _ => hQ, fun hin => absurd (.inl hoff) hin⟩

theorem wp_writei_over (hover : MAXFILE * BSIZE < off + n) (src : Nat → Option UInt8)
    (hwrap : off + n < U32) {Q : Int → Fs → Prop} (hQ : Q (-1) fs) :
    wp (writei s src off n) Q E fs := by
  simp only [writei, wp_bind, wp_get, wp_ite, wp_pure]
  refine ⟨fun _ => hQ, fun _ => ⟨fun _ => hQ, fun hin => ?_⟩⟩
  rw [Nat.mod_eq_of_lt hwrap] at hin
  exact absurd hover hin

theorem Written.other_file {tot : Nat} (hw : Written s src off n fs tot gs) {i : Nat}
    (hi : i ≠ (fs.itable s).inum) (hty : (fs.dinode i).type ≠ none) : gs.file i = fs.file i := by
  refine List.ext_getElem? fun k => ?_
  rw [file_getElem?, file_getElem?, hw.dinode i hi]
  split
  · rename_i hk
    rw [hw.old i k hty hk fun he => absurd he hi]
  · rfl

/-- `readi` with a good destination: the bytes up to the end of the range, where that is
computed with 32 bits, or to the end of the file. -/
theorem wp_readi_file (h : WellFormed fs) (hl : fs.live s) (hv : (fs.itable s).valid = true)
    (ok : Nat → Bool) (hoff : off < U32) (hn : n < U32) (hok : ∀ t, t < n → ok t = true) :
    wp (readi s ok off n)
      (fun r gs => gs = fs ∧ r.1 = r.2.length ∧
        r.2 = ((fs.file (fs.itable s).inum).take ((off + n) % U32)).drop off) E fs := by
  have hd := (h.table.cached s hl hv).1
  rw [← bytes_eq_file, ← hd]
  by_cases hin : (fs.itable s).d.size < off ∨ (off + n) % U32 < off
  · have hempty : min ((off + n) % U32) (fs.itable s).d.size - off = 0 := by omega
    simp only [readi, wp_bind, wp_get, wp_ite, wp_pure]
    exact ⟨fun _ => ⟨trivial, rfl, by rw [hempty]; rfl⟩, fun hout => absurd hin hout⟩
  · have hwrap : off + n < U32 := by
      unfold U32 at *
      omega
    have hcov := h.full (fs.itable s).inum
    rw [← hd] at hcov
    have hwork := h.work hl hv
    rw [← h.cur_eq hl hv] at hcov ⊢
    refine wp_readi hwork (hcov hwork.typed) ok off n fun r hr => ⟨rfl, ?_⟩
    have hcount : min n ((fs.itable s).d.size - off) =
        min ((off + n) % U32) (fs.itable s).d.size - off := by
      rw [Nat.mod_eq_of_lt hwrap]
      omega
    rw [hr hok (by omega) hwrap, hcount]
    exact ⟨by rw [bytes_length], rfl⟩

end Array

def smallFile : List FsCall :=
  [.ialloc .file, .ilock 0, .writei 0 (fun i => if i < 2 then some 7 else none) 0 2]

section
attribute [local irreducible] Run.exec Run.Along

theorem smallFile_run : ∃ fs, Run.exec step blankFs smallFile = some fs ∧ WellFormed fs ∧
    fs.live 0 ∧ (fs.itable 0).valid = true ∧ (fs.itable 0).inum = 1 ∧ fs.file 1 = [7, 7] ∧
    fs.needs 0 (touched 1 3) ≤ fs.freeCount := by
  have hal : Run.Along step Allowed blankFs smallFile := by decide +kernel
  have hrun : (Run.exec step blankFs smallFile).map (fun fs => decide (fs.live 0 ∧
      (fs.itable 0).valid = true ∧ (fs.itable 0).inum = 1 ∧ fs.file 1 = [7, 7] ∧
      fs.needs 0 (touched 1 3) ≤ fs.freeCount)) = some true := by decide +kernel
  obtain ⟨fs, hfs, hd⟩ := Option.map_eq_some_iff.mp hrun
  exact ⟨fs, hfs, blankFs_wellFormed.run hal hfs, of_decide_eq_true hd⟩

end

/-- A file is an array of bytes: `writei` of `buf`, with blocks enough, replaces the bytes from
`off` on; `readi` returns the bytes of its range and changes nothing; no other file sees
either. -/
theorem file_is_byte_array {fs : Fs} (h : WellFormed fs) {s : Fin NINODE} (hl : fs.live s)
    (hv : (fs.itable s).valid = true) :
    (∀ (src : Nat → Option UInt8) (buf : List UInt8) (off : Nat),
      (∀ j, j < buf.length → src j = buf[j]?) → off ≤ (fs.file (fs.itable s).inum).length →
      off + buf.length ≤ MAXFILE * BSIZE → fs.needs s (touched off buf.length) ≤ fs.freeCount →
      wp (writei s src off buf.length)
        (fun r gs => r = buf.length ∧
          gs.file (fs.itable s).inum = overwrite (fs.file (fs.itable s).inum) off buf ∧
          ∀ i, i ≠ (fs.itable s).inum → (fs.dinode i).type ≠ none → gs.file i = fs.file i)
        (fun _ _ => False) fs) ∧
    ∀ (ok : Nat → Bool) (off n : UInt32), (∀ t, t < n.toNat → ok t = true) →
      wp (readi s ok off.toNat n.toNat)
        (fun r gs => gs = fs ∧ r.1 = r.2.length ∧
          r.2 = ((fs.file (fs.itable s).inum).take (off + n).toNat).drop off.toNat)
        (fun _ _ => False) fs := by
  have hd := (h.table.cached s hl hv).1
  constructor
  · intro src buf off hsrc hoff hmax hroom
    rw [file_length, ← hd] at hoff
    have hlen : buf.length < U32 := by
      simp only [MAXFILE, NDIRECT, NINDIRECT, BSIZE] at hmax
      unfold U32
      omega
    have hgood : ∀ j, j < buf.length → src j ≠ none := by
      intro j hj
      rw [hsrc j hj, List.getElem?_eq_getElem hj]
      exact Option.some_ne_none _
    have hspec := wp_and (wp_writei_room (E := fun _ _ => False) h hl hv src hgood hoff hmax hroom)
      (wp_writei (E := fun _ _ => False) h hl hv src off _ hlen
        (Q := fun r gs => r = (buf.length : Int) →
          WellFormed gs ∧ Written s src off buf.length fs buf.length gs)
        (fun hc => by omega) ?_)
    · refine wp_mono hspec ?_ fun _ _ he => he.1
      rintro r gs ⟨hr, hall⟩
      obtain ⟨hg, hw⟩ := hall hr
      refine ⟨hr, hw.file h hg hl hv hsrc hoff ?_, fun i hi hty => hw.other_file hi hty⟩
      intro k hlo hk
      exact hw.old _ _ (hd ▸ (h.table.cached s hl hv).2) (hd ▸ hk) fun _ => .inr hlo
    · intro tot gs hg hw hr
      obtain rfl : tot = buf.length := Int.ofNat_inj.mp hr
      exact ⟨hg, hw⟩
  · intro ok off n hok
    rw [UInt32.toNat_add]
    exact wp_readi_file h hl hv ok off.toNat_lt n.toNat_lt hok

/-- The last byte of the file replaced, and two more: what can be read then. -/
theorem file_is_byte_array_small : ∃ fs gs, Run.exec step blankFs smallFile = some fs ∧
    writei 0 (fun j => [1, 2, 3][j]?) 1 3 fs = (.ok 3, gs) ∧ gs.file 1 = [7, 1, 2, 3] ∧
    (readi 0 (fun _ => true) 1 8 fs).1.toOption = some (1, [7]) := by
  obtain ⟨fs, hfs, hwf, hl, hv, hi, hfile, hroom⟩ := smallFile_run
  obtain ⟨hwrite, hread⟩ := file_is_byte_array hwf hl hv
  rw [hi, hfile] at hwrite hread
  obtain ⟨r, gs, hr, rfl, hgs, -⟩ | ⟨_, _, _, he⟩ := wp_cases (hwrite (fun j => [1, 2, 3][j]?)
    [1, 2, 3] 1 (fun _ _ => rfl) (by decide) (by decide) hroom)
  · refine ⟨fs, gs, hfs, hr, hgs, ?_⟩
    obtain ⟨r', gs', hr', -, hlen, hbytes⟩ | ⟨_, _, _, he⟩ :=
      wp_cases (hread (fun _ => true) 1 8 fun _ _ => rfl)
    · have hval : r' = (1, [7]) := Prod.ext (by rw [hlen, hbytes]; rfl) (by rw [hbytes]; rfl)
      have hok : (readi 0 (fun _ => true) 1 8 fs).1 = .ok r' := congrArg Prod.fst hr'
      rw [hok, hval]
      rfl
    · exact he.elim
  · exact he.elim

end Xv6Audit.FileSys
