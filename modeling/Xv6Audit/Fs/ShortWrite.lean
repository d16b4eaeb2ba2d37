import Xv6Audit.Fs.FileBytes

/-! Writes that end early. When the source cannot be read to the end of a block, the bytes
before the fault are in the buffer already, and the buffer is not given to the log. -/
namespace Xv6Audit.FileSys
open Function

open Prog Disk

/-- What a restart finds once the running operation has been committed, if `disk` was there
before: the blocks in the log as the cache has them, and an empty inode table. -/
def Fs.restart (fs : Fs) (disk : Nat → Block) : Fs :=
  { fs with
    data := fun b => if b ∈ fs.logged then fs.data b else disk b
    itable := fun s => { fs.itable s with ref := 0, locked := false, valid := false }
    logged := [] }

structure Fault (src : Nat → Option UInt8) (tot n f : Nat) : Prop where
  le : tot ≤ f
  lt : f < n
  bad : src f = none
  before : ∀ j, tot ≤ j → j < f → src j ≠ none

/-- A write that is not refused, and has the blocks to come to the one with the first fault, finds
there, in front of the fault, the end of the file or the bytes that are to be written. -/
def Untorn (fs : Fs) (s : Fin NINODE) (src : Nat → Option UInt8) (off n : Nat) : Prop :=
  off ≤ (fs.itable s).d.size → off + n ≤ MAXFILE * BSIZE → ∀ f, Fault src 0 n f →
    fs.needs s (touched off (f + 1)) ≤ fs.freeCount →
    ∀ j, j < f → (off + j) / BSIZE = (off + f) / BSIZE →
      ∀ x ∈ (fs.file (fs.itable s).inum)[off + j]?, src j = some x

def Untorn.From (fs : Fs) (s : Fin NINODE) (src : Nat → Option UInt8) (tot off n : Nat) : Prop :=
  ∀ f, Fault src tot n f → fs.needs s (touched off (f + 1 - tot)) ≤ fs.freeCount →
    ∀ j, tot ≤ j → j < f → (off + (j - tot)) / BSIZE = (off + (f - tot)) / BSIZE →
      off + (j - tot) < (fs.itable s).d.size →
      src j = some (content fs.data (fs.cur s) (fs.itable s).inum (off + (j - tot)))

theorem Fault.back {src : Nat → Option UInt8} {tot n m f : Nat} (h : Fault src (tot + m) n f)
    (hm : ∀ j, tot ≤ j → j < tot + m → src j ≠ none) : Fault src tot n f := by
  refine ⟨by have := h.le; omega, h.lt, h.bad, fun j hj hjf => ?_⟩
  by_cases hjm : j < tot + m
  · exact hm j hj hjm
  · exact h.before j (by omega) hjf

theorem Fault.eq {src : Nat → Option UInt8} {tot n f g : Nat} (h : Fault src tot n f)
    (h' : Fault src tot n g) : f = g := by
  rcases Nat.lt_trichotomy f g with hlt | rfl | hlt
  · exact absurd h.bad (h'.before f h.le hlt)
  · rfl
  · exact absurd h'.bad (h.before g h'.le hlt)

/-! What goes into the log. -/

structure Logged (fs gs : Fs) : Prop where
  mono : ∀ b, b ∈ fs.logged → b ∈ gs.logged
  clean : ∀ b, b ∉ gs.logged → gs.data b = fs.data b

section Logged
variable {s : Fin NINODE} {fs gs ks : Fs} {E : String → Fs → Prop}

theorem Logged.refl (fs : Fs) : Logged fs fs := ⟨fun _ h => h, fun _ _ => rfl⟩

theorem Logged.trans (h : Logged fs gs) (h' : Logged gs ks) : Logged fs ks :=
  ⟨fun b hb => h'.mono b (h.mono b hb),
    fun b hb => (h'.clean b hb).trans (h.clean b fun hg => hb (h'.mono b hg))⟩

theorem Logged.store (fs : Fs) (b : Nat) (v : Block) : Logged fs ((fs.setData b v).logs b) := by
  refine ⟨fun c hc => List.mem_cons_of_mem _ hc, fun c hc => ?_⟩
  have hne : c ≠ b := fun he => hc (he ▸ List.mem_cons_self)
  exact update_of_ne hne _ _

theorem Logged.take (fs : Fs) (b : Nat) : Logged fs (fs.take b) :=
  have hbit : Logged fs ((fs.setBit b true).logs (fs.bblock b)) :=
    ⟨fun _ hc => List.mem_cons_of_mem _ hc, fun _ _ => rfl⟩
  hbit.trans (Logged.store _ b Block.zero)

theorem wp_balloc_logged : wp balloc (fun _ gs => Logged fs gs) E fs :=
  wp_balloc (Logged.refl fs) fun b _ _ => Logged.take fs b

theorem wp_addrBlock_logged (k : Fin NADDRS) :
    wp (addrBlock s k) (fun _ gs => Logged fs gs) E fs := by
  simp only [addrBlock, wp_bind, wp_get, wp_ite, wp_pure]
  refine ⟨fun _ => wp_post wp_balloc_logged ?_, fun _ => Logged.refl fs⟩
  intro b gs hg
  exact ⟨fun _ => hg, fun _ => ⟨hg.mono, hg.clean⟩⟩

theorem wp_entryBlock_logged (addr j : Nat) :
    wp (entryBlock addr j) (fun _ gs => Logged fs gs) E fs := by
  simp only [entryBlock, wp_bind, wp_get, wp_ite, wp_pure]
  refine ⟨fun _ => wp_post wp_balloc_logged ?_, fun _ => Logged.refl fs⟩
  intro b gs hg
  exact ⟨fun _ => hg, fun _ => hg.trans (Logged.store gs addr _)⟩

theorem wp_bmap_logged (bn : Nat) (hbn : bn < MAXFILE) :
    wp (bmap s bn) (fun _ gs => Logged fs gs) E fs := by
  unfold bmap
  by_cases h1 : bn < NDIRECT
  · rw [dif_pos h1]
    exact wp_addrBlock_logged _
  · have h2 : bn - NDIRECT < NINDIRECT := by
      unfold MAXFILE at hbn
      omega
    rw [dif_neg h1, if_pos h2, wp_bind]
    refine wp_post (wp_addrBlock_logged INDIRECT) ?_
    intro addr gs hg
    rw [wp_ite]
    exact ⟨fun _ => hg, fun _ => wp_post (wp_entryBlock_logged addr _) fun _ ks hk => hg.trans hk⟩

end Logged

/-! Which blocks `bmap` adds. -/

section Room
variable {s : Fin NINODE} {fs gs : Fs} {E : String → Fs → Prop} {bn : Nat} {p : Pos}

def SameOutside (P : Pos → Prop) (s : Fin NINODE) (fs gs : Fs) : Prop :=
  ∀ q, ¬ P q → blockAt gs.data (gs.itable s).d q = blockAt fs.data (fs.itable s).d q

theorem wp_addrBlock_others (h : Work fs s) (k : Fin NADDRS) :
    wp (addrBlock s k) (fun _ gs => SameOutside (· = .addr k) s fs gs) E fs := by
  simp only [addrBlock, wp_bind, wp_get, wp_ite, wp_pure]
  refine ⟨fun hk => wp_balloc ⟨fun _ _ _ => rfl, fun h0 => absurd rfl h0⟩ fun b hlt hb => ?_,
    fun _ _ _ => rfl⟩
  refine ⟨fun h0 => absurd h0 (h.free_ne_zero hb), fun _ q hq => ?_⟩
  have hrefs := congrFun (growAddr_refs h hk hb hlt) ((fs.itable s).inum, q)
  have hinum : ((fs.growAddr s k b).itable s).inum = (fs.itable s).inum := by rw [growAddr_itable]
  rw [update_of_ne (by simpa using hq), refs_self h.typed, ← hinum,
    refs_self (by rw [growAddr_itable]; exact h.typed)] at hrefs
  exact hrefs

theorem wp_entryBlock_others (h : Work fs s) (j : Fin NINDIRECT)
    (h0 : (fs.itable s).d.addrs INDIRECT ≠ 0) :
    wp (entryBlock ((fs.itable s).d.addrs INDIRECT) j)
      (fun _ gs => SameOutside (· = .entry j) s fs gs) E fs := by
  simp only [entryBlock, wp_bind, wp_get, wp_ite, wp_pure]
  refine ⟨fun hj => wp_balloc ⟨fun _ _ _ => rfl, fun h0 => absurd rfl h0⟩ fun b hlt hb => ?_,
    fun _ _ _ => rfl⟩
  refine ⟨fun hb0 => absurd hb0 (h.free_ne_zero hb), fun _ q hq => ?_⟩
  have hrefs := congrFun (growEntry_refs h j h0 hb hlt) ((fs.itable s).inum, q)
  have hne : (fs.itable s).d.addrs INDIRECT ≠ b := by
    simpa using h.indirect_ne (i := (fs.itable s).inum) (by simpa using h.typed) hb hlt
  have hsame : (fs.take b).data ((fs.itable s).d.addrs INDIRECT) =
      fs.data ((fs.itable s).d.addrs INDIRECT) := update_of_ne hne _ _
  rw [update_of_ne (by simpa using hq), refs_self h.typed, refs_self h.typed] at hrefs
  simp only [hsame]
  exact hrefs

theorem wp_bmap_others (h : Work fs s) (hp : posOf bn = some p) :
    wp (bmap s bn) (fun _ gs =>
      SameOutside (fun q => q = p ∨ q = .addr INDIRECT ∧ NDIRECT ≤ bn) s fs gs) E fs := by
  unfold bmap
  unfold posOf at hp
  by_cases h1 : bn < NDIRECT
  · rw [dif_pos h1] at hp ⊢
    obtain rfl := Option.some.inj hp
    exact wp_post (wp_addrBlock_others h _) fun _ gs hg q hq => hg q fun he => hq (.inl he)
  · rw [dif_neg h1] at hp ⊢
    by_cases h2 : bn - NDIRECT < NINDIRECT
    · rw [dif_pos h2] at hp
      rw [if_pos h2, wp_bind]
      obtain rfl := Option.some.inj hp
      refine wp_mono (wp_and (wp_addrBlock_others (E := E) h INDIRECT) (wp_addrBlock (E := E) h INDIRECT
        (Q := fun r gs => r ≠ 0 → Work gs s ∧ r = (gs.itable s).d.addrs INDIRECT)
        (fun h0 => absurd rfl h0) fun gs hg _ _ _ => ⟨hg, rfl⟩)) ?_ fun _ _ he => he.1
      rintro r gs ⟨hg, hr⟩
      have hind : ∀ q, ¬ (q = Pos.entry ⟨bn - NDIRECT, h2⟩ ∨ q = .addr INDIRECT ∧ NDIRECT ≤ bn) →
          blockAt gs.data (gs.itable s).d q = blockAt fs.data (fs.itable s).d q :=
        fun q hq => hg q fun he => hq (.inr ⟨he, by omega⟩)
      rw [wp_ite, wp_pure]
      refine ⟨fun _ => hind, fun h0 => ?_⟩
      obtain ⟨hw, rfl⟩ := hr h0
      refine wp_post (wp_entryBlock_others hw ⟨bn - NDIRECT, h2⟩ h0) fun _ ks hk q hq => ?_
      exact (hk q fun he => hq (.inl he)).trans (hind q hq)
    · rw [dif_neg h2] at hp
      cases hp

theorem needs_cons_le (hp : posOf bn = some p) {bns : List Nat} (hbn : bn ∉ bns)
    (hs : SameOutside (fun q => q = p ∨ q = .addr INDIRECT ∧ NDIRECT ≤ bn) s fs gs) :
    fs.needs s (bn :: bns) ≤ fs.needs s [bn] + gs.needs s bns := by
  have hsame : ∀ c ∈ bns, gs.fileBlock s c = fs.fileBlock s c := by
    intro c hc
    unfold Fs.fileBlock
    cases hq : posOf c with
    | none => rfl
    | some q =>
      refine hs q ?_
      rintro (rfl | ⟨rfl, -⟩)
      · exact hbn (posOf_inj hq hp ▸ hc)
      · exact posOf_ne_indirect hq rfl
  have hcount : bns.countP (fun c => gs.fileBlock s c == 0) =
      bns.countP (fun c => fs.fileBlock s c == 0) :=
    List.countP_congr fun c hc => by rw [hsame c hc]
  rw [needs_singleton]
  unfold Fs.needs
  rw [List.countP_cons, hcount]
  simp only [beq_iff_eq, List.mem_cons, exists_eq_or_imp]
  by_cases hge : NDIRECT ≤ bn
  · simp only [hge, true_or, and_true]
    omega
  · have hind : (gs.itable s).d.addrs INDIRECT = (fs.itable s).d.addrs INDIRECT :=
      hs (.addr INDIRECT) (by rintro (he | ⟨-, he⟩); exacts [posOf_ne_indirect hp he.symm, hge he])
    simp only [hge, false_or, and_false, if_false, hind]
    omega

end Room

/-! The loop. -/

theorem touched_split (off : Nat) {n : Nat} (h : 0 < n) :
    ∃ rest, touched off n = off / BSIZE :: rest ∧ off / BSIZE ∉ rest := by
  have hcount : (off + n - 1) / BSIZE + 1 - off / BSIZE =
      ((off + n - 1) / BSIZE - off / BSIZE) + 1 := by
    unfold BSIZE
    omega
  refine ⟨_, by rw [touched, if_neg (by omega), hcount, List.range'_succ], ?_⟩
  rw [List.mem_range'_1]
  omega

theorem copyin_readable (src : Nat → Option UInt8) (blk : Block) (o tot m : Nat)
    (hok : (copyin src blk o tot m).2 = true) : ∀ j, tot ≤ j → j < tot + m → src j ≠ none := by
  induction m generalizing blk o tot with
  | zero => omega
  | succ m ih =>
    rw [copyin] at hok
    intro j h1 h2 hnone
    cases hs : src tot with
    | none => simp [hs] at hok
    | some b =>
      simp only [hs] at hok
      have hne : j ≠ tot := by
        rintro rfl
        rw [hs] at hnone
        cases hnone
      exact ih _ _ _ hok j (by omega) (by omega) hnone

theorem copyin_fault (src : Nat → Option UInt8) (blk : Block) (o tot m : Nat)
    (hbad : (copyin src blk o tot m).2 ≠ true) : ∃ f, Fault src tot (tot + m) f ∧
      (copyin src blk o tot m).1 = (copyin src blk o tot (f - tot)).1 := by
  induction m generalizing blk o tot with
  | zero => exact absurd rfl hbad
  | succ m ih =>
    rw [copyin] at hbad ⊢
    cases hs : src tot with
    | none =>
      exact ⟨tot, ⟨Nat.le_refl _, by omega, hs, fun j h1 h2 => by omega⟩, by
        rw [Nat.sub_self, copyin]⟩
    | some b =>
      simp only [hs] at hbad
      obtain ⟨f, hf, hcopy⟩ := ih _ _ _ hbad
      have hle := hf.le
      refine ⟨f, ⟨by omega, by have := hf.lt; omega, hf.bad, fun j hj hjf => ?_⟩, ?_⟩
      · by_cases hjt : j = tot
        · rw [hjt, hs]
          exact Option.some_ne_none b
        · exact hf.before j (by omega) hjf
      · rw [show f - tot = f - (tot + 1) + 1 by omega, copyin, hs]
        exact hcopy

/-- Block `b` was overwritten without being logged, from byte `k` of the file on, but not where
the file shows it. -/
def Torn (s : Fin NINODE) (fs gs : Fs) (k b : Nat) : Prop :=
  b ≠ 0 ∧ (∃ p, posOf (k / BSIZE) = some p ∧ b = blockAt gs.data (gs.itable s).d p) ∧
    ∀ j, j < k % BSIZE ∨ k / BSIZE * BSIZE + j < (fs.itable s).d.size →
      (gs.data b).byte j = (fs.data b).byte j

structure Short (s : Fin NINODE) (fs : Fs) (k : Nat) (gs : Fs) : Prop where
  mono : ∀ b, b ∈ fs.logged → b ∈ gs.logged
  rest : ∀ j, k ≤ j → j < (fs.itable s).d.size →
    content gs.data (gs.cur s) (fs.itable s).inum j = content fs.data (fs.cur s) (fs.itable s).inum j
  clean : ∀ b, b ∉ gs.logged → gs.data b = fs.data b ∨ Torn s fs gs k b

section Short
variable {s : Fin NINODE} {fs gs ks : Fs} {E : String → Fs → Prop}

theorem Short.refl (s : Fin NINODE) (fs : Fs) (k : Nat) : Short s fs k fs :=
  ⟨fun _ h => h, fun _ _ _ => rfl, fun _ _ => .inl rfl⟩

theorem Short.grow (h : Work fs s) (hg : Work gs s) (hgrow : Grows s fs gs) (hlog : Logged fs gs)
    (hc : Covers fs.data (fs.cur s) (fs.itable s).inum (fs.itable s).d.size) {k : Nat}
    (hs : Short s gs k ks) : Short s fs k ks := by
  refine ⟨fun b hb => hs.mono b (hlog.mono b hb), ?_, ?_⟩
  · intro j hkj hj
    have hrest := hs.rest j hkj (by rw [hgrow.size]; exact hj)
    rw [hgrow.inum] at hrest
    rw [hrest, hgrow.content h hg (hc.present hj)]
  · intro b hb
    have hsame := hlog.clean b fun hbg => hb (hs.mono b hbg)
    have hclean := hs.clean b hb
    unfold Torn at *
    rw [← hgrow.size, ← hsame]
    exact hclean

theorem Short.write (h : Work fs s) (src : Nat → Option UInt8) {tot off m k : Nat} {p : Pos}
    (hp : posOf (off / BSIZE) = some p) (hne : blockAt fs.data (fs.itable s).d p ≠ 0)
    (hm : m ≤ BSIZE - off % BSIZE) {c : Block × Bool}
    (hcopy : c = copyin src (fs.data (blockAt fs.data (fs.itable s).d p)) (off % BSIZE) tot m)
    (hc : Covers fs.data (fs.cur s) (fs.itable s).inum (fs.itable s).d.size) (hk : off + m ≤ k)
    (hs : Short s ((fs.setData (blockAt fs.data (fs.itable s).d p) c.1).logs
      (blockAt fs.data (fs.itable s).d p)) k gs) : Short s fs k gs := by
  obtain ⟨hkeep, -⟩ := block_written h src hp hne hm hcopy _ rfl
  have hlog := Logged.store fs (blockAt fs.data (fs.itable s).d p) c.1
  refine ⟨fun b hb => hs.mono b (hlog.mono b hb), ?_, ?_⟩
  · intro j hkj hj
    exact (hs.rest j hkj hj).trans (hkeep _ j (hc.present hj) fun _ => .inr (by omega))
  · intro b hb
    have hsame := hlog.clean b fun hbg => hb (hs.mono b hbg)
    have hclean := hs.clean b hb
    unfold Torn at *
    rw [← hsame]
    exact hclean

variable {src : Nat → Option UInt8} {n tot off m f : Nat} {p : Pos}

section
variable (h : Work fs s)
include h

theorem Short.torn (hp : posOf (off / BSIZE) = some p) (hne : blockAt fs.data (fs.itable s).d p ≠ 0)
    (hm : m ≤ BSIZE - off % BSIZE) (hf : Fault src tot (tot + m) f)
    (hc : Covers fs.data (fs.cur s) (fs.itable s).inum (fs.itable s).d.size)
    (heq : ∀ j, tot ≤ j → j < f → off + (j - tot) < (fs.itable s).d.size →
      src j = some (content fs.data (fs.cur s) (fs.itable s).inum (off + (j - tot)))) {v : Block}
    (hv : v = (copyin src (fs.data (blockAt fs.data (fs.itable s).d p)) (off % BSIZE)
      tot (f - tot)).1) : Short s fs off (fs.setData (blockAt fs.data (fs.itable s).d p) v) := by
  obtain ⟨b, hb⟩ : ∃ b, b = blockAt fs.data (fs.itable s).d p := ⟨_, rfl⟩
  have hmod : off % BSIZE < BSIZE := Nat.mod_lt _ (by decide)
  have hroom : off % BSIZE + (f - tot) ≤ BSIZE := by
    have := hf.lt
    omega
  have hout : ∀ j, j < off % BSIZE ∨ off % BSIZE + (f - tot) ≤ j →
      v.byte j = (fs.data b).byte j := by
    intro j hj
    rw [hv, ← hb]
    exact copyin_outside src _ _ _ _ _ hroom hj
  have hseen : ∀ j, off / BSIZE * BSIZE + j < (fs.itable s).d.size →
      v.byte j = (fs.data b).byte j := by
    intro j hj
    by_cases hin : off % BSIZE ≤ j ∧ j < off % BSIZE + (f - tot)
    · have hcopied := copyin_inside src (fs.data b) _ tot (f - tot) j hroom
        (copyin_ok src _ _ _ _ fun i h1 h2 => hf.before i h1 (by omega)) hin.1 hin.2
      have hpos : off + (tot + (j - off % BSIZE) - tot) = off / BSIZE * BSIZE + j := by
        unfold BSIZE at *
        omega
      have hold := heq (tot + (j - off % BSIZE)) (by omega) (by omega) (by rw [hpos]; exact hj)
      have hdiv : (off / BSIZE * BSIZE + j) / BSIZE = off / BSIZE := by
        unfold BSIZE at *
        omega
      have hrem : (off / BSIZE * BSIZE + j) % BSIZE = j := by
        unfold BSIZE at *
        omega
      rw [hpos, content_eq (by rw [hdiv]; exact hp), refs_self h.typed, hrem, ← hb] at hold
      rw [hv, ← hb]
      exact Option.some.inj (hcopied.symm.trans hold)
    · exact hout j (by omega)
  rw [← hb]
  refine ⟨fun _ hx => hx, fun j _ hj => ?_, fun x _ => ?_⟩
  · have hcontent := setData_content h hp hne v (hc.present hj)
    rw [← hb] at hcontent
    refine hcontent.trans ?_
    split
    · rename_i hblk
      have hpos : off / BSIZE * BSIZE + j % BSIZE = j := by
        have := hblk.2
        unfold BSIZE at *
        omega
      rw [hseen _ (by rw [hpos]; exact hj), content_eq (by rw [hblk.2]; exact hp),
        refs_self h.typed, ← hb]
    · rfl
  · by_cases hx : x = b
    · have hnew : (fs.setData b v).data b = v := update_self ..
      have hself := congrFun (setData_refs h (posOf_ne_indirect hp) hne v)
        ((fs.itable s).inum, p)
      rw [refs_self h.typed, refs_self h.typed, ← hb] at hself
      subst hx
      refine .inr ⟨hb ▸ hne, ⟨p, hp, hself.symm⟩, fun j hj => ?_⟩
      rw [hnew]
      exact hj.elim (fun hlt => hout j (.inl hlt)) (hseen j)
    · exact .inl (update_of_ne hx _ _)

theorem Untorn.From.next (hg : Work gs s) (hgrow : Grows s fs gs)
    (hc : Covers fs.data (fs.cur s) (fs.itable s).inum (fs.itable s).d.size)
    (hp : posOf (off / BSIZE) = some p)
    (hs : SameOutside (fun q => q = p ∨ q = .addr INDIRECT ∧ NDIRECT ≤ off / BSIZE) s fs gs)
    (hcount : gs.freeCount + fs.needs s [off / BSIZE] = fs.freeCount)
    (hne : blockAt gs.data (gs.itable s).d p ≠ 0) (hm : m = min (n - tot) (BSIZE - off % BSIZE))
    {c : Block × Bool}
    (hcopy : c = copyin src (gs.data (blockAt gs.data (gs.itable s).d p)) (off % BSIZE) tot m)
    (hok : c.2 = true) (ha : Untorn.From fs s src tot off n) :
    Untorn.From ((gs.setData (blockAt gs.data (gs.itable s).d p) c.1).logs
      (blockAt gs.data (gs.itable s).d p)) s src (tot + m) (off + m) n := by
  intro f hf hroom j hj hjf hblk hlt
  have hle := hf.le
  have hfn := hf.lt
  have hcons : touched off (f + 1 - tot) =
      off / BSIZE :: touched (off + m) (f + 1 - (tot + m)) := by
    have : off % BSIZE < BSIZE := Nat.mod_lt _ (by decide)
    rw [touched_cons (m := m) (by omega) (by omega) (by omega) (by omega)]
    congr 2
    omega
  obtain ⟨rest, hrest, hnot⟩ := touched_split off (show 0 < f + 1 - tot by omega)
  obtain rfl := (List.cons.inj (hcons.symm.trans hrest)).2
  have hneeds : gs.needs s (touched (off + m) (f + 1 - (tot + m))) ≤ gs.freeCount := by
    rw [← needs_setData hg (posOf_ne_indirect hp) hne c.1]
    exact hroom
  have hle' := needs_cons_le hp hnot hs
  have hpos : off + m + (j - (tot + m)) = off + (j - tot) := by omega
  have hpos' : off + m + (f - (tot + m)) = off + (f - tot) := by omega
  rw [hpos, hpos'] at hblk
  rw [hpos] at hlt ⊢
  have hlt' : off + (j - tot) < (fs.itable s).d.size := by
    rw [← hgrow.size]
    exact hlt
  have hread := copyin_readable src (gs.data (blockAt gs.data (gs.itable s).d p)) (off % BSIZE)
    tot m (hcopy ▸ hok)
  rw [ha f (hf.back hread) (by rw [hcons]; omega) j (by omega) hjf hblk hlt']
  obtain ⟨hkeep, -⟩ := block_written hg src hp hne (by omega) hcopy _ rfl
  have hpres := hc.present hlt'
  have hkept := (hkeep (fs.itable s).inum _ (hgrow.toExtends.present hpres)
    fun _ => .inr (by omega)).trans (hgrow.content h hg hpres)
  exact congrArg some (hgrow.inum ▸ hkept.symm)

theorem wp_bmap_round (hp : posOf (off / BSIZE) = some p) (hbn : off / BSIZE < MAXFILE) :
    wp (bmap s (off / BSIZE)) (fun r gs => Work gs s ∧ Grows s fs gs ∧ Logged fs gs ∧
      (r ≠ 0 → r = blockAt gs.data (gs.itable s).d p ∧
        gs.freeCount + fs.needs s [off / BSIZE] = fs.freeCount ∧
        SameOutside (fun q => q = p ∨ q = .addr INDIRECT ∧ NDIRECT ≤ off / BSIZE) s fs gs)) E fs := by
  have hspec := wp_and (wp_and (wp_bmap_logged (s := s) (E := E) (off / BSIZE) hbn)
    (wp_and (wp_bmap_count (E := E) h hp) (wp_bmap_others (E := E) h hp)))
    (wp_bmap (E := E) h hp (Q := fun r gs => Work gs s ∧ Grows s fs gs ∧
      (r ≠ 0 → r = blockAt gs.data (gs.itable s).d p)) (fun gs hg hgrow =>
        ⟨hg, hgrow, fun h0 => absurd rfl h0⟩) fun gs hg hgrow _ => ⟨hg, hgrow, fun _ => rfl⟩)
  refine wp_mono hspec ?_ fun _ _ he => he.2
  rintro r gs ⟨⟨hlog, ⟨hgot, -⟩, hs⟩, hg, hgrow, hr⟩
  exact ⟨hg, hgrow, hlog, fun h0 => ⟨hr h0, hgot h0, hs⟩⟩

theorem wp_writeLoop_short (fuel tot off : Nat) (hbound : off + (n - tot) ≤ MAXFILE * BSIZE)
    (hc : Covers fs.data (fs.cur s) (fs.itable s).inum (fs.itable s).d.size)
    (ha : Untorn.From fs s src tot off n) :
    wp (writeLoop s src n fuel tot off)
      (fun r gs => tot ≤ r.1 ∧ r.2 + tot = off + r.1 ∧ Short s fs r.2 gs) E fs := by
  induction fuel generalizing fs tot off with
  | zero => exact ⟨Nat.le_refl _, rfl, Short.refl s fs off⟩
  | succ fuel ih =>
    simp only [writeLoop, wp_ite, wp_bind, wp_pure, wp_get, wp_set, wp_modify]
    refine ⟨fun hlt => ?_, fun _ => ⟨Nat.le_refl _, trivial, Short.refl s fs off⟩⟩
    have hbn : off / BSIZE < MAXFILE := by
      refine Nat.div_lt_of_lt_mul ?_
      rw [Nat.mul_comm]
      omega
    obtain ⟨p, hp⟩ := posOf_isSome hbn
    obtain ⟨m, hm⟩ : ∃ m, m = min (n - tot) (BSIZE - off % BSIZE) := ⟨_, rfl⟩
    rw [← hm]
    refine wp_post (wp_bmap_round h hp hbn) ?_
    rintro r gs ⟨hg, hgrow, hlog, hr⟩
    refine ⟨fun _ => ⟨Nat.le_refl _, trivial, (Short.refl s gs off).grow h hg hgrow hlog hc⟩,
      fun h0 => ?_⟩
    obtain ⟨rfl, hcount, hs⟩ := hr h0
    have hcg : Covers gs.data (gs.cur s) (gs.itable s).inum (gs.itable s).d.size := by
      rw [hgrow.inum, hgrow.size]
      exact hgrow.toExtends.covers hc
    have hx := hg.setData_extends (posOf_ne_indirect hp) h0
    constructor
    · intro hok
      refine wp_post (ih ((hg.setData (posOf_ne_indirect hp) h0 _).logs _) (tot + m) (off + m)
        (by omega) ((hx _).covers hcg) (ha.next h hg hgrow hc hp hs hcount h0 hm rfl hok)) ?_
      rintro r ks ⟨hle, hreached, hks⟩
      exact ⟨by omega, by omega, (Short.write hg src hp h0 (by omega) rfl hcg (by omega) hks).grow h hg
        hgrow hlog hc⟩
    · intro hbad
      obtain ⟨f, hf, hcopy⟩ := copyin_fault src _ _ _ _ hbad
      have hle := hf.le
      have hfm := hf.lt
      have hone : touched off (f + 1 - tot) = [off / BSIZE] := by
        rw [touched_cons (Nat.le_refl _) (.inr rfl) (by omega) (by omega), Nat.sub_self]
        rfl
      refine ⟨Nat.le_refl _, trivial, (Short.torn hg hp h0 (by omega) hf hcg ?_ hcopy).grow h hg hgrow
        hlog hc⟩
      intro j hj hjf hlt'
      rw [hgrow.size] at hlt'
      have hblk : ∀ i, i ≤ f → (off + (i - tot)) / BSIZE = off / BSIZE := by
        intro i hi
        have : off % BSIZE < BSIZE := Nat.mod_lt _ (by decide)
        unfold BSIZE at *
        omega
      rw [ha f ⟨hle, by omega, hf.bad, hf.before⟩ (by rw [hone]; omega) j hj hjf
        ((hblk j (by omega)).trans (hblk f (Nat.le_refl _)).symm) hlt', hgrow.inum,
        hgrow.content h hg (hc.present hlt')]

/-- With the blocks to come to the first fault, what is in front of it in its block is written,
and not counted. -/
theorem wp_writeLoop_fault (fuel tot off : Nat) (hbound : off + (n - tot) ≤ MAXFILE * BSIZE)
    (hf : Fault src tot n f) (hfuel : f < tot + fuel)
    (hroom : fs.needs s (touched off (f + 1 - tot)) ≤ fs.freeCount) :
    wp (writeLoop s src n fuel tot off) (fun r gs => r.2 + tot = off + r.1 ∧
      r.2 = max off ((off + (f - tot)) / BSIZE * BSIZE) ∧
      ∀ j, tot ≤ j → j < f → (off + (j - tot)) / BSIZE = (off + (f - tot)) / BSIZE →
        src j = some (content gs.data (gs.cur s) (fs.itable s).inum (off + (j - tot)))) E fs := by
  induction fuel generalizing fs tot off with
  | zero => exact absurd hf.le (by omega)
  | succ fuel ih =>
    have hle := hf.le
    have hfn := hf.lt
    simp only [writeLoop, wp_ite, wp_bind, wp_pure, wp_get, wp_set, wp_modify]
    refine ⟨fun hlt => ?_, fun hge => by omega⟩
    have hbn : off / BSIZE < MAXFILE := by
      refine Nat.div_lt_of_lt_mul ?_
      rw [Nat.mul_comm]
      omega
    obtain ⟨p, hp⟩ := posOf_isSome hbn
    obtain ⟨m, hm⟩ : ∃ m, m = min (n - tot) (BSIZE - off % BSIZE) := ⟨_, rfl⟩
    have hmod : off % BSIZE < BSIZE := Nat.mod_lt _ (by decide)
    have hcons : touched off (f + 1 - tot) = off / BSIZE ::
        touched (off + min m (f + 1 - tot)) (f + 1 - tot - min m (f + 1 - tot)) :=
      touched_cons (by omega) (by omega) (by omega) (by omega)
    rw [← hm]
    rw [hcons] at hroom
    refine wp_mono (wp_and (wp_bmap_room (E := E) h hp hroom) (wp_bmap_round (E := E) h hp hbn)) ?_
      fun _ _ he => he.1
    rintro r gs ⟨⟨h0, hroom'⟩, hg, hgrow, -, hr⟩
    obtain ⟨rfl, -, -⟩ := hr h0
    refine ⟨fun he => absurd he h0, fun _ => ⟨fun hok => ?_, fun hbad => ?_⟩⟩
    · have hread := copyin_readable src _ _ _ _ hok
      have hmf : tot + m ≤ f := by
        by_contra hlt'
        exact hread f hle (by omega) hf.bad
      have hf' : Fault src (tot + m) n f := ⟨hmf, hfn, hf.bad, fun j hj => hf.before j (by omega)⟩
      have hrest : f + 1 - tot - min m (f + 1 - tot) = f + 1 - (tot + m) := by omega
      have hmin : min m (f + 1 - tot) = m := by omega
      rw [hrest, hmin] at hroom'
      have hset := needs_setData hg (posOf_ne_indirect hp) h0
        (copyin src (gs.data (blockAt gs.data (gs.itable s).d p)) (off % BSIZE) tot m).1
        (touched (off + m) (f + 1 - (tot + m)))
      have hpos : ∀ j, tot + m ≤ j → off + m + (j - (tot + m)) = off + (j - tot) := by omega
      refine wp_post (ih ((hg.setData (posOf_ne_indirect hp) h0 _).logs _) (tot + m) (off + m)
        (by omega) hf' (by omega) (hset ▸ hroom')) ?_
      rintro r ks ⟨hreached, hend, hnew⟩
      rw [hpos f hmf] at hend hnew
      refine ⟨by omega, ?_, fun j hj hjf hblk => ?_⟩
      · rw [hend]
        unfold BSIZE at *
        omega
      · have hjm : tot + m ≤ j := by
          by_contra hlt'
          unfold BSIZE at *
          omega
        have hgot := hnew j hjm hjf (by rw [hpos j hjm]; exact hblk)
        rw [hpos j hjm] at hgot
        exact hgot.trans (by rw [← hgrow.inum]; rfl)
    · obtain ⟨f', hf', hcopy⟩ := copyin_fault src _ _ _ _ hbad
      obtain rfl : f = f' := hf.eq ⟨hf'.le, by have := hf'.lt; omega, hf'.bad, hf'.before⟩
      have hfm := hf'.lt
      have hdiv : (off + (f - tot)) / BSIZE = off / BSIZE := by
        unfold BSIZE at *
        omega
      refine ⟨trivial, by unfold BSIZE at *; omega, fun j hj hjf hblk => ?_⟩
      have hfit : f - tot ≤ BSIZE - off % BSIZE := by omega
      obtain ⟨-, hnew⟩ := block_written hg src hp h0 hfit rfl _ rfl
      have hgot := hnew (copyin_ok src _ _ _ _ fun i h1 h2 => hf.before i h1 (by omega))
        (off + (j - tot)) (by omega) (by omega)
      rw [← hcopy, hgrow.inum] at hgot
      rw [← hgot]
      congr 1
      omega

end

theorem Short.close {k : Nat} (hs : Short s fs k gs) {d : Dinode}
    (ht : d.type = (gs.itable s).d.type) (ha : d.addrs = (gs.itable s).d.addrs)
    (hdata : ks.data = gs.data) (hcur : ks.cur s = (gs.setD s d).cur s)
    (hent : (ks.itable s).d = d) (hlog : ∀ b, b ∈ gs.logged → b ∈ ks.logged) : Short s fs k ks := by
  have hat : ∀ p, blockAt gs.data d p = blockAt gs.data (gs.itable s).d p := by
    intro p
    cases p <;> simp only [blockAt, ha]
  refine ⟨fun b hb => hlog b (hs.mono b hb), ?_, ?_⟩
  · intro j hkj hj
    rw [hdata, hcur, setD_content ht ha]
    exact hs.rest j hkj hj
  · intro b hb
    have hclean := hs.clean b fun hbg => hb (hlog b hbg)
    unfold Torn at *
    rw [hdata, hent]
    simp only [hat]
    exact hclean

section
variable (h : WellFormed fs) (hl : fs.live s) (hv : (fs.itable s).valid = true)
include h hl hv

theorem file_getElem?_cur (k : Nat) :
    (fs.file (fs.itable s).inum)[k]? = if k < (fs.itable s).d.size then
      some (content fs.data (fs.cur s) (fs.itable s).inum k) else none := by
  rw [file_getElem?, h.cur_eq hl hv, (h.table.cached s hl hv).1]

theorem Untorn.start (ha : Untorn fs s src off n) (hoff : off ≤ (fs.itable s).d.size)
    (hmax : off + n ≤ MAXFILE * BSIZE) :
    Untorn.From fs s src 0 off n := by
  intro f hf hroom j _ hjf hblk hlt
  refine ha hoff hmax f hf hroom j hjf hblk _ ?_
  rw [file_getElem?_cur h hl hv]
  exact if_pos hlt

theorem wp_writei_short (hn : n < U32) (ha : Untorn fs s src off n) :
    wp (writei s src off n) (fun r gs => ∀ tot : Nat, r = tot → off ≤ (fs.itable s).d.size ∧
      Short s fs (off + tot) gs) E fs := by
  have hw := h.work hl hv
  have hcov := h.full (fs.itable s).inum
  rw [← h.cur_eq hl hv, cur_self] at hcov
  simp only [writei, wp_bind, wp_get, wp_ite, wp_pure, wp_modify]
  refine ⟨fun _ tot ht => by omega, fun hoff => ⟨fun _ tot ht => by omega, fun hmax => ?_⟩⟩
  have hsum : off + n ≤ MAXFILE * BSIZE := by
    unfold U32 at *
    omega
  refine wp_post (wp_writeLoop_short hw n 0 off (by omega) (hcov hw.typed)
    (ha.start h hl hv (by omega) hsum)) ?_
  rintro ⟨tot, off'⟩ gs ⟨-, hreached, hs⟩
  rw [setD_size]
  simp only [iupdate, wp_modify]
  intro tot' htot
  obtain rfl : tot = tot' := Int.ofNat_inj.mp htot
  obtain rfl : off' = off + tot := hreached
  refine ⟨by omega, hs.close (d := { (gs.itable s).d with
    size := max (gs.itable s).d.size (off + tot) }) rfl rfl rfl ?_ ?_ ?_⟩
  · simp [Fs.cur, Fs.logs, Fs.setDinode]
  · exact congrArg Inode.d (setD_itable _)
  · exact fun b hb => List.mem_cons_of_mem _ hb

theorem wp_writei_fault (hoff : off ≤ (fs.itable s).d.size) (hmax : off + n ≤ MAXFILE * BSIZE)
    (hf : Fault src 0 n f) (hroom : fs.needs s (touched off (f + 1)) ≤ fs.freeCount) :
    wp (writei s src off n) (fun r gs => ∃ tot : Nat, r = tot ∧
      off + tot = max off ((off + f) / BSIZE * BSIZE) ∧
      ∀ j, j < f → (off + j) / BSIZE = (off + f) / BSIZE →
        src j = some (content gs.data (gs.cur s) (fs.itable s).inum (off + j))) E fs := by
  have hwrap : (off + n) % U32 = off + n := by
    refine Nat.mod_eq_of_lt ?_
    unfold U32
    simp only [MAXFILE, NDIRECT, NINDIRECT, BSIZE] at hmax
    omega
  have hfn := hf.lt
  simp only [writei, wp_bind, wp_get, wp_ite, wp_pure, wp_modify, hwrap]
  refine ⟨fun hc => by omega, fun _ => ⟨fun hc => by omega, fun _ => ?_⟩⟩
  refine wp_post (wp_writeLoop_fault (h.work hl hv) n 0 off (by omega) hf (by omega) hroom) ?_
  rintro ⟨tot, off'⟩ gs ⟨hreached, hend, hnew⟩
  rw [setD_size]
  simp only [iupdate, wp_modify]
  refine ⟨tot, rfl, hreached ▸ hend, fun j hjf hblk => ?_⟩
  have hsame : ∀ i k, content gs.data ((gs.setD s { (gs.itable s).d with
      size := max (gs.itable s).d.size off' }).cur s) i k = content gs.data (gs.cur s) i k :=
    setD_content rfl rfl
  rw [hnew j (Nat.zero_le j) hjf hblk, Nat.sub_zero, ← hsame]
  simp [Fs.cur, Fs.logs, Fs.setDinode, Fs.setD, Fs.setInode]

end

/-- A torn block is none that an allocated inode shows, except for the bytes before the tear. -/
theorem Short.restart_file {k : Nat} (hs : Short s fs k gs) (hg : WellFormed gs) (hl : gs.live s)
    (hv : (gs.itable s).valid = true) {disk : Nat → Block}
    (hdisk : ∀ b, b ∉ fs.logged → disk b = fs.data b)
    (hsize : (gs.itable s).d.size ≤ max (fs.itable s).d.size k) {i : Nat}
    (hty : (gs.dinode i).type ≠ none) : (gs.restart disk).file i = gs.file i := by
  have hw := hg.work hl hv
  have hcur := hg.cur_eq hl hv
  -- outside the log a block is either as on disk, or torn and a block of `s`
  have hblock : ∀ b, (gs.restart disk).data b = gs.data b ∨
      ∃ p, posOf (k / BSIZE) = some p ∧ b = refs gs.data gs.dinode ((gs.itable s).inum, p) ∧
        b ≠ 0 ∧ ∀ j, j < k % BSIZE ∨ k / BSIZE * BSIZE + j < (fs.itable s).d.size →
          ((gs.restart disk).data b).byte j = (gs.data b).byte j := by
    intro b
    by_cases hb : b ∈ gs.logged
    · exact .inl (if_pos hb)
    · have hdata : (gs.restart disk).data b = fs.data b := by
        refine (if_neg hb).trans (hdisk b fun hbf => hb (hs.mono b hbf))
      rw [hdata]
      obtain he | ⟨h0, ⟨p, hp, hbp⟩, hbytes⟩ := hs.clean b hb
      · exact .inl he.symm
      · refine .inr ⟨p, hp, ?_, h0, fun j hj => (hbytes j hj).symm⟩
        rw [hbp, ← hcur, refs_self hw.typed]
  have hrefs : ∀ q, refs (gs.restart disk).data gs.dinode (i, q) = refs gs.data gs.dinode (i, q) := by
    intro q
    refine refs_congr q rfl fun _ => ?_
    obtain he | ⟨p, hp, hb, h0, -⟩ := hblock ((gs.dinode i).addrs INDIRECT)
    · exact he
    · have hind : refs gs.data gs.dinode (i, .addr INDIRECT) = (gs.dinode i).addrs INDIRECT := by
        simp only [refs, hty, if_false, blockAt]
      have hq := hg.exact.inj (i, .addr INDIRECT) ((gs.itable s).inum, p) (by rw [hind]; exact h0)
        (by rw [hind, hb])
      exact absurd (congrArg Prod.snd hq).symm (posOf_ne_indirect hp)
  refine List.map_congr_left fun j hj => ?_
  rw [Nat.zero_add]
  have hj : j < (gs.dinode i).size := List.mem_range.mp hj
  obtain ⟨q, hq, hqne⟩ := (hg.full i hty).present hj
  rw [content_eq hq, content_eq hq]
  change ((gs.restart disk).data (refs (gs.restart disk).data gs.dinode (i, q))).byte _ = _
  rw [hrefs]
  obtain he | ⟨p, hp, hb, -, hbytes⟩ := hblock (refs gs.data gs.dinode (i, q))
  · rw [he]
  · have hq' := hg.exact.inj (i, q) ((gs.itable s).inum, p) hqne hb
    obtain ⟨rfl, rfl⟩ := Prod.mk.inj hq'
    have hdiv : j / BSIZE = k / BSIZE := posOf_inj hq hp
    rw [← (hg.table.cached s hl hv).1] at hj
    refine hbytes _ ?_
    unfold BSIZE at *
    omega

end Short

/-- What `writei` leaves is what it reports, the old contents with the bytes written, in the cache
and after a restart, exactly if the write is not torn where the file shows it. -/
theorem short_write_exact {fs : Fs} (h : WellFormed fs) {s : Fin NINODE} (hl : fs.live s)
    (hv : (fs.itable s).valid = true) (disk : Nat → Block)
    (hdisk : ∀ b, b ∉ fs.logged → disk b = fs.data b) (src : Nat → Option UInt8) (off n : UInt32) :
    wp (writei s src off.toNat n.toNat) (fun r gs => ∀ tot : Nat, r = tot →
      ∃ buf : List UInt8, buf.length = tot ∧ (∀ j, j < tot → src j = buf[j]?) ∧
        gs.file (fs.itable s).inum = overwrite (fs.file (fs.itable s).inum) off.toNat buf ∧
        (gs.restart disk).file (fs.itable s).inum = gs.file (fs.itable s).inum ∧
        (gs.itable s).d.size = max (fs.itable s).d.size (off.toNat + tot)) (fun _ _ => False) fs ↔
    Untorn fs s src off.toNat n.toNat := by
  have hwritten := wp_writei (E := fun _ _ => False) h hl hv src off.toNat _ n.toNat_lt
    (Q := fun r gs => ∀ tot : Nat, r = tot → WellFormed gs ∧ gs.live s ∧
      (gs.itable s).valid = true ∧ Written s src off.toNat n.toNat fs tot gs)
    (fun tot hc => by omega) ?_
  · constructor
    · intro hpost hoff hmax f hf hroom j hjf hblk x hx
      obtain ⟨r, gs, -, ⟨hall, hmade⟩, tot, rfl, hend, hnew⟩ | ⟨_, _, _, he⟩ := wp_cases (wp_and
        (wp_and hpost hwritten) (wp_writei_fault (E := fun _ _ => False) h hl hv hoff hmax hf hroom))
      · obtain ⟨buf, rfl, -, hfile, -⟩ := hall tot rfl
        obtain ⟨hg, hgl, hgv, hw⟩ := hmade _ rfl
        have hgi : (gs.itable s).inum = (fs.itable s).inum := by rw [hw.entry]
        have hold := file_getElem?_cur h hl hv (off.toNat + j)
        have hseen := file_getElem?_cur hg hgl hgv (off.toNat + j)
        rw [hgi, hfile, overwrite_getElem? _ _ (by
          rw [file_length, ← (h.table.cached s hl hv).1]; exact hoff), if_neg (by
          unfold BSIZE at *; omega), hold, ← hnew j hjf hblk] at hseen
        rw [hold] at hx
        by_cases hlt : off.toNat + j < (fs.itable s).d.size
        · rw [if_pos hlt] at hx hseen
          rw [if_pos (by rw [hw.entry]; exact lt_max_of_lt_left hlt)] at hseen
          exact hseen.symm.trans hx
        · rw [if_neg hlt] at hx
          cases hx
      · exact he.2.elim
    · intro ha
      refine wp_mono (wp_and (wp_writei_short (E := fun _ _ => False) h hl hv n.toNat_lt ha)
        hwritten) ?_ fun _ _ he => he.1
      rintro r gs ⟨hshort, hmade⟩ tot rfl
      obtain ⟨hoff, hs⟩ := hshort tot rfl
      obtain ⟨hg, hgl, hgv, hw⟩ := hmade tot rfl
      have hgi : (gs.itable s).inum = (fs.itable s).inum := by rw [hw.entry]
      have hsize : (gs.itable s).d.size = max (fs.itable s).d.size (off.toNat + tot) := by
        rw [hw.entry]
      obtain ⟨buf, hbuf⟩ : ∃ buf, buf = bytes gs.data gs.dinode (fs.itable s).inum off.toNat tot :=
        ⟨_, rfl⟩
      obtain rfl : buf.length = tot := by rw [hbuf, bytes_length]
      have hsrc : ∀ j, j < buf.length → src j = buf[j]? := by
        intro j hj
        have hnew := hw.new (off.toNat + j) (by omega) (by omega)
        rw [Nat.add_sub_cancel_left] at hnew
        rw [hnew, hbuf]
        simp [bytes, hj]
      have hty : (gs.dinode (fs.itable s).inum).type ≠ none := by
        rw [← hgi, ← (hg.table.cached s hgl hgv).1]
        exact (hg.table.cached s hgl hgv).2
      refine ⟨buf, rfl, hsrc, hw.file h hg hl hv hsrc hoff ?_,
        hs.restart_file hg hgl hgv hdisk (by rw [hsize]) hty, hsize⟩
      intro k hlo hk
      have hrest := hs.rest k hlo hk
      rwa [hg.cur_eq hgl hgv, h.cur_eq hl hv] at hrest
  · intro tot gs hg hw tot' hr
    obtain rfl : tot = tot' := Int.ofNat_inj.mp hr
    have hent := hw.entry
    refine ⟨hg, ?_, by rw [hent]; exact hv, hw⟩
    unfold Fs.live
    rw [hent]
    exact hl

section
attribute [local irreducible] Run.exec

/-- Two bytes behind the two of the file, the second of which cannot be read. -/
theorem short_write_exact_small : ∃ fs, Run.exec step blankFs smallFile = some fs ∧
    Untorn fs 0 (fun j => if j = 0 then some 9 else none) 2 2 ∧
    wp (writei 0 (fun j => if j = 0 then some 9 else none) 2 2) (fun r gs => ∀ tot : Nat, r = tot →
      ∃ buf, buf.length = tot ∧ gs.file 1 = overwrite [7, 7] 2 buf ∧
        (gs.restart fs.data).file 1 = gs.file 1) (fun _ _ => False) fs := by
  obtain ⟨fs, hfs, hwf, hl, hv, hi, hfile, -⟩ := smallFile_run
  have ha : Untorn fs 0 (fun j => if j = 0 then some 9 else none) 2 2 := by
    intro _ _ f _ _ j _ _ x hx
    rw [hi, hfile, List.getElem?_eq_none (by simp)] at hx
    cases hx
  refine ⟨fs, hfs, ha, wp_post ((short_write_exact hwf hl hv fs.data (fun _ _ => rfl) _ 2 2).mpr ha) ?_⟩
  intro r gs hr tot htot
  obtain ⟨buf, hlen, -, hnew, hrestart, -⟩ := hr tot htot
  rw [hi] at hnew hrestart
  rw [hfile] at hnew
  exact ⟨buf, hlen, hnew, hrestart⟩

/-- Two bytes over the two of the file, the second of which cannot be read: the call reports
that nothing was written, and the first byte has changed in the cache. -/
theorem short_write_torn : ∃ fs gs, WellFormed fs ∧ fs.held 0 ∧ (fs.itable 0).inum = 1 ∧
    fs.file 1 = [7, 7] ∧ writei 0 (fun j => if j = 0 then some 9 else none) 0 2 fs = (.ok 0, gs) ∧
    gs.file 1 = [9, 7] ∧ (gs.restart fs.data).file 1 = [7, 7] := by
  have hal : Run.Along step Allowed blankFs smallFile := by decide +kernel
  -- the write of the file itself has been committed
  have hrun : (Run.exec step blankFs smallFile).map (fun fs => decide (fs.held 0 ∧
      (fs.itable 0).inum = 1 ∧ fs.file 1 = [7, 7] ∧
      (writei 0 (fun j => if j = 0 then some 9 else none) 0 2
        { fs with logged := [] }).1.toOption = some 0 ∧
      (writei 0 (fun j => if j = 0 then some 9 else none) 0 2
        { fs with logged := [] }).2.file 1 = [9, 7] ∧
      ((writei 0 (fun j => if j = 0 then some 9 else none) 0 2
        { fs with logged := [] }).2.restart fs.data).file 1 = [7, 7])) = some true := by
    decide +kernel
  obtain ⟨fs, hfs, hd⟩ := Option.map_eq_some_iff.mp hrun
  obtain ⟨hheld, hi, hfile, hret, hcache, hrestart⟩ := of_decide_eq_true hd
  have hwf := blankFs_wellFormed.run hal hfs
  exact ⟨{ fs with logged := [] }, _, ⟨hwf.sb, hwf.exact, hwf.full, hwf.table.uniq,
    hwf.table.cached⟩, hheld, hi, hfile, Prod.ext (toOption_eq_some hret) rfl, hcache, hrestart⟩

end

end Xv6Audit.FileSys
