import Xv6Audit.Fs.Exact

/-! Contents of inodes: what `readi` returns and what `writei` changes. -/
namespace Xv6Audit.FileSys

open Prog Disk

def content (data : Nat → Block) (D : Nat → Dinode) (i k : Nat) : UInt8 :=
  match posOf (k / BSIZE) with
  | some p => (data (refs data D (i, p))).byte (k % BSIZE)
  | none => 0

def Present (data : Nat → Block) (D : Nat → Dinode) (i k : Nat) : Prop :=
  ∃ p, posOf (k / BSIZE) = some p ∧ refs data D (i, p) ≠ 0

variable {D : Nat → Dinode} {data : Nat → Block} {i k m : Nat} {p : Pos}

theorem Covers.present (h : Covers data D i m) (hk : k < m) : Present data D i k :=
  h _ (Nat.lt_of_le_of_lt (Nat.div_mul_le_self k BSIZE) hk)

theorem posOf_inj {a b : Nat} (ha : posOf a = some p) (hb : posOf b = some p) : a = b := by
  unfold posOf at ha hb
  have hdirect : ∀ (c : Nat) (h : c < NDIRECT), (directIdx c h).val = c := fun _ _ => rfl
  split at ha <;> split at hb
  · rename_i h1 h2
    obtain rfl := Option.some.inj ha
    have he := congrArg Fin.val (Pos.addr.inj (Option.some.inj hb))
    rw [hdirect, hdirect] at he
    exact he.symm
  · split at hb
    · obtain rfl := Option.some.inj ha
      cases Option.some.inj hb
    · cases hb
  · split at ha
    · obtain rfl := Option.some.inj ha
      cases Option.some.inj hb
    · cases ha
  · split at ha
    · split at hb
      · obtain rfl := Option.some.inj ha
        have he : b - NDIRECT = a - NDIRECT := congrArg Fin.val (Pos.entry.inj (Option.some.inj hb))
        omega
      · cases hb
    · cases ha

theorem content_eq (hp : posOf (k / BSIZE) = some p) :
    content data D i k = (data (refs data D (i, p))).byte (k % BSIZE) := by
  simp only [content, hp]

section Content
variable {s : Fin NINODE} {fs gs : Fs} {E : String → Fs → Prop}

theorem Grows.content (hgrow : Grows s fs gs) (h : Work fs s) (hg : Work gs s)
    (hk : Present fs.data (fs.cur s) i k) :
    content gs.data (gs.cur s) i k = content fs.data (fs.cur s) i k := by
  obtain ⟨p, hp, hne⟩ := hk
  have href := hgrow.refs _ hne
  rw [content_eq hp, content_eq hp, href]
  congr 1
  refine hgrow.keep _ hne (h.exact.used_ref hne) ?_
  intro he
  have hself := refs_self hg.typed gs.data (.addr INDIRECT)
  have hq := hg.exact.inj (i, p) ((gs.itable s).inum, .addr INDIRECT) (by rw [href]; exact hne)
    (by rw [href, hself, he]; rfl)
  exact posOf_ne_indirect hp (congrArg Prod.snd hq)

theorem Extends.present (hext : Extends s fs gs) (hk : Present fs.data (fs.cur s) i k) :
    Present gs.data (gs.cur s) i k := by
  obtain ⟨p, hp, hne⟩ := hk
  exact ⟨p, hp, by rw [hext.refs _ hne]; exact hne⟩

theorem setData_content (h : Work fs s) {bn : Nat} (hp : posOf bn = some p)
    (hne : blockAt fs.data (fs.itable s).d p ≠ 0) (v : Block) (hk : Present fs.data (fs.cur s) i k) :
    content (fs.setData (blockAt fs.data (fs.itable s).d p) v).data (fs.cur s) i k =
      if i = (fs.itable s).inum ∧ k / BSIZE = bn then v.byte (k % BSIZE)
      else content fs.data (fs.cur s) i k := by
  have hself := refs_self h.typed fs.data p
  have hrefs := setData_refs h (posOf_ne_indirect hp) hne v
  obtain ⟨q, hq, hqne⟩ := hk
  rw [content_eq hq, content_eq hq, hrefs]
  by_cases hc : i = (fs.itable s).inum ∧ k / BSIZE = bn
  · obtain ⟨rfl, rfl⟩ := hc
    obtain rfl := Option.some.inj (hp.symm.trans hq)
    rw [if_pos ⟨rfl, rfl⟩, hself]
    simp [Fs.setData]
  · rw [if_neg hc]
    congr 1
    refine Function.update_of_ne ?_ _ _
    intro he
    have hinj := h.exact.inj (i, q) ((fs.itable s).inum, p) hqne (by rw [he, hself])
    obtain ⟨hi, hpq⟩ := Prod.mk.inj hinj
    exact hc ⟨hi, posOf_inj hq (hpq ▸ hp)⟩

/-! Reading. -/

def bytes (data : Nat → Block) (D : Nat → Dinode) (i off n : Nat) : List UInt8 :=
  (List.range n).map fun j => content data D i (off + j)

theorem bytes_add (data : Nat → Block) (D : Nat → Dinode) (i off m n : Nat) :
    bytes data D i off (m + n) = bytes data D i off m ++ bytes data D i (off + m) n := by
  simp only [bytes, List.range_add, List.map_append, List.map_map]
  congr 1
  refine List.map_congr_left fun j _ => ?_
  rw [Function.comp, Nat.add_assoc]

variable {off n tot : Nat}

theorem slice_eq_bytes (hp : posOf (off / BSIZE) = some p) (hm : m ≤ BSIZE - off % BSIZE) :
    slice (data (refs data D (i, p))) (off % BSIZE) m = bytes data D i off m := by
  refine List.map_congr_left fun j hj => ?_
  have hjm : j < m := List.mem_range.mp hj
  have hdiv : (off + j) / BSIZE = off / BSIZE := by
    unfold BSIZE at *
    omega
  have hmod : (off + j) % BSIZE = off % BSIZE + j := by
    unfold BSIZE at *
    omega
  rw [content_eq (hdiv ▸ hp), hmod]

/-- The loop of `readi` leaves the file system as it is, since there is no hole below the
size; with a good destination it copies everything. -/
theorem wp_readLoop (h : Work fs s)
    (hc : Covers fs.data (fs.cur s) (fs.itable s).inum (fs.itable s).d.size) (ok : Nat → Bool)
    (fuel tot off : Nat) (acc : List UInt8) (hoff : off + (n - tot) ≤ (fs.itable s).d.size)
    (hfuel : n ≤ tot + fuel) (htot : tot ≤ n) {Q : Int × List UInt8 → Fs → Prop}
    (hQ : ∀ r, ((∀ t, t < n → ok t = true) → r = ((n : Int), acc ++ bytes fs.data (fs.cur s)
      (fs.itable s).inum off (n - tot))) → Q r fs) :
    wp (readLoop s ok n fuel tot off acc) Q E fs := by
  induction fuel generalizing tot off acc with
  | zero =>
    refine hQ _ fun _ => ?_
    obtain rfl : tot = n := by omega
    simp [bytes]
  | succ fuel ih =>
    simp only [readLoop, wp_ite, wp_bind, wp_pure, wp_get]
    refine ⟨fun hlt => ?_, fun hge => hQ _ fun _ => ?_⟩
    · have hk : off / BSIZE * BSIZE < (fs.itable s).d.size :=
        Nat.lt_of_le_of_lt (Nat.div_mul_le_self off BSIZE) (by omega)
      obtain ⟨p, hp, hne⟩ := hc _ hk
      have hblk : blockAt fs.data (fs.itable s).d p ≠ 0 := by rwa [refs_self h.typed] at hne
      refine wp_bmap_present h hp hne ⟨fun h0 => absurd h0 hblk, fun _ => ⟨fun _ => ?_, ?_⟩⟩
      · have hm1 : min (n - tot) (BSIZE - off % BSIZE) ≤ n - tot := Nat.min_le_left _ _
        have hm2 : min (n - tot) (BSIZE - off % BSIZE) ≤ BSIZE - off % BSIZE := Nat.min_le_right _ _
        have hm0 : 0 < min (n - tot) (BSIZE - off % BSIZE) := by
          have : off % BSIZE < BSIZE := Nat.mod_lt _ (by decide)
          omega
        obtain ⟨m, hm⟩ : ∃ m, m = min (n - tot) (BSIZE - off % BSIZE) := ⟨_, rfl⟩
        rw [← hm] at hm0 hm1 hm2 ⊢
        refine ih _ _ _ (by omega) (by omega) (by omega) fun r hr => hQ r fun hok => ?_
        have hsplit : n - tot = m + (n - (tot + m)) := by omega
        have hslice : slice (fs.data (refs fs.data (fs.cur s) ((fs.itable s).inum, p)))
            (off % BSIZE) m = bytes fs.data (fs.cur s) (fs.itable s).inum off m :=
          slice_eq_bytes hp hm2
        rw [refs_self h.typed] at hslice
        rw [hr hok, hsplit, bytes_add, hslice, List.append_assoc]
      · intro hbad
        exact hQ _ fun hok => absurd (hok tot hlt) hbad
    · obtain rfl : tot = n := by omega
      simp [bytes]

theorem wp_readi (h : Work fs s) (hc : Covers fs.data (fs.cur s) (fs.itable s).inum
    (fs.itable s).d.size) (ok : Nat → Bool) (off n : Nat) {Q : Int × List UInt8 → Fs → Prop}
    (hQ : ∀ r : Int × List UInt8, ((∀ t, t < n → ok t = true) → off ≤ (fs.itable s).d.size →
      off + n < U32 → r = (((min n ((fs.itable s).d.size - off) : Nat) : Int),
        bytes fs.data (fs.cur s) (fs.itable s).inum off (min n ((fs.itable s).d.size - off)))) →
      Q r fs) :
    wp (readi s ok off n) Q E fs := by
  simp only [readi, wp_bind, wp_get, wp_ite, wp_pure]
  refine ⟨fun hout => hQ _ fun _ hle hn => ?_, fun hin => ?_⟩
  · rw [Nat.mod_eq_of_lt hn] at hout
    omega
  · have hmin : (if (fs.itable s).d.size < off + n then (fs.itable s).d.size - off else n) =
        min n ((fs.itable s).d.size - off) := by
      split <;> omega
    rw [hmin]
    refine wp_readLoop h hc ok _ _ _ _ (by omega) (by omega) (by omega) fun r hr =>
      hQ r fun hok _ _ => ?_
    rw [hr fun t ht => hok t (by omega)]
    simp

/-! Writing. -/

theorem copyin_outside (src : Nat → Option UInt8) (blk : Block) (o tot m j : Nat)
    (hm : o + m ≤ BSIZE) (hj : j < o ∨ o + m ≤ j) :
    (copyin src blk o tot m).1.byte j = blk.byte j := by
  induction m generalizing blk o tot with
  | zero => rfl
  | succ m ih =>
    rw [copyin]
    cases src tot with
    | none => rfl
    | some b =>
      rw [ih (blk.setByte o b) (o+1) (tot+1) (by omega) (by omega),
        Block.byte_setByte _ _ _ _ (by omega), if_neg (by omega)]

theorem copyin_inside (src : Nat → Option UInt8) (blk : Block) (o tot m j : Nat)
    (hm : o + m ≤ BSIZE) (hok : (copyin src blk o tot m).2 = true) (ho : o ≤ j) (hj : j < o + m) :
    src (tot + (j - o)) = some ((copyin src blk o tot m).1.byte j) := by
  induction m generalizing blk o tot with
  | zero => omega
  | succ m ih =>
    rw [copyin] at hok ⊢
    cases hs : src tot with
    | none => simp [hs] at hok
    | some b =>
      simp only [hs] at hok
      by_cases he : j = o
      · subst j
        rw [copyin_outside src _ _ _ _ _ (by omega) (.inl (Nat.lt_succ_self o)),
          Block.byte_setByte _ _ _ _ (by omega), if_pos rfl, Nat.sub_self, Nat.add_zero, hs]
      · have hih := ih (blk.setByte o b) (o+1) (tot+1) (by omega) hok (by omega) (by omega)
        rw [← hih]
        congr 1
        omega

theorem copyin_ok (src : Nat → Option UInt8) (blk : Block) (o tot m : Nat)
    (hsrc : ∀ j, tot ≤ j → j < tot + m → src j ≠ none) : (copyin src blk o tot m).2 = true := by
  induction m generalizing blk o tot with
  | zero => rfl
  | succ m ih =>
    rw [copyin]
    cases hs : src tot with
    | none => exact absurd hs (hsrc tot (Nat.le_refl _) (by omega))
    | some b => exact ih _ _ _ fun j h1 h2 => hsrc j (by omega) (by omega)

/-- What the loop of `writei` has done when it ends at `r`: the bytes from `off` up to `r.2`
are the source's, and of the rest of the range it may have touched those behind `r.2` only. -/
structure Wrote (s : Fin NINODE) (src : Nat → Option UInt8) (n tot off : Nat) (fs : Fs)
    (r : Nat × Nat) (gs : Fs) : Prop where
  work : Work gs s
  ext : Extends s fs gs
  cov : Covers gs.data (gs.cur s) (gs.itable s).inum (max (gs.itable s).d.size r.2)
  le : tot ≤ r.1 ∧ r.1 ≤ n
  reached : r.2 + tot = off + r.1
  whole : n - tot ≤ BSIZE - off % BSIZE → r.1 = tot ∨ r.1 = n
  done : (∀ j, tot ≤ j → j < n → src j ≠ none) → (∀ k, off ≤ k → k < off + (n - tot) →
    Present fs.data (fs.cur s) (fs.itable s).inum k) → r.1 = n
  new : ∀ k, off ≤ k → k < r.2 →
    src (tot + (k - off)) = some (content gs.data (gs.cur s) (gs.itable s).inum k)
  old : ∀ i k, Present fs.data (fs.cur s) i k →
    (i = (fs.itable s).inum → k < off ∨ off + (n - tot) ≤ k) →
    content gs.data (gs.cur s) i k = content fs.data (fs.cur s) i k

theorem Work.setData_extends (h : Work fs s) (hp : p ≠ .addr INDIRECT)
    (hne : blockAt fs.data (fs.itable s).d p ≠ 0) (v : Block) :
    Extends s fs (fs.setData (blockAt fs.data (fs.itable s).d p) v) := by
  refine ⟨rfl, rfl, fun _ _ => rfl, rfl, fun q _ => ?_⟩
  exact congrFun (setData_refs h hp hne v) q

theorem covers_step (h : Work gs s) {size : Nat}
    (hc : Covers gs.data (gs.cur s) (gs.itable s).inum (max size off))
    (hp : posOf (off / BSIZE) = some p) (hne : blockAt gs.data (gs.itable s).d p ≠ 0) (m : Nat)
    (hm : m ≤ BSIZE - off % BSIZE) :
    Covers gs.data (gs.cur s) (gs.itable s).inum (max size (off + m)) := by
  intro k hk
  by_cases hold : k * BSIZE < max size off
  · exact hc k hold
  · have hk' : k = off / BSIZE := by
      unfold BSIZE at *
      omega
    subst k
    exact ⟨p, hp, by rw [refs_self h.typed]; exact hne⟩

theorem block_written (h : Work fs s) (src : Nat → Option UInt8) (hp : posOf (off / BSIZE) = some p)
    (hne : blockAt fs.data (fs.itable s).d p ≠ 0) (hm : m ≤ BSIZE - off % BSIZE) {c : Block × Bool}
    (hc : c = copyin src (fs.data (blockAt fs.data (fs.itable s).d p)) (off % BSIZE) tot m)
    (ks : Fs) (hks : ks = fs.setData (blockAt fs.data (fs.itable s).d p) c.1) :
    (∀ i k, Present fs.data (fs.cur s) i k →
      (i = (fs.itable s).inum → k < off ∨ off + m ≤ k) →
      content ks.data (ks.cur s) i k = content fs.data (fs.cur s) i k) ∧
    (c.2 = true → ∀ k, off ≤ k → k < off + m →
      src (tot + (k - off)) = some (content ks.data (ks.cur s) (fs.itable s).inum k)) := by
  have hcur : ks.cur s = fs.cur s := by rw [hks]; rfl
  have hmod : off % BSIZE + m ≤ BSIZE := by
    have : off % BSIZE < BSIZE := Nat.mod_lt _ (by decide)
    omega
  refine ⟨fun i k hk hout => ?_, fun hok k hlo hhi => ?_⟩
  · rw [hcur, hks, setData_content h hp hne c.1 hk]
    split
    · rename_i hik
      have hsame : (fs.data (blockAt fs.data (fs.itable s).d p)).byte (k % BSIZE) =
          content fs.data (fs.cur s) i k := by
        rw [content_eq (hik.2 ▸ hp), hik.1, refs_self h.typed]
      rw [hc, copyin_outside _ _ _ _ _ _ hmod, hsame]
      have := hout hik.1
      have hdiv := hik.2
      unfold BSIZE at *
      omega
    · rfl
  · have hdiv : k / BSIZE = off / BSIZE := by
      unfold BSIZE at *
      omega
    have hkmod : k % BSIZE = off % BSIZE + (k - off) := by
      unfold BSIZE at *
      omega
    have hpres : Present fs.data (fs.cur s) (fs.itable s).inum k :=
      ⟨p, hdiv ▸ hp, by rw [refs_self h.typed]; exact hne⟩
    rw [hcur, hks, setData_content h hp hne c.1 hpres, if_pos ⟨rfl, hdiv⟩, hc]
    rw [hc] at hok
    have hin := copyin_inside src _ _ tot m (k % BSIZE) hmod hok (by omega) (by omega)
    rw [← hin]
    congr 1
    omega

theorem Wrote.stop (hg : Work gs s) (hext : Extends s fs gs) (src : Nat → Option UInt8)
    (htot : tot ≤ n)
    (hc : Covers gs.data (gs.cur s) (gs.itable s).inum (max (gs.itable s).d.size off))
    (hdone : tot < n → (∀ j, tot ≤ j → j < n → src j ≠ none) →
      ¬ ∀ k, off ≤ k → k < off + (n - tot) → Present fs.data (fs.cur s) (fs.itable s).inum k)
    (hold : ∀ i k, Present fs.data (fs.cur s) i k →
      (i = (fs.itable s).inum → k < off ∨ off + (n - tot) ≤ k) →
      content gs.data (gs.cur s) i k = content fs.data (fs.cur s) i k) :
    Wrote s src n tot off fs (tot, off) gs where
  work := hg
  ext := hext
  cov := hc
  le := ⟨Nat.le_refl _, htot⟩
  reached := rfl
  whole := fun _ => .inl rfl
  done := fun hsrc hpres => by
    by_contra hne
    exact hdone (by omega) hsrc hpres
  new := fun _ h1 h2 => absurd h2 (Nat.not_lt.mpr h1)
  old := hold

theorem Wrote.logs {src : Nat → Option UInt8} {r : Nat × Nat} {b : Nat}
    (h : Wrote s src n tot off (fs.logs b) r gs) : Wrote s src n tot off fs r gs :=
  ⟨h.work, ((Extends.refl s fs).logs b).trans h.ext, h.cov, h.le, h.reached, h.whole, h.done,
    h.new, h.old⟩

theorem Wrote.step {src : Nat → Option UInt8} {ks ls : Fs} {r : Nat × Nat} (h : Work fs s)
    (hg : Work gs s) (hgrow : Grows s fs gs) (hp : posOf (off / BSIZE) = some p)
    (hne : blockAt gs.data (gs.itable s).d p ≠ 0) (hm : m = min (n - tot) (BSIZE - off % BSIZE))
    (htot : tot < n) {c : Block × Bool}
    (hc : c = copyin src (gs.data (blockAt gs.data (gs.itable s).d p)) (off % BSIZE) tot m)
    (hok : c.2 = true) (hks : ks = gs.setData (blockAt gs.data (gs.itable s).d p) c.1)
    (hr : Wrote s src n (tot + m) (off + m) ks r ls) : Wrote s src n tot off fs r ls := by
  have hx : Extends s gs ks := hks ▸ hg.setData_extends (posOf_ne_indirect hp) hne c.1
  obtain ⟨hkeep, hin⟩ := block_written hg src hp hne (by omega) hc ks hks
  have hinum : (ks.itable s).inum = (fs.itable s).inum := by rw [hx.inum, hgrow.inum]
  refine ⟨hr.work, hgrow.toExtends.trans (hx.trans hr.ext), hr.cov, ?_, ?_, ?_, ?_, ?_, ?_⟩
  · have := hr.le
    omega
  · have := hr.reached
    omega
  · intro hfit
    have hmn : m = n - tot := by omega
    have := hr.whole (by omega)
    omega
  · intro hsrc hpres
    refine hr.done (fun j hj => hsrc j (by omega)) fun k hlo hhi => ?_
    rw [hinum]
    exact hx.present (hgrow.toExtends.present (hpres k (by omega) (by omega)))
  · intro k hlo hhi
    by_cases hkm : k < off + m
    · rw [hin hok k hlo hkm, hr.ext.inum, hr.old _ _ ?_ fun _ => .inl hkm, hx.inum]
      rw [hx.inum]
      refine hx.present ⟨p, ?_, by rw [refs_self hg.typed]; exact hne⟩
      have hdiv : k / BSIZE = off / BSIZE := by
        unfold BSIZE at *
        omega
      rw [hdiv]
      exact hp
    · rw [← hr.new k (by omega) hhi]
      congr 1
      omega
  · intro i k hk hout
    rw [hr.old i k (hx.present (hgrow.toExtends.present hk)) ?_,
      hkeep i k (hgrow.toExtends.present hk) ?_, hgrow.content h hg hk]
    · intro hi
      have := hout (hi.trans hgrow.inum)
      omega
    · intro hi
      have := hout (hi.trans hinum)
      omega

theorem wp_writeLoop (h : Work fs s) (src : Nat → Option UInt8) (fuel tot off : Nat)
    (hbound : off + (n - tot) ≤ MAXFILE * BSIZE) (htot : tot ≤ n) (hfuel : n ≤ tot + fuel)
    (hc : Covers fs.data (fs.cur s) (fs.itable s).inum (max (fs.itable s).d.size off))
    {Q : Nat × Nat → Fs → Prop} (hQ : ∀ r gs, Wrote s src n tot off fs r gs → Q r gs) :
    wp (writeLoop s src n fuel tot off) Q E fs := by
  induction fuel generalizing fs tot off with
  | zero =>
    exact hQ _ fs (Wrote.stop h (Extends.refl s fs) src htot hc (by omega) fun _ _ _ _ => rfl)
  | succ fuel ih =>
    simp only [writeLoop, wp_ite, wp_bind, wp_pure, wp_get, wp_set, wp_modify]
    refine ⟨fun hlt => ?_, fun hge => hQ _ fs
      (Wrote.stop h (Extends.refl s fs) src htot hc (fun hlt => absurd hlt hge) fun _ _ _ _ => rfl)⟩
    have hbn : off / BSIZE < MAXFILE := by
      refine Nat.div_lt_of_lt_mul ?_
      rw [Nat.mul_comm]
      omega
    obtain ⟨p, hp⟩ := posOf_isSome hbn
    have hcov : ∀ gs, Extends s fs gs →
        Covers gs.data (gs.cur s) (gs.itable s).inum (max (gs.itable s).d.size off) := by
      intro gs hext
      rw [hext.inum, hext.size]
      exact hext.covers hc
    obtain ⟨m, hm⟩ : ∃ m, m = min (n - tot) (BSIZE - off % BSIZE) := ⟨_, rfl⟩
    have hm0 : 0 < m := by
      have : off % BSIZE < BSIZE := Nat.mod_lt _ (by decide)
      omega
    rw [← hm]
    have hround : ∀ gs, Work gs s → Grows s fs gs → blockAt gs.data (gs.itable s).d p ≠ 0 →
        ∀ c, c = copyin src (gs.data (blockAt gs.data (gs.itable s).d p)) (off % BSIZE) tot m →
        ∀ ks, ks = gs.setData (blockAt gs.data (gs.itable s).d p) c.1 →
        (c.2 = true → wp (writeLoop s src n fuel (tot + m) (off + m)) Q E
          (ks.logs (blockAt gs.data (gs.itable s).d p))) ∧ (¬ c.2 = true → Q (tot, off) ks) := by
      intro gs hg hgrow hne c hcopy ks hks
      have hpi := posOf_ne_indirect hp
      have hcg := hcov gs hgrow.toExtends
      have hw : Work ks s := hks ▸ hg.setData hpi hne c.1
      have hx : Extends s gs ks := hks ▸ hg.setData_extends hpi hne c.1
      refine ⟨fun hok => ?_, fun hbad => hQ _ ks ?_⟩
      · refine ih (hw.logs _) (tot + m) (off + m) (by omega) (by omega) (by omega) ?_ ?_
        · have hstep := hx.covers (covers_step hg hcg hp hne m (by omega))
          rw [← hx.inum, ← hx.size] at hstep
          exact hstep
        · intro r ls hr
          exact hQ r ls (Wrote.step h hg hgrow hp hne hm hlt hcopy hok hks hr.logs)
      · refine Wrote.stop hw (hgrow.toExtends.trans hx) src htot
          (hx.inum ▸ hx.size ▸ hx.covers hcg) ?_ ?_
        · intro _ hsrc _
          rw [hcopy] at hbad
          exact hbad (copyin_ok src _ _ _ _ fun j h1 h2 => hsrc j h1 (by omega))
        · intro i k hk hout
          obtain ⟨hkeep, -⟩ := block_written hg src hp hne (by omega) hcopy ks hks
          rw [hkeep i k (hgrow.toExtends.present hk) ?_, hgrow.content h hg hk]
          intro hi
          have := hout (hi.trans hgrow.inum)
          omega
    by_cases hthere : refs fs.data (fs.cur s) ((fs.itable s).inum, p) ≠ 0
    · have hne : blockAt fs.data (fs.itable s).d p ≠ 0 := by rwa [refs_self h.typed] at hthere
      exact wp_bmap_present h hp hthere ⟨fun h0 => absurd h0 hne,
        fun _ => hround fs h (Grows.refl s fs) hne _ rfl _ rfl⟩
    · refine wp_bmap h hp ?_ ?_
      · intro gs hg hgrow
        refine ⟨fun _ => hQ _ gs ?_, fun h0 => absurd rfl h0⟩
        refine Wrote.stop hg hgrow.toExtends src htot (hcov gs hgrow.toExtends) ?_
          fun i k hk _ => hgrow.content h hg hk
        intro _ _ hpres
        obtain ⟨q, hq, hqne⟩ := hpres off (Nat.le_refl _) (by omega)
        obtain rfl := Option.some.inj (hp.symm.trans hq)
        exact hthere hqne
      · exact fun gs hg hgrow hne => ⟨fun h0 => absurd h0 hne,
          fun _ => hround gs hg hgrow hne _ rfl _ rfl⟩

theorem setD_content {d : Dinode} (ht : d.type = (fs.itable s).d.type)
    (ha : d.addrs = (fs.itable s).d.addrs) (i k : Nat) :
    content fs.data ((fs.setD s d).cur s) i k = content fs.data (fs.cur s) i k := by
  unfold content
  rw [setD_refs ht ha]

theorem setD_size (fs : Fs) (s : Fin NINODE) (off : Nat) :
    (if (fs.itable s).d.size < off then fs.setD s { (fs.itable s).d with size := off } else fs) =
      fs.setD s { (fs.itable s).d with size := max (fs.itable s).d.size off } := by
  by_cases hlt : (fs.itable s).d.size < off
  · rw [if_pos hlt, Nat.max_eq_right (Nat.le_of_lt hlt)]
  · rw [if_neg hlt, Nat.max_eq_left (by omega)]
    simp [Fs.setD, Fs.setInode]

structure Written (s : Fin NINODE) (src : Nat → Option UInt8) (off n : Nat) (fs : Fs) (tot : Nat)
    (gs : Fs) : Prop where
  sb : gs.sb = fs.sb
  others : ∀ t, t ≠ s → gs.itable t = fs.itable t
  entry : gs.itable s = { fs.itable s with d := { (fs.itable s).d with
    size := max (fs.itable s).d.size (off + tot), addrs := (gs.itable s).d.addrs } }
  dinode : ∀ i, i ≠ (fs.itable s).inum → gs.dinode i = fs.dinode i
  le : tot ≤ n
  whole : n ≤ BSIZE - off % BSIZE → tot = 0 ∨ tot = n
  done : (∀ j, j < n → src j ≠ none) → off + n ≤ (fs.itable s).d.size → tot = n
  new : ∀ k, off ≤ k → k < off + tot →
    src (k - off) = some (content gs.data gs.dinode (fs.itable s).inum k)
  old : ∀ i k, (fs.dinode i).type ≠ none → k < (fs.dinode i).size →
    (i = (fs.itable s).inum → k < off ∨ off + n ≤ k) →
    content gs.data gs.dinode i k = content fs.data fs.dinode i k

theorem wp_writei (h : WellFormed fs) (hl : fs.live s) (hv : (fs.itable s).valid = true)
    (src : Nat → Option UInt8) (off n : Nat) (hn : n < U32) {Q : Int → Fs → Prop}
    (hbad : Q (-1) fs)
    (hQ : ∀ tot gs, WellFormed gs → Written s src off n fs tot gs → Q (tot : Nat) gs) :
    wp (writei s src off n) Q E fs := by
  have hw := h.work hl hv
  have hcur := h.cur_eq hl hv
  simp only [writei, wp_bind, wp_get, wp_ite, wp_pure, wp_modify]
  refine ⟨fun _ => hbad, fun hoff => ⟨fun _ => hbad, fun hmax => ?_⟩⟩
  have hle : off ≤ (fs.itable s).d.size := by omega
  -- the first test has excluded that `off + n` wraps
  have hsum : off + n ≤ MAXFILE * BSIZE := by
    unfold U32 at *
    omega
  have hcov : Covers fs.data (fs.cur s) (fs.itable s).inum (max (fs.itable s).d.size off) := by
    rw [Nat.max_eq_left hle]
    have hf := h.full (fs.itable s).inum
    rw [← hcur, cur_self] at hf
    exact hf hw.typed
  refine wp_writeLoop hw src n 0 off hsum (Nat.zero_le n) (by omega) hcov ?_
  intro r gs hr
  rw [setD_size]
  refine wp_setD_iupdate hr.work { (gs.itable s).d with size := max (gs.itable s).d.size r.2 }
    rfl rfl hr.cov ?_ ?_
  · intro i hi hty
    rw [hr.ext.dinode] at hty ⊢
    refine hr.ext.covers ?_
    rw [hcur]
    exact h.full i hty
  · intro ks hk hit hdin hdata hsb
    have hreached : r.2 = off + r.1 := by
      have := hr.reached
      omega
    have hcontent : ∀ i k, content ks.data ks.dinode i k = content gs.data (gs.cur s) i k := by
      intro i k
      rw [hdata, hdin]
      apply setD_content <;> rfl
    refine hQ r.1 ks hk ⟨hsb.trans hr.ext.sb, ?_, ?_, ?_, hr.le.2, ?_, ?_, ?_, ?_⟩
    · intro t ht
      rw [hit]
      exact (Function.update_of_ne ht _ _).trans (hr.ext.others t ht)
    · rw [hit, setD_itable, ← hreached, hr.ext.entry]
    · intro i hi
      have hi' : i ≠ (gs.itable s).inum := by rw [hr.ext.inum]; exact hi
      rw [hdin, setD_cur _ hi', cur_other hi', hr.ext.dinode]
    · exact fun hfit => hr.whole hfit
    · intro hsrc hin
      refine hr.done (fun j _ => hsrc j) fun k _ hk' => hcov.present ?_
      have : k < (fs.itable s).d.size := by omega
      omega
    · intro k hlo hhi
      have hnew := hr.new k hlo (by omega)
      rw [Nat.zero_add, hr.ext.inum] at hnew
      rw [hcontent, hnew]
    · intro i k hty hk' hout
      rw [hcontent, hr.old i k ?_ hout, hcur]
      rw [hcur]
      exact (h.full i hty).present hk'

end Content

end Xv6Audit.FileSys
