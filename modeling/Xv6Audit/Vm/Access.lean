import Xv6Audit.Vm.Map

/-! `walkaddr`, `copyout`, `copyin` and `copyinstr` of `kernel/vm.c`: how the kernel reaches the
memory of a process. -/
namespace Xv6Audit.Vm
open Function

open Prog Words

def walkaddr (pagetable : Nat) (va : UInt64) : VmProg UInt64 := do
  if MAXVA ≤ va then pure 0
  else
    match ← walk pagetable va false with
    | none => pure 0
    | some (t, i) =>
      let pte := (← get).pte t i
      if ¬ valid pte then pure 0
      else if ¬ user pte then pure 0
      else pure (pte2pa pte)

namespace Phys

def store (s : Phys) (g off : Nat) (bs : List UInt8) : Phys :=
  s.setPage g fun k => if off ≤ k ∧ k < off + bs.length then bs.getD (k - off) 0 else s.mem g k

def load (s : Phys) (g off n : Nat) : List UInt8 := (List.range n).map fun j => s.mem g (off + j)

end Phys

def copyoutLoop (pagetable : Nat) : Nat → UInt64 → List UInt8 → VmProg Int
  | 0, _, _ => pure 0
  | k+1, dstva, src => do
    if src = [] then pure 0
    else
      let va0 := pgRoundDown dstva
      let pa0 ← walkaddr pagetable va0
      if pa0 = 0 then pure (-1)
      else
        let off := (dstva - va0).toNat
        let n := min (PGSIZE - off) src.length
        modify (·.store (vpn pa0) off (src.take n))
        copyoutLoop pagetable k (va0 + UInt64.ofNat PGSIZE) (src.drop n)

def copyout (pagetable : Nat) (dstva : UInt64) (src : List UInt8) : VmProg Int :=
  copyoutLoop pagetable src.length dstva src

def copyinLoop (pagetable : Nat) : Nat → UInt64 → Nat → VmProg (Int × List UInt8)
  | 0, _, _ => pure (0, [])
  | k+1, srcva, len => do
    if len = 0 then pure (0, [])
    else
      let va0 := pgRoundDown srcva
      let pa0 ← walkaddr pagetable va0
      if pa0 = 0 then pure (-1, [])
      else
        let off := (srcva - va0).toNat
        let n := min (PGSIZE - off) len
        let bs := (← get).load (vpn pa0) off n
        let r ← copyinLoop pagetable k (va0 + UInt64.ofNat PGSIZE) (len - n)
        pure (r.1, bs ++ r.2)

def copyin (pagetable : Nat) (srcva len : UInt64) : VmProg (Int × List UInt8) :=
  copyinLoop pagetable len.toNat srcva len.toNat

def copyinstrPage (b : Page) : Nat → Nat → List UInt8 × Bool
  | 0, _ => ([], false)
  | n+1, p =>
    if b p = 0 then ([0], true)
    else ((b p :: (copyinstrPage b n (p + 1)).1), (copyinstrPage b n (p + 1)).2)

def copyinstrLoop (pagetable : Nat) : Nat → UInt64 → Nat → VmProg (Int × List UInt8)
  | 0, _, _ => pure (-1, [])
  | k+1, srcva, max => do
    if max = 0 then pure (-1, [])
    else
      let va0 := pgRoundDown srcva
      let pa0 ← walkaddr pagetable va0
      if pa0 = 0 then pure (-1, [])
      else
        let off := (srcva - va0).toNat
        let n := min (PGSIZE - off) max
        let got := copyinstrPage ((← get).mem (vpn pa0)) n off
        if got.2 then pure (0, got.1)
        else do
          let r ← copyinstrLoop pagetable k (va0 + UInt64.ofNat PGSIZE) (max - n)
          pure (r.1, got.1 ++ r.2)

def copyinstr (pagetable : Nat) (srcva max : UInt64) : VmProg (Int × List UInt8) :=
  copyinstrLoop pagetable max.toNat srcva max.toNat

/-! What a process sees. -/

namespace Phys

def frame (s : Phys) (pt v : Nat) : Option Nat :=
  if v < MAXPAGE ∧ valid (s.leaf pt v) ∧ user (s.leaf pt v) then some (pte2page (s.leaf pt v))
  else none

def byte (s : Phys) (pt a : Nat) : Option UInt8 :=
  (s.frame pt (a / PGSIZE)).map fun g => s.mem g (a % PGSIZE)

def bytes (s : Phys) (pt : Nat) : Nat → Nat → Option (List UInt8)
  | _, 0 => some []
  | a, n+1 => (s.byte pt a).bind fun b => (s.bytes pt (a + 1) n).map (b :: ·)

def cstr (s : Phys) (pt : Nat) : Nat → Nat → Option (List UInt8)
  | _, 0 => none
  | a, n+1 => (s.byte pt a).bind fun b =>
    if b = 0 then some [0] else (s.cstr pt (a + 1) n).map (b :: ·)

end Phys

/-- The pages of the process lie in pages of memory of their own: none in page 0, no two in the
same, and none in a table. -/
structure Apart (s : Phys) (pt : Nat) : Prop where
  nonzero : ∀ v, s.frame pt v ≠ some 0
  inj : ∀ {v v' g}, s.frame pt v = some g → s.frame pt v' = some g → v = v'
  tables : ∀ {v g}, s.frame pt v = some g → g ∉ s.tables pt

section Walkaddr
variable {s : Phys} {pt : Nat} {va : UInt64} {E : String → Phys → Prop}

theorem pte2pa_eq (pte : UInt64) : pte2pa pte = addr (pte2page pte) := by
  have h : (pte2pa pte).toNat = pte.toNat / 1024 * 4096 % 2 ^ 64 := by
    rw [pte2pa, UInt64.toNat_shiftLeft, UInt64.toNat_shiftRight]
    simp [Nat.shiftLeft_eq, Nat.shiftRight_eq_div_pow]
  rw [← UInt64.toNat_inj, addr, UInt64.toNat_ofNat', pte2page_eq, h, PGSIZE]
  omega

theorem frame_lt {v g : Nat} (h : s.frame pt v = some g) : v < MAXPAGE ∧ g < 2 ^ 52 := by
  unfold Phys.frame at h
  split at h
  · rename_i hv
    rw [← Option.some.inj h, pte2page_eq]
    exact ⟨hv.1, Nat.mod_lt _ (by decide)⟩
  · cases h

theorem wp_walkaddr {Q : UInt64 → Phys → Prop}
    (hnone : s.frame pt (vpn va) = none → Q 0 s)
    (hsome : ∀ g, s.frame pt (vpn va) = some g → Q (addr g) s) :
    wp (walkaddr pt va) Q E s := by
  by_cases hmax : vpn va < MAXPAGE
  · rw [walkaddr, if_neg (not_maxva_le hmax), wp_bind]
    refine wp_walk_read hmax ?_
    cases ht : s.tab pt 2 (vpn va / 512) with
    | none =>
      refine hnone ?_
      rw [Phys.frame, Phys.leaf, ht]
      exact if_neg fun h => not_valid_zero h.2.1
    | some t =>
      have hleaf := leaf_of_tab ht
      simp only [Option.map_some, wp_bind, wp_get, wp_ite, wp_pure, ← hleaf]
      refine ⟨fun hv => hnone (if_neg fun h => hv h.2.1), fun hv => ⟨fun hu => ?_, fun hu => ?_⟩⟩
      · exact hnone (if_neg fun h => hu h.2.2)
      · rw [pte2pa_eq]
        exact hsome _ (if_pos ⟨hmax, not_not.mp hv, not_not.mp hu⟩)
  · have hle : MAXVA ≤ va := by
      have hmax' : MAXVA.toNat = MAXPAGE * PGSIZE := by decide
      rw [UInt64.le_iff_toNat_le, hmax']
      unfold vpn PGSIZE at *
      omega
    rw [walkaddr, if_pos hle, wp_pure]
    exact hnone (if_neg fun h => hmax h.1)

theorem addr_eq_zero {g : Nat} (hg : g < 2 ^ 52) : addr g = 0 ↔ g = 0 := by
  constructor
  · intro h
    have := vpn_addr hg
    rw [h] at this
    exact this.symm.trans (by decide)
  · rintro rfl
    rfl

theorem wp_page (hz : ∀ v, s.frame pt v ≠ some 0) {Q : UInt64 → Phys → Prop}
    (hnone : s.frame pt (va.toNat / PGSIZE) = none → Q 0 s)
    (hsome : ∀ g pa0, s.frame pt (va.toNat / PGSIZE) = some g → pa0 ≠ 0 → vpn pa0 = g → Q pa0 s) :
    wp (walkaddr pt (pgRoundDown va)) Q E s := by
  refine wp_walkaddr ?_ ?_
  · rw [vpn_pgRoundDown]
    exact hnone
  · rw [vpn_pgRoundDown]
    intro g hg
    have hlt := (frame_lt hg).2
    refine hsome g _ hg (fun h => ?_) (vpn_addr hlt)
    rw [(addr_eq_zero hlt).mp h] at hg
    exact hz _ hg

theorem next_page {g : Nat} (h : s.frame pt (va.toNat / PGSIZE) = some g) :
    (pgRoundDown va + UInt64.ofNat PGSIZE).toNat =
      va.toNat + (PGSIZE - va.toNat % PGSIZE) := by
  have hlt := (frame_lt h).1
  have hsize : (UInt64.ofNat PGSIZE).toNat = 4096 := rfl
  rw [UInt64.toNat_add, pgRoundDown_toNat, hsize, vpn]
  unfold MAXPAGE PGSIZE at *
  omega

end Walkaddr

/-! `copyin` and `copyinstr`. -/

section Copyin
variable {s : Phys} {pt : Nat} {va : UInt64} {E : String → Phys → Prop} {a n m g : Nat}

theorem bytes_add (s : Phys) (pt a n m : Nat) : s.bytes pt a (n + m) =
    (s.bytes pt a n).bind fun bs => (s.bytes pt (a + n) m).map (bs ++ ·) := by
  induction n generalizing a with
  | zero => simp [Phys.bytes]
  | succ n ih =>
    have hadd : n + 1 + m = n + m + 1 := by omega
    have hnext : a + 1 + n = a + (n + 1) := by omega
    rw [hadd, Phys.bytes, Phys.bytes, ih, hnext]
    cases s.byte pt a with
    | none => rfl
    | some b => cases s.bytes pt (a + 1) n <;> cases s.bytes pt (a + (n + 1)) m <;> rfl

theorem byte_page (h : s.frame pt (a / PGSIZE) = some g) {j : Nat} (hj : a % PGSIZE + j < PGSIZE) :
    s.byte pt (a + j) = some (s.mem g (a % PGSIZE + j)) := by
  have hdiv : (a + j) / PGSIZE = a / PGSIZE := by
    unfold PGSIZE at *
    omega
  have hmod : (a + j) % PGSIZE = a % PGSIZE + j := by
    unfold PGSIZE at *
    omega
  rw [Phys.byte, hdiv, h, hmod, Option.map_some]

theorem load_succ (s : Phys) (g off n : Nat) :
    s.load g off (n + 1) = s.mem g off :: s.load g (off + 1) n := by
  rw [Phys.load, List.range_succ_eq_map, List.map_cons, List.map_map, Nat.add_zero]
  congr 1
  refine List.map_congr_left fun j _ => ?_
  have hoff : off + Nat.succ j = off + 1 + j := by omega
  rw [Function.comp_apply, hoff]

theorem bytes_page (h : s.frame pt (a / PGSIZE) = some g) (hn : a % PGSIZE + n ≤ PGSIZE) :
    s.bytes pt a n = some (s.load g (a % PGSIZE) n) := by
  -- the page is fixed by where the bytes begin
  have hfrom : ∀ n j, a % PGSIZE + j + n ≤ PGSIZE →
      s.bytes pt (a + j) n = some (s.load g (a % PGSIZE + j) n) := by
    intro n
    induction n with
    | zero => exact fun j _ => rfl
    | succ n ih =>
      intro j hj
      rw [Phys.bytes, byte_page h (by omega), Option.bind_some, Nat.add_assoc a,
        ih (j + 1) (by omega), load_succ]
      rfl
  exact hfrom n 0 hn

theorem bytes_eq_none {s : Phys} {pt a n : Nat} : s.bytes pt a n = none ↔
    ∃ j, j < n ∧ s.frame pt ((a + j) / PGSIZE) = none := by
  have hbyte : ∀ x, s.byte pt x = none ↔ s.frame pt (x / PGSIZE) = none := fun x =>
    Option.map_eq_none_iff
  induction n generalizing a with
  | zero => simp [Phys.bytes]
  | succ n ih =>
    constructor
    · intro h
      cases hb : s.byte pt a with
      | none => exact ⟨0, by omega, (hbyte a).mp hb⟩
      | some b =>
        rw [Phys.bytes, hb, Option.bind_some, Option.map_eq_none_iff] at h
        obtain ⟨j, hj, hf⟩ := ih.mp h
        refine ⟨j + 1, by omega, ?_⟩
        rw [← hf]
        congr 2
        omega
    · rintro ⟨j, hj, hf⟩
      by_cases hj0 : j = 0
      · subst hj0
        rw [Phys.bytes, (hbyte a).mpr hf, Option.bind_none]
      · have hrest : s.bytes pt (a + 1) n = none := by
          refine ih.mpr ⟨j - 1, by omega, ?_⟩
          rw [← hf]
          congr 2
          omega
        rw [Phys.bytes, hrest]
        cases s.byte pt a <;> rfl

theorem wp_copyinLoop (hz : ∀ v, s.frame pt v ≠ some 0) {k len : Nat} (hk : len ≤ k)
    {Q : Int × List UInt8 → Phys → Prop}
    (hno : ∀ bs, s.bytes pt va.toNat len = none → Q (-1, bs) s)
    (hyes : ∀ bs, s.bytes pt va.toNat len = some bs → Q (0, bs) s) :
    wp (copyinLoop pt k va len) Q E s := by
  induction k generalizing va len Q with
  | zero =>
    obtain rfl : len = 0 := by omega
    exact hyes [] rfl
  | succ k ih =>
    simp only [copyinLoop, wp_ite, wp_pure, wp_bind, wp_get]
    refine ⟨?_, fun hlen => ?_⟩
    · rintro rfl
      exact hyes [] rfl
    · refine wp_page hz (fun hf => ?_) fun g pa0 hf hne hg => ?_
      · refine ⟨fun _ => hno [] ?_, fun h => absurd rfl h⟩
        exact bytes_eq_none.mpr ⟨0, by omega, hf⟩
      · refine ⟨fun h => absurd h hne, fun _ => ?_⟩
        rw [User.pageOffset, hg]
        have hlt : va.toNat % PGSIZE < PGSIZE := Nat.mod_lt _ (by decide)
        have hpage := bytes_page (n := min (PGSIZE - va.toNat % PGSIZE) len) hf (by omega)
        have hsplit := bytes_add s pt va.toNat (min (PGSIZE - va.toNat % PGSIZE) len)
          (len - min (PGSIZE - va.toNat % PGSIZE) len)
        rw [Nat.add_sub_cancel' (Nat.min_le_right _ _), hpage, Option.bind_some] at hsplit
        -- if the page is not the last one, the next turn begins where the bytes of this one end
        have hrest : s.bytes pt (pgRoundDown va + UInt64.ofNat PGSIZE).toNat
            (len - min (PGSIZE - va.toNat % PGSIZE) len) =
            s.bytes pt (va.toNat + min (PGSIZE - va.toNat % PGSIZE) len)
              (len - min (PGSIZE - va.toNat % PGSIZE) len) := by
          by_cases hlast : len ≤ PGSIZE - va.toNat % PGSIZE
          · have h0 : len - min (PGSIZE - va.toNat % PGSIZE) len = 0 := by omega
            rw [h0, Phys.bytes, Phys.bytes]
          · rw [next_page hf, Nat.min_eq_left (by omega)]
        refine ih (by omega) (fun bs hb => hno _ ?_) fun bs hb => hyes _ ?_
        · rw [hsplit, ← hrest, hb, Option.map_none]
        · rw [hsplit, ← hrest, hb, Option.map_some]

theorem cstr_page (h : s.frame pt (a / PGSIZE) = some g) (hn : a % PGSIZE + n ≤ PGSIZE) :
    s.cstr pt a (n + m) =
      if (copyinstrPage (s.mem g) n (a % PGSIZE)).2 then
        some (copyinstrPage (s.mem g) n (a % PGSIZE)).1
      else (s.cstr pt (a + n) m).map ((copyinstrPage (s.mem g) n (a % PGSIZE)).1 ++ ·) := by
  have hfrom : ∀ n j, a % PGSIZE + j + n ≤ PGSIZE → s.cstr pt (a + j) (n + m) =
      if (copyinstrPage (s.mem g) n (a % PGSIZE + j)).2 then
        some (copyinstrPage (s.mem g) n (a % PGSIZE + j)).1
      else (s.cstr pt (a + j + n) m).map ((copyinstrPage (s.mem g) n (a % PGSIZE + j)).1 ++ ·) := by
    intro n
    induction n with
    | zero =>
      intro j _
      simp [copyinstrPage]
    | succ n ih =>
      intro j hj
      have hadd : n + 1 + m = n + m + 1 := by omega
      have hnext : a + (j + 1) + n = a + j + (n + 1) := by omega
      have hih := ih (j + 1) (by omega)
      rw [hadd, Phys.cstr, byte_page h (by omega), Option.bind_some, copyinstrPage]
      by_cases hb : s.mem g (a % PGSIZE + j) = 0
      · rw [if_pos hb, if_pos hb, if_pos rfl]
      · rw [if_neg hb, if_neg hb, Nat.add_assoc a j 1, hih, hnext]
        rw [Nat.add_assoc _ j 1]
        split
        · rw [Option.map_some]
        · rw [Option.map_map]
          rfl
  exact hfrom n 0 hn

theorem wp_copyinstrLoop (hz : ∀ v, s.frame pt v ≠ some 0) {k max : Nat} (hk : max ≤ k)
    {Q : Int × List UInt8 → Phys → Prop}
    (hno : ∀ bs, s.cstr pt va.toNat max = none → Q (-1, bs) s)
    (hyes : ∀ bs, s.cstr pt va.toNat max = some bs → Q (0, bs) s) :
    wp (copyinstrLoop pt k va max) Q E s := by
  induction k generalizing va max Q with
  | zero =>
    obtain rfl : max = 0 := by omega
    exact hno [] rfl
  | succ k ih =>
    simp only [copyinstrLoop, wp_ite, wp_pure, wp_bind, wp_get]
    refine ⟨?_, fun hmax => ?_⟩
    · rintro rfl
      exact hno [] rfl
    · refine wp_page hz (fun hf => ?_) fun g pa0 hf hne hg => ?_
      · refine ⟨fun _ => hno [] ?_, fun h => absurd rfl h⟩
        have hbyte : s.byte pt va.toNat = none := by rw [Phys.byte, hf, Option.map_none]
        obtain ⟨n, rfl⟩ := Nat.exists_eq_succ_of_ne_zero hmax
        rw [Phys.cstr, hbyte, Option.bind_none]
      · refine ⟨fun h => absurd h hne, fun _ => ?_⟩
        rw [User.pageOffset, hg]
        have hlt : va.toNat % PGSIZE < PGSIZE := Nat.mod_lt _ (by decide)
        have hsplit := cstr_page (n := min (PGSIZE - va.toNat % PGSIZE) max)
          (m := max - min (PGSIZE - va.toNat % PGSIZE) max) hf (by omega)
        rw [Nat.add_sub_cancel' (Nat.min_le_right _ _)] at hsplit
        refine ⟨fun hgot => hyes _ ?_, fun hgot => ?_⟩
        · rw [hsplit, if_pos hgot]
        · rw [if_neg hgot] at hsplit
          have hrest : s.cstr pt (pgRoundDown va + UInt64.ofNat PGSIZE).toNat
              (max - min (PGSIZE - va.toNat % PGSIZE) max) =
              s.cstr pt (va.toNat + min (PGSIZE - va.toNat % PGSIZE) max)
                (max - min (PGSIZE - va.toNat % PGSIZE) max) := by
            by_cases hlast : max ≤ PGSIZE - va.toNat % PGSIZE
            · have h0 : max - min (PGSIZE - va.toNat % PGSIZE) max = 0 := by omega
              rw [h0, Phys.cstr, Phys.cstr]
            · rw [next_page hf, Nat.min_eq_left (by omega)]
          refine ih (by omega) (fun bs hb => hno _ ?_) fun bs hb => hyes _ ?_
          · rw [hsplit, ← hrest, hb, Option.map_none]
          · rw [hsplit, ← hrest, hb, Option.map_some]

theorem cstr_eq_some {bs : List UInt8} (h : s.cstr pt a n = some bs) :
    ∃ k, k < n ∧ s.byte pt (a + k) = some 0 ∧ (∀ j, j < k → s.byte pt (a + j) ≠ some 0) ∧
      s.bytes pt a (k + 1) = some bs := by
  induction n generalizing a bs with
  | zero => cases h
  | succ n ih =>
    rw [Phys.cstr, Option.bind_eq_some_iff] at h
    obtain ⟨b, hb, hrest⟩ := h
    split at hrest
    · rename_i h0
      subst h0
      cases hrest
      refine ⟨0, by omega, hb, fun j hj => absurd hj (by omega), ?_⟩
      rw [Phys.bytes, hb, Option.bind_some]
      rfl
    · rename_i h0
      obtain ⟨bs', hbs', rfl⟩ := Option.map_eq_some_iff.mp hrest
      obtain ⟨k, hk, hnul, hfirst, hbytes⟩ := ih hbs'
      have hshift : ∀ j, a + (j + 1) = a + 1 + j := fun j => by omega
      refine ⟨k + 1, by omega, (hshift k).symm ▸ hnul, ?_, ?_⟩
      · intro j hj
        cases j with
        | zero =>
          rw [Nat.add_zero, hb]
          exact fun h => h0 (Option.some.inj h)
        | succ j =>
          rw [hshift]
          exact hfirst j (by omega)
      · rw [Phys.bytes, hb, Option.bind_some, hbytes, Option.map_some]

theorem cstr_eq_none (h : s.cstr pt a n = none) {k : Nat} (hk : k < n)
    (hnul : s.byte pt (a + k) = some 0) : ∃ j, j ≤ k ∧ s.frame pt ((a + j) / PGSIZE) = none := by
  induction n generalizing a k with
  | zero => omega
  | succ n ih =>
    cases hb : s.byte pt a with
    | none => exact ⟨0, by omega, Option.map_eq_none_iff.mp hb⟩
    | some b =>
      rw [Phys.cstr, hb, Option.bind_some] at h
      split at h
      · cases h
      · rename_i h0
        have hk0 : k ≠ 0 := by
          rintro rfl
          rw [Nat.add_zero, hb] at hnul
          exact h0 (Option.some.inj hnul)
        obtain ⟨k, rfl⟩ := Nat.exists_eq_succ_of_ne_zero hk0
        have hshift : ∀ j, a + Nat.succ j = a + 1 + j := fun j => by omega
        rw [hshift] at hnul
        obtain ⟨j, hj, hf⟩ := ih (Option.map_eq_none_iff.mp h) (by omega) hnul
        refine ⟨j + 1, by omega, ?_⟩
        rw [hshift]
        exact hf

end Copyin

/-! `copyout`. -/

structure Wrote (pt : Nat) (s u : Phys) (a : Nat) (bs : List UInt8) : Prop where
  tables : ∀ f ∈ s.tables pt, u.mem f = s.mem f
  byte : ∀ x, u.byte pt x = if a ≤ x ∧ x < a + bs.length then bs[x - a]? else s.byte pt x
  mem : ∀ g, (∀ j, j < bs.length → s.frame pt ((a + j) / PGSIZE) ≠ some g) → u.mem g = s.mem g
  free : u.free = s.free
  first : u.first = s.first

section Copyout
variable {s u r : Phys} {pt : Nat} {va : UInt64} {E : String → Phys → Prop} {a n g : Nat}
  {bs bs' : List UInt8}

theorem frame_congr (h : ∀ f ∈ s.tables pt, u.mem f = s.mem f) : u.frame pt = s.frame pt := by
  funext v
  rw [Phys.frame, Phys.frame, leaf_congr h]

theorem Apart.congr (hA : Apart s pt) (h : ∀ f ∈ s.tables pt, u.mem f = s.mem f) :
    Apart u pt := by
  refine ⟨?_, ?_, ?_⟩ <;> rw [frame_congr h]
  · exact hA.nonzero
  · exact hA.inj
  · rw [tables_congr h]
    exact hA.tables

theorem Wrote.nil (s : Phys) (pt a : Nat) : Wrote pt s s a [] := by
  refine ⟨fun _ _ => rfl, fun x => ?_, fun _ _ => rfl, rfl, rfl⟩
  rw [if_neg]
  simp only [List.length_nil]
  omega

theorem Wrote.trans (h : Wrote pt s u a bs) (h' : Wrote pt u r (a + bs.length) bs') :
    Wrote pt s r a (bs ++ bs') := by
  have htab : u.tables pt = s.tables pt := tables_congr h.tables
  refine ⟨?_, ?_, ?_, h'.free.trans h.free, h'.first.trans h.first⟩
  · intro f hf
    rw [h'.tables f (htab.symm ▸ hf), h.tables f hf]
  · intro x
    rw [h'.byte, h.byte, List.length_append]
    by_cases h2 : a + bs.length ≤ x ∧ x < a + bs.length + bs'.length
    · rw [if_pos h2, if_pos (by omega), List.getElem?_append_right (by omega)]
      congr 1
      omega
    · rw [if_neg h2]
      by_cases h1 : a ≤ x ∧ x < a + bs.length
      · rw [if_pos h1, if_pos (by omega), List.getElem?_append_left (by omega)]
      · rw [if_neg h1, if_neg (by omega)]
  · intro g hg
    rw [List.length_append] at hg
    rw [h'.mem g, h.mem g]
    · exact fun j hj => hg j (by omega)
    · intro j hj
      rw [frame_congr h.tables, Nat.add_assoc]
      exact hg (bs.length + j) (by omega)

theorem Apart.wrote_store (hA : Apart s pt) (hf : s.frame pt (a / PGSIZE) = some g)
    (hpos : 0 < bs.length) (hlen : a % PGSIZE + bs.length ≤ PGSIZE) :
    Wrote pt s (s.store g (a % PGSIZE) bs) a bs := by
  have hother : ∀ f, f ≠ g → (s.store g (a % PGSIZE) bs).mem f = s.mem f := fun f hne =>
    s.setPage_of_ne hne _
  have htab : ∀ f ∈ s.tables pt, (s.store g (a % PGSIZE) bs).mem f = s.mem f := fun f hin =>
    hother f fun he => hA.tables hf (he ▸ hin)
  refine ⟨htab, fun x => ?_, fun f hne => hother f ?_, rfl, rfl⟩
  · rw [Phys.byte, Phys.byte, frame_congr htab]
    by_cases hpage : x / PGSIZE = a / PGSIZE
    · rw [hpage, hf, Option.map_some, Option.map_some, Phys.store, Phys.setPage_self]
      have hin : a % PGSIZE ≤ x % PGSIZE ∧ x % PGSIZE < a % PGSIZE + bs.length ↔
          a ≤ x ∧ x < a + bs.length := by
        unfold PGSIZE at *
        omega
      have hoff : a ≤ x → x % PGSIZE - a % PGSIZE = x - a := by
        unfold PGSIZE at *
        omega
      by_cases h : a ≤ x ∧ x < a + bs.length
      · rw [if_pos (hin.mpr h), if_pos h, hoff h.1, List.getD_eq_getElem?_getD,
          List.getElem?_eq_getElem (by omega), Option.getD_some]
      · rw [if_neg (fun h' => h (hin.mp h')), if_neg h]
    · have hout : ¬(a ≤ x ∧ x < a + bs.length) := by
        unfold PGSIZE at *
        omega
      rw [if_neg hout]
      cases hx : s.frame pt (x / PGSIZE) with
      | none => rfl
      | some f =>
        have hne : f ≠ g := by
          rintro rfl
          exact hpage (hA.inj hx hf)
        rw [Option.map_some, Option.map_some, hother f hne]
  · rintro rfl
    exact hne 0 hpos hf

theorem wp_copyoutLoop (hA : Apart s pt) {k : Nat} {src : List UInt8} (hk : src.length ≤ k)
    {Q : Int → Phys → Prop}
    (hno : ∀ u n, n < src.length → s.frame pt ((va.toNat + n) / PGSIZE) = none →
      Wrote pt s u va.toNat (src.take n) → Q (-1) u)
    (hyes : ∀ u, (∀ j, j < src.length → s.frame pt ((va.toNat + j) / PGSIZE) ≠ none) →
      Wrote pt s u va.toNat src → Q 0 u) :
    wp (copyoutLoop pt k va src) Q E s := by
  induction k generalizing s va src with
  | zero =>
    obtain rfl : src = [] := List.length_eq_zero_iff.mp (by omega)
    exact hyes s (fun j hj => absurd hj (Nat.not_lt_zero j)) (Wrote.nil s pt _)
  | succ k ih =>
    simp only [copyoutLoop, wp_ite, wp_pure, wp_bind, wp_modify]
    refine ⟨?_, fun hsrc => ?_⟩
    · rintro rfl
      exact hyes s (fun j hj => absurd hj (Nat.not_lt_zero j)) (Wrote.nil s pt _)
    · have hpos : 0 < src.length := List.length_pos_iff.mpr hsrc
      refine wp_page hA.nonzero (fun hf => ?_) fun g pa0 hf hne hg => ?_
      · exact ⟨fun _ => hno s 0 hpos hf (Wrote.nil s pt _), fun h => absurd rfl h⟩
      · refine ⟨fun h => absurd h hne, fun _ => ?_⟩
        rw [User.pageOffset, hg]
        have hlt : va.toNat % PGSIZE < PGSIZE := Nat.mod_lt _ (by decide)
        have hnext := next_page hf
        generalize hn : min (PGSIZE - va.toNat % PGSIZE) src.length = n
        have htake : (src.take n).length = n := by
          rw [List.length_take]
          omega
        have hw : Wrote pt s (s.store g (va.toNat % PGSIZE) (src.take n)) va.toNat (src.take n) :=
          hA.wrote_store hf (by omega) (by omega)
        have hmapped : ∀ j, j < n → s.frame pt ((va.toNat + j) / PGSIZE) ≠ none := by
          intro j hj
          have hdiv : (va.toNat + j) / PGSIZE = va.toNat / PGSIZE := by
            unfold PGSIZE at *
            omega
          rw [hdiv, hf]
          exact Option.some_ne_none g
        by_cases hlast : src.length ≤ PGSIZE - va.toNat % PGSIZE
        · obtain rfl : n = src.length := by omega
          rw [List.take_length] at hw ⊢
          rw [List.drop_length]
          refine ih (hA.congr hw.tables) (Nat.zero_le k)
            (fun _ n hn => absurd hn (Nat.not_lt_zero n)) fun u _ hu => hyes u hmapped ?_
          have hempty : Wrote pt (s.store g (va.toNat % PGSIZE) src) u
              (va.toNat + src.length) [] := by
            refine ⟨hu.tables, fun x => ?_, fun g _ => hu.mem g fun j hj =>
              absurd hj (Nat.not_lt_zero j), hu.free, hu.first⟩
            rw [hu.byte]
            simp only [List.length_nil]
            rw [if_neg (by omega), if_neg (by omega)]
          have := hw.trans hempty
          rwa [List.append_nil] at this
        · obtain rfl : n = PGSIZE - va.toNat % PGSIZE := by omega
          refine ih (hA.congr hw.tables) ?_ ?_ ?_
          · rw [List.length_drop]
            omega
          · intro u m hm hfm hu
            rw [List.length_drop] at hm
            rw [frame_congr hw.tables, hnext, Nat.add_assoc] at hfm
            refine hno u _ (by omega) hfm ?_
            rw [List.take_add]
            refine hw.trans ?_
            rw [htake, ← hnext]
            exact hu
          · intro u hall hu
            refine hyes u ?_ ?_
            · intro j hj
              by_cases hjn : j < PGSIZE - va.toNat % PGSIZE
              · exact hmapped j hjn
              · have := hall (j - (PGSIZE - va.toNat % PGSIZE)) (by rw [List.length_drop]; omega)
                rw [frame_congr hw.tables, hnext, Nat.add_assoc, Nat.add_sub_cancel' (by omega)]
                  at this
                exact this
            · rw [← List.take_append_drop (PGSIZE - va.toNat % PGSIZE) src]
              refine hw.trans ?_
              rw [htake, ← hnext]
              exact hu

/-! The same routine over a picture of the address space, where `walkaddr` is a function. -/

def Phys.pageAddr (s : Phys) (pt : Nat) (va : UInt64) : Option Nat :=
  if va.toNat % PGSIZE = 0 then (s.frame pt (vpn va)).map (· * PGSIZE) else none

theorem pageAddr_eq_some {va : UInt64} {pa : Nat} (h : s.pageAddr pt va = some pa) :
    va.toNat % PGSIZE = 0 ∧ ∃ g, s.frame pt (vpn va) = some g ∧ pa = g * PGSIZE := by
  unfold Phys.pageAddr at h
  split at h
  · rename_i hva
    obtain ⟨g, hg, rfl⟩ := Option.map_eq_some_iff.mp h
    exact ⟨hva, g, hg, rfl⟩
  · cases h

theorem pageAddr_aligned (va : UInt64) (pa : Nat) (h : s.pageAddr pt va = some pa) :
    PGSIZE ∣ pa := by
  obtain ⟨-, g, -, rfl⟩ := pageAddr_eq_some h
  exact Nat.dvd_mul_left ..

theorem pageAddr_apart (hA : Apart s pt) (va va' : UInt64) (pa : Nat)
    (h : s.pageAddr pt va = some pa) (h' : s.pageAddr pt va' = some pa) : va = va' := by
  obtain ⟨hva, g, hg, rfl⟩ := pageAddr_eq_some h
  obtain ⟨hva', g', hg', he⟩ := pageAddr_eq_some h'
  rw [← Nat.eq_of_mul_eq_mul_right (by decide) he] at hg'
  have hv : vpn va = vpn va' := hA.inj hg hg'
  unfold vpn PGSIZE at *
  rw [← UInt64.toNat_inj]
  omega

def Phys.user (s : Phys) (pt : Nat) (hA : Apart s pt) : User where
  walkaddr := s.pageAddr pt
  mem x := s.mem (x / PGSIZE) (x % PGSIZE)
  aligned := pageAddr_aligned
  apart := pageAddr_apart hA

theorem memmove_apply (mem : Nat → UInt8) (pa : Nat) (bs : List UInt8) (x : Nat) :
    memmove mem pa bs x = if pa ≤ x ∧ x < pa + bs.length then bs.getD (x - pa) 0 else mem x := by
  induction bs generalizing mem pa with
  | nil => rw [memmove, if_neg (by simp)]
  | cons b bs ih =>
    rw [memmove, ih]
    rcases Nat.lt_trichotomy x pa with hx | rfl | hx
    · rw [if_neg (by omega), if_neg (by omega), update_of_ne (by omega)]
    · rw [if_neg (by omega), if_pos (by simp), update_self, Nat.sub_self]
      rfl
    · rw [update_of_ne (by omega), show x - pa = x - (pa + 1) + 1 by omega, List.getD_cons_succ,
        List.length_cons]
      exact if_congr (by omega) rfl rfl

theorem Phys.user_walkaddr (hA : Apart s pt) (va : UInt64) :
    (s.user pt hA).walkaddr (pgRoundDown va) = (s.frame pt (va.toNat / PGSIZE)).map (· * PGSIZE) := by
  have hround : (pgRoundDown va).toNat % PGSIZE = 0 := by
    rw [pgRoundDown_toNat]
    exact Nat.mul_mod_left ..
  exact (if_pos hround).trans (by rw [vpn_pgRoundDown, vpn])

theorem Phys.user_store (hA : Apart s pt) (hf : s.frame pt (a / PGSIZE) = some g)
    (hpos : 0 < bs.length) (hlen : a % PGSIZE + bs.length ≤ PGSIZE)
    (hA' : Apart (s.store g (a % PGSIZE) bs) pt) :
    (s.user pt hA).store (g * PGSIZE + a % PGSIZE) bs =
      (s.store g (a % PGSIZE) bs).user pt hA' := by
  have hpage : (s.store g (a % PGSIZE) bs).pageAddr pt = s.pageAddr pt := by
    funext va
    rw [Phys.pageAddr, Phys.pageAddr, frame_congr (hA.wrote_store hf hpos hlen).tables]
  simp only [User.store, Phys.user, User.mk.injEq, hpage, true_and]
  funext x
  rw [memmove_apply, Phys.store, Phys.setPage]
  simp only
  by_cases hx : x / PGSIZE = g
  · subst hx
    rw [update_self]
    have hin : x / PGSIZE * PGSIZE + a % PGSIZE ≤ x ∧
        x < x / PGSIZE * PGSIZE + a % PGSIZE + bs.length ↔
        a % PGSIZE ≤ x % PGSIZE ∧ x % PGSIZE < a % PGSIZE + bs.length := by
      unfold PGSIZE at *
      omega
    refine if_congr hin ?_ rfl
    congr 1
    unfold PGSIZE at *
    omega
  · rw [update_of_ne hx, if_neg]
    unfold PGSIZE at *
    omega

theorem wp_copyoutLoop_user (hA : Apart s pt) (k : Nat) (src : List UInt8) :
    wp (copyoutLoop pt k va src) (fun r u => ∃ hu : Apart u pt,
      User.copyoutLoop k (s.user pt hA) va src = (decide (r = 0), u.user pt hu)) E s := by
  induction k generalizing s va src with
  | zero => exact ⟨hA, rfl⟩
  | succ k ih =>
    simp only [copyoutLoop, User.copyoutLoop, wp_ite, wp_pure, wp_bind, wp_modify]
    refine ⟨fun hsrc => ⟨hA, by rw [if_pos hsrc]; rfl⟩, fun hsrc => ?_⟩
    rw [if_neg hsrc]
    refine wp_page hA.nonzero (fun hf => ?_) fun g pa0 hf hne hg => ?_
    · refine ⟨fun _ => ⟨hA, ?_⟩, fun h => absurd rfl h⟩
      rw [Phys.user_walkaddr, hf]
      rfl
    · refine ⟨fun h => absurd h hne, fun _ => ?_⟩
      have hpos : 0 < src.length := List.length_pos_iff.mpr hsrc
      have hlt : va.toNat % PGSIZE < PGSIZE := Nat.mod_lt _ (by decide)
      rw [Phys.user_walkaddr, hf, User.pageOffset, hg]
      simp only [Option.map_some]
      generalize hn : min (PGSIZE - va.toNat % PGSIZE) src.length = n
      have hlen : (src.take n).length = n := by
        rw [List.length_take]
        omega
      have hw : Wrote pt s (s.store g (va.toNat % PGSIZE) (src.take n)) va.toNat (src.take n) :=
        hA.wrote_store hf (by omega) (by omega)
      rw [Phys.user_store hA hf (by omega) (by omega) (hA.congr hw.tables)]
      exact ih (hA.congr hw.tables) _

theorem copyout_user (hA : Apart s pt) (src : List UInt8) :
    wp (copyout pt va src) (fun r u => ∃ hu : Apart u pt,
      (s.user pt hA).copyout va src = (decide (r = 0), u.user pt hu)) E s :=
  wp_copyoutLoop_user hA _ _

end Copyout

/-- No page of the process may lie in page 0 of memory, which `walkaddr` cannot tell from none;
for `copyout` its pages lie in pages of their own. Then a copy succeeds exactly when all pages of
its range are there, and moves exactly the bytes of the range; `copyinstr` stores the string up
to its NUL. -/
theorem user_copies_respect_mappings (s : Phys) (pt : Nat) (hz : ∀ v, s.frame pt v ≠ some 0) :
    (∀ va len : UInt64, wp (copyin pt va len) (fun r u => u = s ∧
      (r.1 = 0 ↔ ∀ j, j < len.toNat → s.frame pt ((va.toNat + j) / PGSIZE) ≠ none) ∧
      (r.1 = 0 → s.bytes pt va.toNat len.toNat = some r.2)) (fun _ _ => False) s) ∧
    (Apart s pt → ∀ (va : UInt64) (src : List UInt8), wp (copyout pt va src) (fun r u =>
      (r = 0 ↔ ∀ j, j < src.length → s.frame pt ((va.toNat + j) / PGSIZE) ≠ none) ∧
      (r = 0 → ∀ x, u.byte pt x = if va.toNat ≤ x ∧ x < va.toNat + src.length
        then src[x - va.toNat]? else s.byte pt x)) (fun _ _ => False) s) ∧
    ∀ va max : UInt64, wp (copyinstr pt va max) (fun r u => u = s ∧
      (r.1 = 0 ↔ ∃ k, k < max.toNat ∧ s.byte pt (va.toNat + k) = some 0 ∧
        ∀ j, j ≤ k → s.frame pt ((va.toNat + j) / PGSIZE) ≠ none) ∧
      (r.1 = 0 → ∃ k, k < max.toNat ∧ s.byte pt (va.toNat + k) = some 0 ∧
        (∀ j, j < k → s.byte pt (va.toNat + j) ≠ some 0) ∧
        s.bytes pt va.toNat (k + 1) = some r.2)) (fun _ _ => False) s := by
  have hneg : (-1 : Int) ≠ 0 := by decide
  refine ⟨?_, ?_, ?_⟩
  · intro va len
    refine wp_copyinLoop hz (Nat.le_refl _) (fun bs hb => ?_) fun bs hb => ?_
    · obtain ⟨j, hj, hf⟩ := bytes_eq_none.mp hb
      exact ⟨rfl, ⟨fun h => absurd h hneg, fun h => absurd hf (h j hj)⟩,
        fun h => absurd h hneg⟩
    · refine ⟨rfl, ⟨fun _ j hj hf => ?_, fun _ => rfl⟩, fun _ => hb⟩
      rw [bytes_eq_none.mpr ⟨j, hj, hf⟩] at hb
      cases hb
  · intro hA va src
    refine wp_copyoutLoop hA (Nat.le_refl _) (fun u n hn hf _ => ?_) fun u hall hw => ?_
    · exact ⟨⟨fun h => absurd h hneg, fun h => absurd hf (h n hn)⟩,
        fun h => absurd h hneg⟩
    · exact ⟨⟨fun _ => hall, fun _ => rfl⟩, fun _ => hw.byte⟩
  · intro va max
    refine wp_copyinstrLoop hz (Nat.le_refl _) (fun bs hb => ?_) fun bs hb => ?_
    · refine ⟨rfl, ⟨fun h => absurd h hneg, ?_⟩, fun h => absurd h hneg⟩
      rintro ⟨k, hk, hnul, hall⟩
      obtain ⟨j, hj, hf⟩ := cstr_eq_none hb hk hnul
      exact absurd hf (hall j hj)
    · obtain ⟨k, hk, hnul, hfirst, hbytes⟩ := cstr_eq_some hb
      refine ⟨rfl, ⟨fun _ => ⟨k, hk, hnul, fun j hj hf => ?_⟩, fun _ => rfl⟩, fun _ => ?_⟩
      · rw [bytes_eq_none.mpr ⟨j, by omega, hf⟩] at hbytes
        cases hbytes
      · exact ⟨k, hk, hnul, hfirst, hbytes⟩

def onePage : Phys := (mappages 0x80000 0 0x1000 0x80003000 (PTE_R ||| PTE_W ||| PTE_U) bareRoot).2

theorem onePage_leaf : onePage.leaf 0x80000 =
      overlay (fun _ => 0) 0 1 (entries 0x80003000 (PTE_R ||| PTE_W ||| PTE_U)) ∧
    ∀ f ∈ onePage.tables 0x80000, f ∈ [0x80000, 0x80001, 0x80002] := by
  obtain ⟨hshow, htab⟩ := bareRoot_maps 0 0x1000 0x80003000 (PTE_R ||| PTE_W ||| PTE_U) (by decide)
    (by decide) (by decide +kernel)
  exact ⟨hshow.leaf, htab⟩

theorem onePage_frame (v : Nat) :
    onePage.frame 0x80000 v = if v = 0 then some 0x80003 else none := by
  rw [Phys.frame, onePage_leaf.1, overlay]
  by_cases hv : v = 0
  · subst hv
    decide
  · have hout : ¬(0 ≤ v ∧ v < 0 + 1) := by omega
    rw [if_neg hv, if_neg hout]
    exact if_neg fun h => not_valid_zero h.2.1

theorem onePage_apart : Apart onePage 0x80000 := by
  have hframe : ∀ {v g}, onePage.frame 0x80000 v = some g → v = 0 ∧ g = 0x80003 := by
    intro v g h
    rw [onePage_frame] at h
    split at h
    · exact ⟨by assumption, (Option.some.inj h).symm⟩
    · cases h
  refine ⟨fun v h => ?_, fun h h' => ?_, fun h hin => ?_⟩
  · exact absurd (hframe h).2 (by decide)
  · rw [(hframe h).1, (hframe h').1]
  · have := onePage_leaf.2 _ hin
    rw [(hframe h).2] at this
    exact absurd this (by decide)

/-- Two bytes into that page; two bytes of which the second lies behind it. -/
theorem user_copies_respect_mappings_onePage :
    wp (copyout 0x80000 100 [7, 8]) (fun r u => r = 0 ∧ u.byte 0x80000 101 = some 8)
      (fun _ _ => False) onePage ∧
    wp (copyout 0x80000 4095 [7, 8]) (fun r _ => r ≠ 0) (fun _ _ => False) onePage := by
  have h := (user_copies_respect_mappings onePage 0x80000 onePage_apart.nonzero).2.1 onePage_apart
  refine ⟨?_, ?_⟩
  · refine wp_post (h 100 [7, 8]) ?_
    rintro r u ⟨hr, hbyte⟩
    have h0 : r = 0 := by
      refine hr.mpr fun j hj => ?_
      have hpage : ((100 : UInt64).toNat + j) / PGSIZE = 0 := by
        change (100 + j) / 4096 = 0
        change j < 2 at hj
        omega
      rw [hpage, onePage_frame]
      exact Option.some_ne_none _
    exact ⟨h0, hbyte h0 101⟩
  · refine wp_post (h 4095 [7, 8]) ?_
    rintro r u ⟨hr, -⟩ h0
    refine hr.mp h0 1 (by decide) ?_
    rw [onePage_frame]
    rfl

def sharedPage : Phys := (mappages 0x80000 0x1000 0x1000 0x80003000 (PTE_R ||| PTE_W ||| PTE_U)
  onePage).2
def pageZero : Phys := (mappages 0x80000 0 0x1000 0 (PTE_R ||| PTE_W ||| PTE_U) bareRoot).2

/-- `copyout` to the one changes the other; a page that is mapped is not found. -/
theorem copyout_shared_page :
    ((copyout 0x80000 0 [7] sharedPage).1.toOption = some 0 ∧
      sharedPage.byte 0x80000 0x1000 = some 0 ∧
      (copyout 0x80000 0 [7] sharedPage).2.byte 0x80000 0x1000 = some 7) ∧
    pageZero.frame 0x80000 0 = some 0 ∧
      (copyin 0x80000 0 1 pageZero).1.toOption = some (-1, []) := by
  decide +kernel

end Xv6Audit.Vm
