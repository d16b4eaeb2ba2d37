import Xv6Audit.Vm.Phys

/-! `walk` of `kernel/vm.c`, and the three levels of tables that it goes down. -/
namespace Xv6Audit.Vm
open Function

open Prog Words

def walkFrom (va : UInt64) (alloc : Bool) : Nat → Nat → VmProg (Option (Nat × Nat))
  | 0, t => pure (some (t, px 0 va))
  | level+1, t => do
    let pte := (← get).pte t (px (level + 1) va)
    if valid pte then walkFrom va alloc level (pte2page pte)
    else if alloc then do
      match ← kalloc with
      | none => pure none
      | some g =>
        modify (·.memset g 0)
        modify (·.setPte t (px (level + 1) va) (pa2pte (addr g) ||| PTE_V))
        walkFrom va alloc level g
    else pure none

def walk (pagetable : Nat) (va : UInt64) (alloc : Bool) : VmProg (Option (Nat × Nat)) := do
  if MAXVA ≤ va then throw "walk" else walkFrom va alloc 2 pagetable

namespace Phys

def child (s : Phys) (t i : Nat) : Option Nat :=
  if valid (s.pte t i) then some (pte2page (s.pte t i)) else none

def tab (s : Phys) (pt : Nat) : Nat → Nat → Option Nat
  | 0, p => if p = 0 then some pt else none
  | d+1, p => (s.tab pt d (p / 512)).bind fun t => s.child t (p % 512)

def leaf (s : Phys) (pt v : Nat) : UInt64 :=
  match s.tab pt 2 (v / 512) with
  | some t => s.pte t (v % 512)
  | none => 0

def tables (s : Phys) (pt : Nat) : Set Nat := {t | ∃ d p, d ≤ 2 ∧ s.tab pt d p = some t}

end Phys

/-- A tree of tables: no page holds two of them, and an entry above the lowest level that is valid
points to a table. -/
structure Tree (s : Phys) (pt : Nat) : Prop where
  inj : ∀ {d d' p p' t}, d ≤ 2 → d' ≤ 2 → s.tab pt d p = some t → s.tab pt d' p' = some t →
    d = d' ∧ p = p'
  inner : ∀ {d p t i}, d ≤ 1 → s.tab pt d p = some t → i < 512 → valid (s.pte t i) →
    ¬ access (s.pte t i)

section Tree
variable {s u : Phys} {pt t g d q i v : Nat} {w : UInt64} {E : String → Phys → Prop}

theorem Phys.pte_setPte (s : Phys) (t i : Nat) (w : UInt64) (t' j : Nat) :
    (s.setPte t i w).pte t' j = if t' = t ∧ j = i then w else s.pte t' j := by
  by_cases ht : t' = t
  · subst ht
    have hmem : (s.setPte t' i w).mem t' = setWord (s.mem t') i w := update_self ..
    simp only [Phys.pte, hmem, word_setWord, true_and]
  · have hmem : (s.setPte t i w).mem t' = s.mem t' := update_of_ne ht _ _
    simp only [Phys.pte, hmem, ht, false_and, if_false]

theorem Phys.tab_root (s : Phys) (pt : Nat) : s.tab pt 0 0 = some pt := rfl

theorem mem_tables (hd : d ≤ 2) (h : s.tab pt d q = some t) : t ∈ s.tables pt := ⟨d, q, hd, h⟩

theorem root_mem_tables (s : Phys) (pt : Nat) : pt ∈ s.tables pt :=
  mem_tables (by decide) (s.tab_root pt)

theorem child_congr {t' : Nat} (h : u.pte t' i = s.pte t i) : u.child t' i = s.child t i := by
  unfold Phys.child
  rw [h]

section
variable (h : ∀ f ∈ s.tables pt, u.mem f = s.mem f)
include h

theorem tab_congr : ∀ d p, d ≤ 3 → u.tab pt d p = s.tab pt d p := by
  intro d
  induction d with
  | zero => intros; rfl
  | succ d ih =>
    intro p hd
    rw [Phys.tab, Phys.tab, ih (p / 512) (by omega)]
    cases ht : s.tab pt d (p / 512) with
    | none => rw [Option.bind_none, Option.bind_none]
    | some f =>
      have hmem := h f (mem_tables (by omega) ht)
      refine child_congr ?_
      rw [Phys.pte, Phys.pte, hmem]

theorem leaf_congr : u.leaf pt = s.leaf pt := by
  funext v
  unfold Phys.leaf
  rw [tab_congr h 2 _ (by decide)]
  cases ht : s.tab pt 2 (v / 512) with
  | none => rfl
  | some f =>
    have hmem := h f (mem_tables (by decide) ht)
    simp only [Phys.pte, hmem]

theorem tables_congr : u.tables pt = s.tables pt := by
  ext f
  constructor
  · rintro ⟨d, p, hd, hf⟩
    exact ⟨d, p, hd, (tab_congr h d p (by omega)).symm.trans hf⟩
  · rintro ⟨d, p, hd, hf⟩
    exact ⟨d, p, hd, (tab_congr h d p (by omega)).trans hf⟩

end

theorem Tree.congr (hT : Tree s pt) (h : ∀ f ∈ s.tables pt, u.mem f = s.mem f) : Tree u pt := by
  refine ⟨?_, ?_⟩
  · intro d d' p p' f hd hd' hf hf'
    rw [tab_congr h _ _ (by omega)] at hf hf'
    exact hT.inj hd hd' hf hf'
  · intro d p f i hd hf hi hv
    rw [tab_congr h _ _ (by omega)] at hf
    have hpte : u.pte f i = s.pte f i := by rw [Phys.pte, Phys.pte, h f (mem_tables (by omega) hf)]
    rw [hpte] at hv ⊢
    exact hT.inner hd hf hi hv

section
variable (h : ∀ i, s.pte pt i = 0)
include h

theorem tab_zero {d : Nat} (hd : 0 < d) (p : Nat) :
    s.tab pt d p = none := by
  induction d generalizing p with
  | zero => omega
  | succ d ih =>
    rw [Phys.tab]
    by_cases hd0 : d = 0
    · subst hd0
      rw [Phys.tab]
      split
      · rw [Option.bind_some, Phys.child, h, if_neg not_valid_zero]
      · rw [Option.bind_none]
    · rw [ih (by omega), Option.bind_none]

theorem tables_zero : s.tables pt = {pt} := by
  ext f
  constructor
  · rintro ⟨d, p, -, hf⟩
    by_cases hd : d = 0
    · subst hd
      rw [Phys.tab] at hf
      split at hf
      · exact (Option.some.inj hf).symm
      · cases hf
    · rw [tab_zero h (by omega)] at hf
      cases hf
  · rintro rfl
    exact root_mem_tables s f

theorem leaf_zero : s.leaf pt = fun _ => 0 := by
  funext v
  unfold Phys.leaf
  rw [tab_zero h (by decide)]

theorem Tree.zero : Tree s pt := by
  have hroot : ∀ {d p f}, s.tab pt d p = some f → d = 0 ∧ p = 0 ∧ f = pt := by
    intro d p f hf
    by_cases hd : d = 0
    · subst hd
      rw [Phys.tab] at hf
      split at hf
      · rename_i hp
        exact ⟨rfl, hp, (Option.some.inj hf).symm⟩
      · cases hf
    · rw [tab_zero h (by omega)] at hf
      cases hf
  refine ⟨?_, ?_⟩
  · intro d d' p p' f _ _ hf hf'
    obtain ⟨rfl, rfl, -⟩ := hroot hf
    obtain ⟨rfl, rfl, -⟩ := hroot hf'
    exact ⟨rfl, rfl⟩
  · intro d p f i _ hf _ hv
    obtain ⟨-, -, rfl⟩ := hroot hf
    rw [h] at hv
    exact absurd hv not_valid_zero

end

section
variable (hT : Tree s pt)
include hT

theorem Tree.tab_set (hd : d ≤ 2) (ht : s.tab pt d q = some t)
    (hother : ∀ f ∈ s.tables pt, f ≠ t → u.mem f = s.mem f)
    (hsame : ∀ j, j ≠ i → u.pte t j = s.pte t j) :
    ∀ d' p, d' ≤ 2 → (d < d' → p / 512 ^ (d' - d - 1) ≠ 512 * q + i) →
      u.tab pt d' p = s.tab pt d' p := by
  intro d'
  induction d' with
  | zero => intros; rfl
  | succ d' ih =>
    intro p hd' hp
    have hup : d < d' → p / 512 / 512 ^ (d' - d - 1) ≠ 512 * q + i := by
      intro hlt
      have hpow : 512 * 512 ^ (d' - d - 1) = 512 ^ (d' + 1 - d - 1) := by
        rw [← pow_succ']
        congr 1
        omega
      rw [Nat.div_div_eq_div_mul, hpow]
      exact hp (by omega)
    rw [Phys.tab, Phys.tab, ih (p / 512) (by omega) hup]
    cases hf : s.tab pt d' (p / 512) with
    | none => rw [Option.bind_none, Option.bind_none]
    | some f =>
      refine child_congr ?_
      by_cases hft : f = t
      · subst hft
        obtain ⟨rfl, rfl⟩ := hT.inj (by omega) hd hf ht
        refine hsame _ fun hi => ?_
        have hone : p / 512 ^ (d' + 1 - d' - 1) = p := by
          have hz : d' + 1 - d' - 1 = 0 := by omega
          rw [hz, pow_zero, Nat.div_one]
        exact hp (by omega) (hone.trans (by omega))
      · rw [Phys.pte, Phys.pte, hother f (mem_tables (by omega) hf) hft]

section
variable (ht : s.tab pt 2 q = some t)
include ht

theorem Tree.tab_setLeaf (w : UInt64) {d' : Nat} (hd' : d' ≤ 2) (p : Nat) :
    (s.setPte t i w).tab pt d' p = s.tab pt d' p := by
  refine hT.tab_set (i := i) (Nat.le_refl 2) ht (fun f _ hne => update_of_ne hne _ _) ?_
    d' p hd' fun hlt => absurd hlt (by omega)
  intro j hj
  rw [Phys.pte_setPte, if_neg fun h => hj h.2]

theorem Tree.tables_setLeaf (w : UInt64) :
    (s.setPte t i w).tables pt = s.tables pt := by
  ext f
  constructor
  · rintro ⟨d, p, hd, hf⟩
    exact ⟨d, p, hd, (hT.tab_setLeaf ht w hd p).symm.trans hf⟩
  · rintro ⟨d, p, hd, hf⟩
    exact ⟨d, p, hd, (hT.tab_setLeaf ht w hd p).trans hf⟩

theorem Tree.setLeaf (w : UInt64) :
    Tree (s.setPte t i w) pt := by
  refine ⟨?_, ?_⟩
  · intro d d' p p' f hd hd' hf hf'
    rw [hT.tab_setLeaf ht w hd] at hf
    rw [hT.tab_setLeaf ht w hd'] at hf'
    exact hT.inj hd hd' hf hf'
  · intro d p f j hd hf hj hv
    rw [hT.tab_setLeaf ht w (by omega)] at hf
    have hne : f ≠ t := by
      rintro rfl
      have hdepth := (hT.inj (by omega) (Nat.le_refl 2) hf ht).1
      omega
    rw [Phys.pte_setPte, if_neg fun h => hne h.1] at hv ⊢
    exact hT.inner hd hf hj hv

theorem Tree.leaf_setLeaf (hi : i < 512) (w : UInt64) :
    (s.setPte t i w).leaf pt = update (s.leaf pt) (512 * q + i) w := by
  funext v
  unfold Phys.leaf
  rw [hT.tab_setLeaf ht w (Nat.le_refl 2), update_apply]
  by_cases hv : v = 512 * q + i
  · have hq : v / 512 = q := by omega
    have hm : v % 512 = i := by omega
    rw [if_pos hv, hq, ht]
    simp only [Phys.pte_setPte, hm, and_self, if_true]
  · rw [if_neg hv]
    cases hf : s.tab pt 2 (v / 512) with
    | none => rfl
    | some f =>
      have hne : ¬(f = t ∧ v % 512 = i) := by
        rintro ⟨rfl, hm⟩
        have hq := (hT.inj (Nat.le_refl 2) (Nat.le_refl 2) hf ht).2
        omega
      simp only [Phys.pte_setPte, if_neg hne]

end

end

def Phys.addTable (s : Phys) (t i g : Nat) : Phys :=
  (s.memset g 0).setPte t i (pa2pte (addr g) ||| PTE_V)

theorem Phys.pte_addTable (s : Phys) (t i g t' j : Nat) : (s.addTable t i g).pte t' j =
    if t' = t ∧ j = i then pa2pte (addr g) ||| PTE_V else if t' = g then 0 else s.pte t' j := by
  rw [Phys.addTable, Phys.pte_setPte]
  by_cases h : t' = t ∧ j = i
  · rw [if_pos h, if_pos h]
  · rw [if_neg h, if_neg h]
    by_cases hg' : t' = g
    · subst hg'
      rw [if_pos rfl, Phys.pte, Phys.memset, Phys.setPage_self]
      exact word_zero j
    · rw [if_neg hg', Phys.pte, Phys.pte, Phys.memset, Phys.setPage_of_ne _ hg']

section AddTable
variable (hT : Tree s pt) (hd : d ≤ 1) (ht : s.tab pt d q = some t) (hi : i < 512)
  (hv : ¬ valid (s.pte t i)) (hg : g < 2 ^ 52) (hnew : g ∉ s.tables pt)
include hT hd ht hi hv hg hnew

theorem Tree.tab_addTable {d' : Nat} (hd' : d' ≤ 2) (p : Nat) :
    (s.addTable t i g).tab pt d' p =
      if d' = d + 1 ∧ p = 512 * q + i then some g else s.tab pt d' p := by
  have htg : t ≠ g := by
    rintro rfl
    exact hnew (mem_tables (by omega) ht)
  have hset := hT.tab_set (u := s.addTable t i g) (i := i) (by omega) ht
    (fun f hf hne => by
      have hfg : f ≠ g := fun he => hnew (he ▸ hf)
      rw [Phys.addTable, Phys.setPte, Phys.setPage_of_ne _ hne, Phys.memset,
        Phys.setPage_of_ne _ hfg])
    (fun j hj => by
      rw [Phys.pte_addTable, if_neg fun h => hj h.2, if_neg htg])
  -- the new table itself, and nothing below it
  have hself : (s.addTable t i g).tab pt (d + 1) (512 * q + i) = some g := by
    have hq : (512 * q + i) / 512 = q := by omega
    have hm : (512 * q + i) % 512 = i := by omega
    rw [Phys.tab, hq, hm, hset d q (by omega) (fun h => absurd h (Nat.lt_irrefl d)), ht]
    have hentry : (s.addTable t i g).pte t i = pa2pte (addr g) ||| PTE_V := by
      rw [Phys.pte_addTable, if_pos ⟨rfl, rfl⟩]
    simp only [Option.bind_some, Phys.child, hentry, if_pos (table_entry hg).1,
      (table_entry hg).2.1]
  have hgone : s.tab pt (d + 1) (512 * q + i) = none := by
    have hq : (512 * q + i) / 512 = q := by omega
    have hm : (512 * q + i) % 512 = i := by omega
    rw [Phys.tab, hq, hm, ht]
    simp only [Option.bind_some, Phys.child, if_neg hv]
  by_cases hnow : d' = d + 1 ∧ p = 512 * q + i
  · obtain ⟨rfl, rfl⟩ := hnow
    rw [if_pos ⟨rfl, rfl⟩, hself]
  · rw [if_neg hnow]
    by_cases hunder : d < d' ∧ p / 512 ^ (d' - d - 1) = 512 * q + i
    · obtain ⟨hlt, hp⟩ := hunder
      have hd2 : d' = d + 2 := by
        by_contra hne
        have hone : d' = d + 1 := by omega
        subst hone
        have hz : d + 1 - d - 1 = 0 := by omega
        rw [hz, pow_zero, Nat.div_one] at hp
        exact hnow ⟨rfl, hp⟩
      subst hd2
      have hone : d + 2 - d - 1 = 1 := by omega
      rw [hone, pow_one] at hp
      have hzero : (s.addTable t i g).pte g (p % 512) = 0 := by
        rw [Phys.pte_addTable, if_neg fun h => htg h.1.symm, if_pos rfl]
      change ((s.addTable t i g).tab pt (d + 1) (p / 512)).bind _ =
        (s.tab pt (d + 1) (p / 512)).bind _
      rw [hp, hself, hgone]
      simp only [Option.bind_some, Option.bind_none, Phys.child, hzero, if_neg not_valid_zero]
    · exact hset d' p hd' fun hlt hp => hunder ⟨hlt, hp⟩

theorem Tree.tables_addTable : (s.addTable t i g).tables pt = insert g (s.tables pt) := by
  ext f
  constructor
  · rintro ⟨d', p, hd', hf⟩
    rw [hT.tab_addTable hd ht hi hv hg hnew hd'] at hf
    split at hf
    · exact .inl (Option.some.inj hf).symm
    · exact .inr ⟨d', p, hd', hf⟩
  · rintro (rfl | ⟨d', p, hd', hf⟩)
    · refine ⟨d + 1, 512 * q + i, by omega, ?_⟩
      rw [hT.tab_addTable hd ht hi hv hg hnew (by omega), if_pos ⟨rfl, rfl⟩]
    · refine ⟨d', p, hd', ?_⟩
      rw [hT.tab_addTable hd ht hi hv hg hnew hd', if_neg, hf]
      rintro ⟨rfl, rfl⟩
      have hq : (512 * q + i) / 512 = q := by omega
      have hm : (512 * q + i) % 512 = i := by omega
      rw [Phys.tab, hq, hm, ht] at hf
      simp only [Option.bind_some, Phys.child, if_neg hv] at hf
      cases hf

theorem Tree.addTable : Tree (s.addTable t i g) pt := by
  refine ⟨?_, ?_⟩
  · intro d1 d2 p1 p2 f h1 h2 hf1 hf2
    rw [hT.tab_addTable hd ht hi hv hg hnew h1] at hf1
    rw [hT.tab_addTable hd ht hi hv hg hnew h2] at hf2
    split at hf1
    · rename_i hc1
      split at hf2
      · rename_i hc2
        exact ⟨hc1.1.trans hc2.1.symm, hc1.2.trans hc2.2.symm⟩
      · exact absurd (mem_tables h2 (Option.some.inj hf1 ▸ hf2)) hnew
    · split at hf2
      · exact absurd (mem_tables h1 (Option.some.inj hf2 ▸ hf1)) hnew
      · exact hT.inj h1 h2 hf1 hf2
  · intro d1 p f j h1 hf hj hval
    rw [hT.tab_addTable hd ht hi hv hg hnew (by omega)] at hf
    rw [Phys.pte_addTable] at hval ⊢
    split at hval
    · rename_i hc
      rw [if_pos hc]
      exact (table_entry hg).2.2
    · rename_i hc
      rw [if_neg hc]
      split at hval
      · exact absurd hval not_valid_zero
      · rename_i hfg
        rw [if_neg hfg]
        split at hf
        · exact absurd (Option.some.inj hf).symm hfg
        · exact hT.inner h1 hf hj hval

theorem Tree.leaf_addTable : (s.addTable t i g).leaf pt = s.leaf pt := by
  funext v
  unfold Phys.leaf
  rw [hT.tab_addTable hd ht hi hv hg hnew (Nat.le_refl 2)]
  have htg : t ≠ g := by
    rintro rfl
    exact hnew (mem_tables (by omega) ht)
  by_cases hnow : 2 = d + 1 ∧ v / 512 = 512 * q + i
  · have hgone : s.tab pt 2 (v / 512) = none := by
      obtain ⟨hd1, hp⟩ := hnow
      obtain rfl : d = 1 := by omega
      have hq : (512 * q + i) / 512 = q := by omega
      have hm : (512 * q + i) % 512 = i := by omega
      rw [hp, Phys.tab, hq, hm, ht]
      simp only [Option.bind_some, Phys.child, if_neg hv]
    rw [if_pos hnow, hgone]
    have hgt : ¬(g = t ∧ v % 512 = i) := fun h => htg h.1.symm
    simp only [Phys.pte_addTable, if_neg hgt, if_true]
  · rw [if_neg hnow]
    cases hf : s.tab pt 2 (v / 512) with
    | none => rfl
    | some f =>
      have hft : f ≠ t := by
        rintro rfl
        have hdepth := (hT.inj (Nat.le_refl 2) (by omega) hf ht).1
        omega
      have hfg : f ≠ g := fun he => hnew (he ▸ mem_tables (Nat.le_refl 2) hf)
      have hfi : ¬(f = t ∧ v % 512 = i) := fun h => hft h.1
      simp only [Phys.pte_addTable, if_neg hfi, if_neg hfg]

end AddTable

end Tree

structure Grown (pt : Nat) (s u : Phys) : Prop where
  moves : Moves (s.tables pt) s (u.tables pt) u
  tree : Tree u pt
  leaf : u.leaf pt = s.leaf pt
  tab : ∀ {d p t}, d ≤ 2 → s.tab pt d p = some t → u.tab pt d p = some t

section Walk
variable {s u r : Phys} {pt t g d q i : Nat} {va : UInt64} {E : String → Phys → Prop}
  {Q : Option (Nat × Nat) → Phys → Prop}

theorem Grown.trans (h : Grown pt s u) (h' : Grown pt u r) : Grown pt s r :=
  ⟨h.moves.trans h'.moves, h'.tree, h'.leaf.trans h.leaf, fun hd ht => h'.tab hd (h.tab hd ht)⟩

theorem Tree.grown (hT : Tree s pt) (hm : Moves (s.tables pt) s (s.tables pt) u)
    (hmem : u.mem = s.mem) : Grown pt s u := by
  have hsame : ∀ f ∈ s.tables pt, u.mem f = s.mem f := fun f _ => congrFun hmem f
  refine ⟨hm.congr rfl (tables_congr hsame), hT.congr hsame, leaf_congr hsame, ?_⟩
  intro d p t hd ht
  exact (tab_congr hsame d p (by omega)).trans ht

theorem Tree.grown_addTable (hT : Tree s pt) (hS : Sane s (s.tables pt)) (hd : d ≤ 1)
    (ht : s.tab pt d q = some t) (hi : i < 512) (hv : ¬ valid (s.pte t i)) (hfree : g ∈ s.free)
    (hm : Moves (s.tables pt) s (insert g (s.tables pt)) u)
    (hmem : u.mem = update s.mem g (fun _ => 5)) :
    Grown pt s (u.addTable t i g) ∧
      (u.addTable t i g).tab pt (d + 1) (512 * q + i) = some g := by
  have hnew : g ∉ s.tables pt := hS.owns.apart g hfree
  have hg : g < 2 ^ 52 := Nat.lt_trans (hS.lt (.inr hfree)) (by decide)
  have hsame : ∀ f ∈ s.tables pt, u.mem f = s.mem f := by
    intro f hf
    have hne : f ≠ g := fun he => hnew (he ▸ hf)
    rw [hmem, update_of_ne hne]
  have hTu := hT.congr hsame
  have htu : u.tab pt d q = some t := (tab_congr hsame d q (by omega)).trans ht
  have hvu : ¬ valid (u.pte t i) := by
    rw [Phys.pte, hsame t (mem_tables (by omega) ht)]
    exact hv
  have htab : u.tables pt = s.tables pt := tables_congr hsame
  have hnewu : g ∉ u.tables pt := htab ▸ hnew
  have hin : t ∈ insert g (s.tables pt) := .inr (mem_tables (by omega) ht)
  have hstore : Moves (insert g (s.tables pt)) u (insert g (s.tables pt)) (u.addTable t i g) := by
    have hSu := hS.moves hm
    have h1 := Moves.setPage hSu (Set.mem_insert g _) (fun _ => 0)
    exact h1.trans (Moves.setPage (hSu.moves h1) hin _)
  refine ⟨⟨(hm.trans hstore).congr rfl ?_, hTu.addTable hd htu hi hvu hg hnewu, ?_, ?_⟩, ?_⟩
  · rw [hTu.tables_addTable hd htu hi hvu hg hnewu, htab]
  · rw [hTu.leaf_addTable hd htu hi hvu hg hnewu, leaf_congr hsame]
  · intro d' p f hd' hf
    rw [hTu.tab_addTable hd htu hi hvu hg hnewu hd', if_neg, tab_congr hsame _ _ (by omega), hf]
    rintro ⟨rfl, rfl⟩
    have hq : (512 * q + i) / 512 = q := by omega
    have hm : (512 * q + i) % 512 = i := by omega
    rw [Phys.tab, hq, hm, ht] at hf
    simp only [Option.bind_some, Phys.child, if_neg hv] at hf
    cases hf
  · rw [hTu.tab_addTable hd htu hi hvu hg hnewu (by omega), if_pos ⟨rfl, rfl⟩]

theorem wp_walkFrom {level : Nat} (hT : Tree s pt) (hS : Sane s (s.tables pt)) (hl : level ≤ 2)
    (ht : s.tab pt (2 - level) (vpn va / 512 ^ (level + 1)) = some t)
    (hnone : ∀ u, Grown pt s u → Q none u)
    (hsome : ∀ u t, Grown pt s u → u.tab pt 2 (vpn va / 512) = some t →
      Q (some (t, vpn va % 512)) u) : wp (walkFrom va true level t) Q E s := by
  induction level generalizing s t with
  | zero =>
    have h0 : px 0 va = vpn va % 512 := by rw [px_eq (by decide), pow_zero, Nat.div_one]
    rw [walkFrom, wp_pure, h0]
    rw [Nat.zero_add, pow_one] at ht
    exact hsome s t (hT.grown (Moves.refl hS) rfl) ht
  | succ level ih =>
    have hi : px (level + 1) va = vpn va / 512 ^ (level + 1) % 512 := px_eq hl va
    have hi512 : px (level + 1) va < 512 := by
      rw [hi]
      exact Nat.mod_lt _ (by decide)
    have hup : vpn va / 512 ^ (level + 1) / 512 = vpn va / 512 ^ (level + 1 + 1) := by
      rw [Nat.div_div_eq_div_mul, ← pow_succ]
    have hdepth : 2 - level = 2 - (level + 1) + 1 := by omega
    simp only [walkFrom, wp_bind, wp_get, wp_ite, wp_pure]
    refine ⟨fun hv => ?_, fun hv => ⟨fun _ => ?_, fun hno => absurd trivial hno⟩⟩
    · refine ih hT hS (by omega) ?_ hnone hsome
      rw [hdepth, Phys.tab, hup, ht, Option.bind_some, ← hi, Phys.child, if_pos hv]
    · refine wp_kalloc hS (fun u hm hmem => hnone u (hT.grown hm hmem)) ?_
      intro g u hfree hm hmem
      obtain ⟨hgrown, htab⟩ := hT.grown_addTable hS (by omega) ht hi512 hv hfree hm hmem
      simp only [wp_bind, wp_modify]
      refine ih hgrown.tree (hS.moves hgrown.moves) (by omega) ?_
        (fun r hr => hnone r (hgrown.trans hr)) fun r t' hr => hsome r t' (hgrown.trans hr)
      have hsplit : 512 * (vpn va / 512 ^ (level + 1 + 1)) + px (level + 1) va =
          vpn va / 512 ^ (level + 1) := by
        rw [← hup, hi]
        exact Nat.div_add_mod _ 512
      rw [hsplit] at htab
      rw [hdepth]
      exact htab

theorem not_maxva_le (h : vpn va < MAXPAGE) : ¬ MAXVA ≤ va := by
  have hmax : MAXVA.toNat = MAXPAGE * PGSIZE := by decide
  rw [UInt64.le_iff_toNat_le, hmax]
  unfold vpn PGSIZE at h
  unfold PGSIZE
  omega

theorem wp_walk_alloc (hT : Tree s pt) (hS : Sane s (s.tables pt)) (hva : vpn va < MAXPAGE)
    (hnone : ∀ u, Grown pt s u → Q none u)
    (hsome : ∀ u t, Grown pt s u → u.tab pt 2 (vpn va / 512) = some t →
      Q (some (t, vpn va % 512)) u) : wp (walk pt va true) Q E s := by
  rw [walk, if_neg (not_maxva_le hva)]
  refine wp_walkFrom hT hS (Nat.le_refl 2) ?_ hnone hsome
  have hzero : vpn va / 512 ^ (2 + 1) = 0 := by
    unfold MAXPAGE at hva
    omega
  rw [hzero]
  exact s.tab_root pt

theorem wp_walkFrom_read {level : Nat} (hl : level ≤ 2)
    (ht : s.tab pt (2 - level) (vpn va / 512 ^ (level + 1)) = some t)
    (hQ : Q ((s.tab pt 2 (vpn va / 512)).map fun t => (t, vpn va % 512)) s) :
    wp (walkFrom va false level t) Q E s := by
  induction level generalizing t with
  | zero =>
    have h0 : px 0 va = vpn va % 512 := by rw [px_eq (by decide), pow_zero, Nat.div_one]
    rw [walkFrom, wp_pure, h0]
    rw [Nat.zero_add, pow_one] at ht
    rw [ht] at hQ
    exact hQ
  | succ level ih =>
    have hi : px (level + 1) va = vpn va / 512 ^ (level + 1) % 512 := px_eq hl va
    have hup : vpn va / 512 ^ (level + 1) / 512 = vpn va / 512 ^ (level + 1 + 1) := by
      rw [Nat.div_div_eq_div_mul, ← pow_succ]
    have hdepth : 2 - level = 2 - (level + 1) + 1 := by omega
    have hnext : s.tab pt (2 - level) (vpn va / 512 ^ (level + 1)) =
        s.child t (px (level + 1) va) := by
      rw [hdepth, Phys.tab, hup, ht, Option.bind_some, ← hi]
    simp only [walkFrom, wp_bind, wp_get, wp_ite, wp_pure]
    refine ⟨fun hv => ?_, fun hv => ⟨fun hno => absurd hno (by decide), fun _ => ?_⟩⟩
    · refine ih (by omega) ?_
      rw [hnext, Phys.child, if_pos hv]
    · rw [Phys.child, if_neg hv] at hnext
      have hgone : s.tab pt 2 (vpn va / 512) = none := by
        obtain rfl | rfl : level = 0 ∨ level = 1 := by omega
        · rw [Nat.zero_add, pow_one] at hnext
          exact hnext
        · have hdiv : vpn va / 512 / 512 = vpn va / 512 ^ (1 + 1) := by
            rw [Nat.div_div_eq_div_mul]
            rfl
          rw [Phys.tab, hdiv, hnext, Option.bind_none]
      rw [hgone] at hQ
      exact hQ

theorem wp_walk_read (hva : vpn va < MAXPAGE)
    (hQ : Q ((s.tab pt 2 (vpn va / 512)).map fun t => (t, vpn va % 512)) s) :
    wp (walk pt va false) Q E s := by
  rw [walk, if_neg (not_maxva_le hva)]
  refine wp_walkFrom_read (Nat.le_refl 2) ?_ hQ
  have hzero : vpn va / 512 ^ (2 + 1) = 0 := by
    unfold MAXPAGE at hva
    omega
  rw [hzero]
  exact s.tab_root pt

end Walk

-- its two specifications are all that the rest needs
attribute [irreducible] walk

end Xv6Audit.Vm
