import Xv6Audit.Vm.Walk

/-! `mappages` and `uvmunmap` of `kernel/vm.c`: a tree of tables as a map from pages to entries. -/
namespace Xv6Audit.Vm
open Function

open Prog Words

def mapPage (pagetable : Nat) (a pa perm : UInt64) : VmProg Bool := do
  match ← walk pagetable a true with
  | none => pure false
  | some (t, i) =>
    if valid ((← get).pte t i) then throw "mappages: remap"
    else do
      modify (·.setPte t i (pa2pte pa ||| perm ||| PTE_V))
      pure true

def mappagesLoop (pagetable : Nat) (perm : UInt64) : Nat → UInt64 → UInt64 → VmProg Int
  | 0, a, pa => do
    if ← mapPage pagetable a pa perm then pure 0 else pure (-1)
  | n+1, a, pa => do
    if ← mapPage pagetable a pa perm then
      mappagesLoop pagetable perm n (a + UInt64.ofNat PGSIZE) (pa + UInt64.ofNat PGSIZE)
    else pure (-1)

def mappages (pagetable : Nat) (va size pa perm : UInt64) : VmProg Int := do
  if size = 0 then throw "mappages: size"
  else
    let a := pgRoundDown va
    let last := pgRoundDown (va + size - 1)
    mappagesLoop pagetable perm ((last - a).toNat / PGSIZE) a pa

def unmapPage (pagetable : Nat) (doFree : Bool) (a : UInt64) : VmProg Unit := do
  match ← walk pagetable a false with
  | none => throw "uvmunmap: walk"
  | some (t, i) =>
    let pte := (← get).pte t i
    if ¬ valid pte then throw "uvmunmap: not mapped"
    else if pteFlags pte = PTE_V then throw "uvmunmap: not a leaf"
    else do
      if doFree then kfree (pte2page pte) else pure ()
      modify (·.setPte t i 0)

def uvmunmapLoop (pagetable : Nat) (doFree : Bool) : Nat → UInt64 → VmProg Unit
  | 0, _ => pure ()
  | n+1, a => do
    unmapPage pagetable doFree a
    uvmunmapLoop pagetable doFree n (a + UInt64.ofNat PGSIZE)

def uvmunmap (pagetable : Nat) (va npages : UInt64) (doFree : Bool) : VmProg Unit := do
  if va % UInt64.ofNat PGSIZE ≠ 0 then throw "uvmunmap: not aligned"
  else
    let stop := va + npages * UInt64.ofNat PGSIZE
    uvmunmapLoop pagetable doFree (if va < stop then (stop - va).toNat / PGSIZE else 0) va

def overlay (m : Nat → UInt64) (v n : Nat) (w : Nat → UInt64) : Nat → UInt64 := fun x =>
  if v ≤ x ∧ x < v + n then w (x - v) else m x

structure Shows (pt : Nat) (s u : Phys) (m : Nat → UInt64) : Prop where
  moves : Moves (s.tables pt) s (u.tables pt) u
  sub : s.tables pt ⊆ u.tables pt
  tree : Tree u pt
  leaf : u.leaf pt = m

section Overlay
variable {m : Nat → UInt64} {v n : Nat} {w : Nat → UInt64}

theorem overlay_zero : overlay m v 0 w = m := by
  funext x
  rw [overlay, if_neg (by omega)]

theorem overlay_succ :
    overlay (update m v (w 0)) (v + 1) n (fun j => w (j + 1)) = overlay m v (n + 1) w := by
  funext x
  unfold overlay
  by_cases hx : x = v
  · subst hx
    rw [if_neg (by omega), if_pos (by omega), update_self, Nat.sub_self]
  · rw [update_of_ne hx]
    by_cases hin : v + 1 ≤ x ∧ x < v + 1 + n
    · have hsub : x - (v + 1) + 1 = x - v := by omega
      rw [if_pos hin, if_pos (by omega), ← hsub]
    · rw [if_neg hin, if_neg (by omega)]

end Overlay

/-! `mappages`. -/

section Mappages
variable {s u r : Phys} {pt n : Nat} {m m' : Nat → UInt64} {a pa perm : UInt64}
  {E : String → Phys → Prop}

theorem Shows.trans (h : Shows pt s u m) (h' : Shows pt u r m') : Shows pt s r m' :=
  ⟨h.moves.trans h'.moves, h.sub.trans h'.sub, h'.tree, h'.leaf⟩

theorem Grown.shows (h : Grown pt s u) : Shows pt s u (s.leaf pt) :=
  ⟨h.moves, fun _ ⟨d, p, hd, ht⟩ => ⟨d, p, hd, h.tab hd ht⟩, h.tree, h.leaf⟩

theorem leaf_of_tab {v t : Nat} (h : s.tab pt 2 (v / 512) = some t) :
    s.leaf pt v = s.pte t (v % 512) := by
  unfold Phys.leaf
  rw [h]

theorem Tree.shows_setLeaf {v t : Nat} (hT : Tree s pt) (hS : Sane s (s.tables pt))
    (ht : s.tab pt 2 (v / 512) = some t) (w : UInt64) :
    Shows pt s (s.setPte t (v % 512) w) (update (s.leaf pt) v w) := by
  have hv : 512 * (v / 512) + v % 512 = v := Nat.div_add_mod v 512
  have hleaf := hT.leaf_setLeaf ht (Nat.mod_lt v (by decide)) w
  rw [hv] at hleaf
  refine ⟨?_, (hT.tables_setLeaf ht w).symm.subset, hT.setLeaf ht w, hleaf⟩
  exact (Moves.setPage hS (mem_tables (Nat.le_refl 2) ht) _).congr rfl (hT.tables_setLeaf ht w)

theorem wp_mapPage (hT : Tree s pt) (hS : Sane s (s.tables pt)) (ha : vpn a < MAXPAGE)
    (hfree : ¬ valid (s.leaf pt (vpn a))) {Q : Bool → Phys → Prop}
    (hno : ∀ u, Shows pt s u (s.leaf pt) → Q false u)
    (hyes : ∀ u, Shows pt s u
      (update (s.leaf pt) (vpn a) (pa2pte pa ||| perm ||| PTE_V)) → Q true u) :
    wp (mapPage pt a pa perm) Q E s := by
  simp only [mapPage, wp_bind]
  refine wp_walk_alloc hT hS ha (fun u hu => hno u hu.shows) fun u t hu ht => ?_
  have hentry : u.pte t (vpn a % 512) = s.leaf pt (vpn a) := by rw [← hu.leaf, leaf_of_tab ht]
  simp only [wp_bind, wp_get, wp_ite, wp_throw, wp_modify, wp_pure, hentry]
  refine ⟨fun hv => absurd hv hfree, fun _ => hyes _ ?_⟩
  have hset := hu.tree.shows_setLeaf (hS.moves hu.moves) ht (pa2pte pa ||| perm ||| PTE_V)
  rw [hu.leaf] at hset
  exact hu.shows.trans hset

def entries (pa perm : UInt64) (j : Nat) : UInt64 :=
  pa2pte (pa + UInt64.ofNat (j * PGSIZE)) ||| perm ||| PTE_V

theorem entries_zero (pa perm : UInt64) : entries pa perm 0 = pa2pte pa ||| perm ||| PTE_V := by
  simp [entries]

theorem entries_succ (pa perm : UInt64) (j : Nat) :
    entries (pa + UInt64.ofNat PGSIZE) perm j = entries pa perm (j + 1) := by
  have hsum : UInt64.ofNat PGSIZE + UInt64.ofNat (j * PGSIZE) =
      UInt64.ofNat ((j + 1) * PGSIZE) := by
    rw [← UInt64.ofNat_add, Nat.add_mul, Nat.one_mul, Nat.add_comm]
  rw [entries, entries, UInt64.add_assoc, hsum]

theorem vpn_next (h : vpn a + 1 < MAXPAGE) : vpn (a + UInt64.ofNat PGSIZE) = vpn a + 1 := by
  have hsize : (UInt64.ofNat PGSIZE).toNat = 4096 := rfl
  unfold vpn MAXPAGE PGSIZE at *
  rw [UInt64.toNat_add, hsize]
  omega

theorem wp_mappagesLoop (hT : Tree s pt) (hS : Sane s (s.tables pt)) (ha : vpn a + n < MAXPAGE)
    (hfree : ∀ j, j ≤ n → ¬ valid (s.leaf pt (vpn a + j))) {Q : Int → Phys → Prop}
    (hno : ∀ u k, k ≤ n → Shows pt s u (overlay (s.leaf pt) (vpn a) k (entries pa perm)) → Q (-1) u)
    (hyes : ∀ u, Shows pt s u (overlay (s.leaf pt) (vpn a) (n + 1) (entries pa perm)) → Q 0 u) :
    wp (mappagesLoop pt perm n a pa) Q E s := by
  induction n generalizing s a pa with
  | zero =>
    simp only [mappagesLoop, wp_bind]
    refine wp_mapPage hT hS (by omega) (hfree 0 (Nat.le_refl 0)) (fun u hu => ?_) fun u hu => ?_
    · exact hno u 0 (Nat.le_refl 0) (by rw [overlay_zero]; exact hu)
    · rw [← entries_zero] at hu
      refine hyes u ?_
      rw [← overlay_succ, overlay_zero]
      exact hu
  | succ n ih =>
    simp only [mappagesLoop, wp_bind]
    refine wp_mapPage hT hS (by omega) (hfree 0 (Nat.zero_le _)) (fun u hu => ?_) fun u hu => ?_
    · exact hno u 0 (Nat.zero_le _) (by rw [overlay_zero]; exact hu)
    · rw [← entries_zero] at hu
      have hnext := vpn_next (a := a) (by omega)
      refine ih hu.tree (hS.moves hu.moves) (by omega) ?_ ?_ ?_
      · intro j hj
        rw [hnext, hu.leaf, update_of_ne (by omega)]
        have hadd : vpn a + 1 + j = vpn a + (j + 1) := by omega
        rw [hadd]
        exact hfree (j + 1) (by omega)
      · intro r k hk hr
        rw [hnext, hu.leaf, funext (entries_succ pa perm), overlay_succ] at hr
        exact hno r (k + 1) (by omega) (hu.trans hr)
      · intro r hr
        rw [hnext, hu.leaf, funext (entries_succ pa perm), overlay_succ] at hr
        exact hyes r (hu.trans hr)

theorem pgRoundDown_toNat (va : UInt64) : (pgRoundDown va).toNat = vpn va * PGSIZE := by
  have hsize : (UInt64.ofNat PGSIZE).toNat = 4096 := rfl
  have hle : va % UInt64.ofNat PGSIZE ≤ va := by
    rw [UInt64.le_iff_toNat_le, UInt64.toNat_mod]
    exact Nat.mod_le _ _
  rw [pgRoundDown, UInt64.toNat_sub_of_le _ _ hle, UInt64.toNat_mod, hsize, vpn, PGSIZE]
  omega

theorem vpn_pgRoundDown (va : UInt64) : vpn (pgRoundDown va) = vpn va := by
  rw [vpn, pgRoundDown_toNat]
  exact Nat.mul_div_cancel _ (by decide)

theorem last_toNat {va size : UInt64} (h0 : size ≠ 0)
    (hmax : va.toNat + size.toNat ≤ MAXPAGE * PGSIZE) :
    (va + size - 1).toNat = va.toNat + size.toNat - 1 := by
  have hpos : 0 < size.toNat := by
    rw [Nat.pos_iff_ne_zero, ne_eq, ← UInt64.toNat_zero, UInt64.toNat_inj]
    exact h0
  unfold MAXPAGE PGSIZE at hmax
  have hsum : (va + size).toNat = va.toNat + size.toNat := by
    rw [UInt64.toNat_add]
    omega
  have hle : 1 ≤ va + size := by
    rw [UInt64.le_iff_toNat_le, hsum, UInt64.toNat_one]
    omega
  rw [UInt64.toNat_sub_of_le _ _ hle, hsum, UInt64.toNat_one]

theorem wp_mappages {va size : UInt64} (hT : Tree s pt) (hS : Sane s (s.tables pt)) (h0 : size ≠ 0)
    (hmax : va.toNat + size.toNat ≤ MAXPAGE * PGSIZE)
    (hfree : ∀ v, vpn va ≤ v → v ≤ vpn (va + size - 1) → ¬ valid (s.leaf pt v))
    {Q : Int → Phys → Prop}
    (hno : ∀ u k, vpn va + k ≤ vpn (va + size - 1) →
      Shows pt s u (overlay (s.leaf pt) (vpn va) k (entries pa perm)) → Q (-1) u)
    (hyes : ∀ u, Shows pt s u
      (overlay (s.leaf pt) (vpn va) (vpn (va + size - 1) - vpn va + 1) (entries pa perm)) → Q 0 u) :
    wp (mappages pt va size pa perm) Q E s := by
  have hlast := last_toNat h0 hmax
  have hpos : 0 < size.toNat := by
    rw [Nat.pos_iff_ne_zero, ne_eq, ← UInt64.toNat_zero, UInt64.toNat_inj]
    exact h0
  have hle : vpn va ≤ vpn (va + size - 1) := by
    unfold vpn
    rw [hlast]
    exact Nat.div_le_div_right (by omega)
  have hrounds : (pgRoundDown (va + size - 1) - pgRoundDown va).toNat / PGSIZE =
      vpn (va + size - 1) - vpn va := by
    have hord : pgRoundDown va ≤ pgRoundDown (va + size - 1) := by
      rw [UInt64.le_iff_toNat_le, pgRoundDown_toNat, pgRoundDown_toNat]
      exact Nat.mul_le_mul_right _ hle
    rw [UInt64.toNat_sub_of_le _ _ hord, pgRoundDown_toNat, pgRoundDown_toNat, ← Nat.sub_mul]
    exact Nat.mul_div_cancel _ (by decide)
  have hbound : vpn (va + size - 1) < MAXPAGE := by
    unfold vpn
    rw [hlast, Nat.div_lt_iff_lt_mul (by decide)]
    omega
  rw [mappages, if_neg h0]
  simp only [hrounds]
  refine wp_mappagesLoop hT hS ?_ ?_ ?_ ?_
  · rw [vpn_pgRoundDown]
    omega
  · intro j hj
    rw [vpn_pgRoundDown]
    exact hfree _ (by omega) (by omega)
  · intro u k hk hu
    rw [vpn_pgRoundDown] at hu
    exact hno u k (by omega) hu
  · intro u hu
    rw [vpn_pgRoundDown] at hu
    exact hyes u hu

end Mappages

/-! `uvmunmap`. -/

def given (doFree : Bool) (m : Nat → UInt64) (v n : Nat) : Set Nat :=
  {f | doFree = true ∧ ∃ j, j < n ∧ f = pte2page (m (v + j))}

/-- The `n` pages from `v` on can be unmapped: they are mapped, and if their frames are to be given
back, these are different pages of `A` that hold no table. -/
structure Removable (s : Phys) (pt : Nat) (doFree : Bool) (v n : Nat) (A : Set Nat) : Prop where
  tree : Tree s pt
  sane : Sane s A
  tables : s.tables pt ⊆ A
  max : v + n ≤ MAXPAGE
  leafs : ∀ j, j < n → valid (s.leaf pt (v + j)) ∧ pteFlags (s.leaf pt (v + j)) ≠ PTE_V
  frames : doFree = true → ∀ j, j < n →
    pte2page (s.leaf pt (v + j)) ∈ A ∧ pte2page (s.leaf pt (v + j)) ∉ s.tables pt
  inj : doFree = true → ∀ j j', j < n → j' < n →
    pte2page (s.leaf pt (v + j)) = pte2page (s.leaf pt (v + j')) → j = j'

structure Drops (pt : Nat) (A : Set Nat) (s u : Phys) (F : Set Nat) (m : Nat → UInt64) : Prop where
  moves : Moves A s (A \ F) u
  tables : u.tables pt = s.tables pt
  tree : Tree u pt
  leaf : u.leaf pt = m

section Unmap
variable {s u r : Phys} {pt v n : Nat} {doFree : Bool} {a : UInt64} {A : Set Nat}
  {E : String → Phys → Prop}

theorem tab_of_leaf (h : s.leaf pt v ≠ 0) :
    ∃ t, s.tab pt 2 (v / 512) = some t ∧ s.leaf pt v = s.pte t (v % 512) := by
  cases ht : s.tab pt 2 (v / 512) with
  | none =>
    unfold Phys.leaf at h
    rw [ht] at h
    exact absurd rfl h
  | some t => exact ⟨t, rfl, leaf_of_tab ht⟩

theorem ne_zero_of_valid {pte : UInt64} (h : valid pte) : pte ≠ 0 := by
  rintro rfl
  exact not_valid_zero h

theorem Tree.drops_setLeaf {t : Nat} (hT : Tree s pt) (hS : Sane s A) (hsub : s.tables pt ⊆ A)
    (ht : s.tab pt 2 (v / 512) = some t) (w : UInt64) :
    Drops pt A s (s.setPte t (v % 512) w) ∅ (update (s.leaf pt) v w) := by
  have hset := hT.shows_setLeaf (hS.mono hsub) ht w
  refine ⟨?_, hT.tables_setLeaf ht w, hset.tree, hset.leaf⟩
  rw [Set.sdiff_empty]
  exact Moves.setPage hS (hsub (mem_tables (Nat.le_refl 2) ht)) _

variable {Q : Unit → Phys → Prop}

theorem wp_unmapPage (h : Removable s pt doFree v (n + 1) A) (ha : vpn a = v)
    (hQ : ∀ u, Drops pt A s u (given doFree (s.leaf pt) v 1) (update (s.leaf pt) v 0) →
      Q () u) : wp (unmapPage pt doFree a) Q E s := by
  subst ha
  obtain ⟨hv, hflags⟩ := h.leafs 0 (by omega)
  rw [Nat.add_zero] at hv hflags
  obtain ⟨t, ht, hentry⟩ := tab_of_leaf (ne_zero_of_valid hv)
  have hmax := h.max
  simp only [unmapPage, wp_bind]
  refine wp_walk_read (by omega) ?_
  rw [ht]
  simp only [Option.map_some, wp_bind, wp_get, wp_ite, wp_throw, ← hentry]
  refine ⟨fun hno => absurd hv hno, fun _ => ⟨fun hno => absurd hno hflags, fun _ => ?_⟩⟩
  cases doFree with
  | false =>
    have hnone : given false (s.leaf pt) (vpn a) 1 = ∅ := by
      ext f
      simp [given]
    refine ⟨fun hno => absurd hno (by decide), fun _ => ?_⟩
    rw [wp_modify]
    refine hQ _ ?_
    rw [hnone]
    exact h.tree.drops_setLeaf h.sane h.tables ht 0
  | true =>
    obtain ⟨hfA, hfT⟩ := h.frames rfl 0 (by omega)
    rw [Nat.add_zero] at hfA hfT
    have hone : given true (s.leaf pt) (vpn a) 1 = {pte2page (s.leaf pt (vpn a))} := by
      ext f
      simp [given]
    refine ⟨fun _ => ?_, fun hno => absurd rfl hno⟩
    refine wp_kfree h.sane hfA fun u hm hmem => ?_
    rw [wp_modify]
    have hsame : ∀ f ∈ s.tables pt, u.mem f = s.mem f := by
      intro f hf
      have hne : f ≠ pte2page (s.leaf pt (vpn a)) := fun he => hfT (he ▸ hf)
      rw [hmem, update_of_ne hne]
    have hsub : u.tables pt ⊆ A \ {pte2page (s.leaf pt (vpn a))} := by
      rw [tables_congr hsame]
      exact fun f hf => ⟨h.tables hf, fun he => hfT (he ▸ hf)⟩
    have htu : u.tab pt 2 (vpn a / 512) = some t :=
      (tab_congr hsame _ _ (by decide)).trans ht
    have hdrop := (h.tree.congr hsame).drops_setLeaf (h.sane.moves hm) hsub htu 0
    rw [leaf_congr hsame] at hdrop
    refine hQ _ ⟨?_, hdrop.tables.trans (tables_congr hsame), hdrop.tree, hdrop.leaf⟩
    rw [hone]
    have hmoves := hdrop.moves
    rw [Set.sdiff_empty] at hmoves
    exact hm.trans hmoves

theorem given_succ (m : Nat → UInt64) (w : UInt64) :
    given doFree m v 1 ∪ given doFree (update m v w) (v + 1) n =
      given doFree m v (n + 1) := by
  ext f
  constructor
  · rintro (⟨hd, j, hj, rfl⟩ | ⟨hd, j, hj, rfl⟩)
    · exact ⟨hd, j, by omega, rfl⟩
    · refine ⟨hd, j + 1, by omega, ?_⟩
      rw [update_of_ne (by omega)]
      congr 2
      omega
  · rintro ⟨hd, j, hj, rfl⟩
    by_cases hj0 : j = 0
    · exact .inl ⟨hd, j, by omega, rfl⟩
    · refine .inr ⟨hd, j - 1, by omega, ?_⟩
      rw [update_of_ne (by omega)]
      congr 2
      omega

theorem Removable.next (h : Removable s pt doFree v (n + 1) A)
    (hu : Drops pt A s u (given doFree (s.leaf pt) v 1) (update (s.leaf pt) v 0)) :
    Removable u pt doFree (v + 1) n (A \ given doFree (s.leaf pt) v 1) := by
  have hleaf : ∀ j, u.leaf pt (v + 1 + j) = s.leaf pt (v + (j + 1)) := by
    intro j
    have hadd : v + (j + 1) = v + 1 + j := by omega
    rw [hu.leaf, update_of_ne (by omega), hadd]
  have hmax := h.max
  refine ⟨hu.tree, h.sane.moves hu.moves, ?_, by omega, ?_, ?_, ?_⟩
  · rw [hu.tables]
    intro f hf
    refine ⟨h.tables hf, ?_⟩
    rintro ⟨hd, j, hj, rfl⟩
    exact (h.frames hd j (by omega)).2 hf
  · intro j hj
    rw [hleaf]
    exact h.leafs (j + 1) (by omega)
  · intro hd j hj
    rw [hleaf, hu.tables]
    refine ⟨⟨(h.frames hd (j + 1) (by omega)).1, ?_⟩, (h.frames hd (j + 1) (by omega)).2⟩
    rintro ⟨-, j', hj', he⟩
    have := h.inj hd (j + 1) j' (by omega) (by omega) he
    omega
  · intro hd j j' hj hj' he
    rw [hleaf, hleaf] at he
    have := h.inj hd (j + 1) (j' + 1) (by omega) (by omega) he
    omega

theorem wp_uvmunmapLoop (h : Removable s pt doFree v n A) (ha : vpn a = v)
    (hQ : ∀ u, Drops pt A s u (given doFree (s.leaf pt) v n)
      (overlay (s.leaf pt) v n fun _ => 0) → Q () u) :
    wp (uvmunmapLoop pt doFree n a) Q E s := by
  induction n generalizing s v a A with
  | zero =>
    have hnone : given doFree (s.leaf pt) v 0 = ∅ := by
      ext f
      simp [given]
    rw [uvmunmapLoop, wp_pure]
    refine hQ s ?_
    rw [hnone, overlay_zero]
    refine ⟨?_, rfl, h.tree, rfl⟩
    rw [Set.sdiff_empty]
    exact Moves.refl h.sane
  | succ n ih =>
    rw [uvmunmapLoop, wp_bind]
    refine wp_unmapPage h ha fun u hu => ?_
    cases n with
    | zero =>
      rw [uvmunmapLoop, wp_pure]
      refine hQ u ?_
      rw [← overlay_succ, overlay_zero]
      exact hu
    | succ n =>
      have hmax := h.max
      have hnext : vpn (a + UInt64.ofNat PGSIZE) = v + 1 := by
        rw [vpn_next (by omega), ha]
      refine ih (h.next hu) hnext fun r hr => hQ r ?_
      refine ⟨?_, hr.tables.trans hu.tables, hr.tree, ?_⟩
      · have hmoves := hu.moves.trans hr.moves
        rw [Set.sdiff_sdiff, hu.leaf, given_succ] at hmoves
        exact hmoves
      · rw [hr.leaf, hu.leaf]
        exact overlay_succ (w := fun _ => 0)

theorem wp_uvmunmap {npages : UInt64} (h : Removable s pt doFree v npages.toNat A) (ha : vpn a = v)
    (haligned : a.toNat % PGSIZE = 0)
    (hQ : ∀ u, Drops pt A s u (given doFree (s.leaf pt) v npages.toNat)
      (overlay (s.leaf pt) v npages.toNat fun _ => 0) → Q () u) :
    wp (uvmunmap pt a npages doFree) Q E s := by
  have hsize : (UInt64.ofNat PGSIZE).toNat = 4096 := rfl
  have hmod : ¬ a % UInt64.ofNat PGSIZE ≠ 0 := by
    rw [not_not, ← UInt64.toNat_inj, UInt64.toNat_mod]
    exact haligned
  have hmax := h.max
  subst ha
  have hstop : (a + npages * UInt64.ofNat PGSIZE).toNat = a.toNat + npages.toNat * 4096 := by
    unfold vpn MAXPAGE PGSIZE at *
    rw [UInt64.toNat_add, UInt64.toNat_mul, hsize]
    omega
  have hrounds : (if a < a + npages * UInt64.ofNat PGSIZE then
      (a + npages * UInt64.ofNat PGSIZE - a).toNat / PGSIZE else 0) = npages.toNat := by
    have hle : a ≤ a + npages * UInt64.ofNat PGSIZE := by
      rw [UInt64.le_iff_toNat_le, hstop]
      exact Nat.le_add_right _ _
    have hpages : (a + npages * UInt64.ofNat PGSIZE - a).toNat / PGSIZE = npages.toNat := by
      rw [UInt64.toNat_sub_of_le _ _ hle, hstop, Nat.add_sub_cancel_left]
      exact Nat.mul_div_cancel _ (by decide)
    split
    · exact hpages
    · rename_i hno
      rw [UInt64.lt_iff_toNat_lt, hstop] at hno
      omega
  rw [uvmunmap, if_neg hmod]
  simp only [hrounds]
  exact wp_uvmunmapLoop h rfl hQ

end Unmap

attribute [irreducible] mappages uvmunmap

/-! The tables as a finite map. -/

def Phys.translate (s : Phys) (pt v : Nat) : Option (Nat × UInt64) :=
  if valid (s.leaf pt v) then some (pte2page (s.leaf pt v), pteFlags (s.leaf pt v)) else none

def mapsTo (m : Nat → Option (Nat × UInt64)) (v n : Nat) (pa flags : UInt64) :
    Nat → Option (Nat × UInt64) := fun x =>
  if v ≤ x ∧ x < v + n then some ((vpn pa + (x - v)) % 2 ^ 52, flags) else m x

section Translate
variable {s u : Phys} {pt v n : Nat} {pa perm : UInt64}

theorem translate_none : s.translate pt v = none ↔ ¬ valid (s.leaf pt v) := by
  unfold Phys.translate
  split <;> simp_all

theorem vpn_add (pa : UInt64) (j : Nat) :
    vpn (pa + UInt64.ofNat (j * PGSIZE)) = (vpn pa + j) % 2 ^ 52 := by
  unfold vpn PGSIZE
  rw [UInt64.toNat_add, UInt64.toNat_ofNat']
  omega

theorem translate_entries (hp : perm.toNat < 1024)
    (h : u.leaf pt = overlay (s.leaf pt) v n (entries pa perm)) :
    u.translate pt = mapsTo (s.translate pt) v n pa (perm ||| PTE_V) := by
  funext x
  unfold Phys.translate mapsTo
  rw [h, overlay]
  split
  · rw [entries, if_pos (valid_leaf _ _), pte2page_leaf _ hp, pteFlags_leaf _ hp, vpn_add]
  · rfl

theorem translate_unmapped (h : u.leaf pt = overlay (s.leaf pt) v n fun _ => 0) :
    u.translate pt = fun x => if v ≤ x ∧ x < v + n then none else s.translate pt x := by
  funext x
  unfold Phys.translate
  rw [h, overlay]
  split
  · rw [if_neg not_valid_zero]
  · rfl

end Translate

/-- A tree of tables is a finite map from pages to pages of memory with flags. `mappages` of a range
that is not mapped adds this range, or a part of it from its start on when it runs out of
memory; `walk` adds nothing; `uvmunmap` takes exactly its range away. -/
theorem tables_are_finite_map (s : Phys) (pt : Nat) (hT : Tree s pt) (hS : Sane s (s.tables pt)) :
    (∀ va size pa perm : UInt64, va.toNat + size.toNat ≤ MAXPAGE * PGSIZE → perm.toNat < 1024 →
      (∀ v, vpn va ≤ v → v ≤ vpn (va + size - 1) → s.translate pt v = none) →
      wp (mappages pt va size pa perm) (fun r u => Tree u pt ∧
        ∃ n, u.translate pt = mapsTo (s.translate pt) (vpn va) n pa (perm ||| PTE_V) ∧
          (r = 0 ∧ vpn va + n = vpn (va + size - 1) + 1 ∨
            r = -1 ∧ vpn va + n ≤ vpn (va + size - 1)))
        (fun e _ => e = "mappages: size" ∧ size = 0) s) ∧
    (∀ va : UInt64, vpn va < MAXPAGE → wp (walk pt va true)
      (fun _ u => Tree u pt ∧ u.translate pt = s.translate pt) (fun _ _ => False) s) ∧
    ∀ (va npages : UInt64) (doFree : Bool) (A : Set Nat), va.toNat % PGSIZE = 0 →
      Removable s pt doFree (vpn va) npages.toNat A → wp (uvmunmap pt va npages doFree)
        (fun _ u => Tree u pt ∧ u.translate pt = fun v =>
          if vpn va ≤ v ∧ v < vpn va + npages.toNat then none else s.translate pt v)
        (fun _ _ => False) s := by
  refine ⟨?_, ?_, ?_⟩
  · intro va size pa perm hmax hp hfree
    by_cases h0 : size = 0
    · rw [mappages, if_pos h0]
      exact ⟨rfl, h0⟩
    · have hlast := last_toNat h0 hmax
      have hle : vpn va ≤ vpn (va + size - 1) := by
        have hpos : size.toNat ≠ 0 := fun h => h0 (UInt64.toNat_inj.mp h)
        unfold vpn
        rw [hlast]
        exact Nat.div_le_div_right (by omega)
      refine wp_mappages hT hS h0 hmax (fun v h1 h2 => translate_none.mp (hfree v h1 h2)) ?_ ?_
      · intro u k hk hu
        exact ⟨hu.tree, k, translate_entries hp hu.leaf, .inr ⟨rfl, hk⟩⟩
      · intro u hu
        exact ⟨hu.tree, _, translate_entries hp hu.leaf, .inl ⟨rfl, by omega⟩⟩
  · intro va hva
    have hsame : ∀ u, Grown pt s u → Tree u pt ∧ u.translate pt = s.translate pt := by
      intro u hu
      refine ⟨hu.tree, funext fun v => ?_⟩
      rw [Phys.translate, hu.leaf]
      rfl
    exact wp_walk_alloc hT hS hva hsame fun u t hu _ => hsame u hu
  · intro va npages doFree A haligned h
    exact wp_uvmunmap h rfl haligned fun u hu => ⟨hu.tree, translate_unmapped hu.leaf⟩

def bareRoot : Phys where
  mem := fun _ _ => 0
  free := [0x80001, 0x80002]
  first := 0x80000
  fails := []

theorem bareRoot_pte (i : Nat) : bareRoot.pte 0x80000 i = 0 := word_zero i

theorem bareRoot_sane : Sane bareRoot (bareRoot.tables 0x80000) := by
  rw [tables_zero bareRoot_pte]
  refine ⟨⟨by decide, ?_⟩, ?_⟩
  · rintro f hf rfl
    exact absurd hf (by decide)
  · rintro f (rfl | hf)
    · decide
    · have hall : ∀ f ∈ bareRoot.free, bareRoot.InRange f := by decide
      exact hall f hf

theorem bareRoot_maps (va size pa perm : UInt64) (h0 : size ≠ 0)
    (hmax : va.toNat + size.toNat ≤ MAXPAGE * PGSIZE)
    (hrun : (mappages 0x80000 va size pa perm bareRoot).1.toOption = some 0) :
    Shows 0x80000 bareRoot (mappages 0x80000 va size pa perm bareRoot).2
      (overlay (fun _ => 0) (vpn va) (vpn (va + size - 1) - vpn va + 1) (entries pa perm)) ∧
    ∀ f ∈ (mappages 0x80000 va size pa perm bareRoot).2.tables 0x80000,
      f ∈ [0x80000, 0x80001, 0x80002] := by
  have hzero := leaf_zero bareRoot_pte
  have hmap : wp (mappages 0x80000 va size pa perm) (fun r u => r = 0 → Shows 0x80000 bareRoot u
      (overlay (fun _ => 0) (vpn va) (vpn (va + size - 1) - vpn va + 1) (entries pa perm)))
      (fun _ _ => False) bareRoot := by
    refine wp_mappages (Tree.zero bareRoot_pte) bareRoot_sane h0 hmax ?_ ?_ ?_
    · intro v _ _
      rw [hzero]
      exact not_valid_zero
    · exact fun u k _ _ h => absurd h (by decide)
    · intro u hu _
      rw [hzero] at hu
      exact hu
  have hshow := wp_of_run hmap (Prod.ext (toOption_eq_some hrun) rfl) rfl
  refine ⟨hshow, fun f hf => ?_⟩
  have hpool := (hshow.moves.own.pool f).mp (.inl hf)
  rw [tables_zero bareRoot_pte] at hpool
  obtain rfl | hfree := hpool
  · decide
  · exact List.mem_cons_of_mem _ hfree

/-- Two pages, mapped with the two free pages as tables; then the first is unmapped and its frame
given back. -/
theorem tables_are_finite_map_bare :
    ∃ u, mappages 0x80000 0x1000 0x2000 0x87000000 (PTE_R ||| PTE_U) bareRoot = (.ok 0, u) ∧
      Tree u 0x80000 ∧ u.translate 0x80000 1 = some (0x87000, 0x13) ∧
      u.translate 0x80000 2 = some (0x87001, 0x13) ∧ u.translate 0x80000 3 = none ∧
      wp (uvmunmap 0x80000 0x1000 1 true) (fun _ w => Tree w 0x80000 ∧
        w.translate 0x80000 1 = none ∧ w.translate 0x80000 2 = some (0x87001, 0x13))
        (fun _ _ => False) u := by
  have hrun : (mappages 0x80000 0x1000 0x2000 0x87000000 (PTE_R ||| PTE_U) bareRoot).1.toOption =
      some 0 := by decide +kernel
  have hfree : (mappages 0x80000 0x1000 0x2000 0x87000000 (PTE_R ||| PTE_U) bareRoot).2.free = [] := by
    decide +kernel
  obtain ⟨hshow, htab⟩ := bareRoot_maps _ _ _ _ (by decide) (by decide) hrun
  obtain ⟨u, hu⟩ : ∃ u, u = (mappages 0x80000 0x1000 0x2000 0x87000000 (PTE_R ||| PTE_U)
    bareRoot).2 := ⟨_, rfl⟩
  have hok : mappages 0x80000 0x1000 0x2000 0x87000000 (PTE_R ||| PTE_U) bareRoot = (.ok 0, u) :=
    Prod.ext (toOption_eq_some hrun) hu.symm
  rw [← hu] at hshow htab hfree
  have hT : Tree bareRoot 0x80000 := Tree.zero bareRoot_pte
  have hnone : ∀ v, bareRoot.translate 0x80000 v = none := by
    intro v
    rw [translate_none, leaf_zero bareRoot_pte]
    exact not_valid_zero
  have hmap := (tables_are_finite_map bareRoot 0x80000 hT bareRoot_sane).1 0x1000 0x2000 0x87000000
    (PTE_R ||| PTE_U) (by decide) (by decide) fun v _ _ => hnone v
  obtain ⟨htree, n, htrans, hn⟩ := wp_of_run hmap hok
  have hfirst : vpn 0x1000 = 1 := by decide
  have hlast : vpn (0x1000 + 0x2000 - 1) = 2 := by decide
  rw [hfirst, hlast] at hn
  obtain rfl : n = 2 := by omega
  have h2 : u.translate 0x80000 2 = some (0x87001, 0x13) := by
    rw [htrans]
    decide
  refine ⟨u, hok, htree, by rw [htrans]; decide, h2, by rw [htrans]; exact hnone 3, ?_⟩
  have hsane := bareRoot_sane.moves hshow.moves
  have hleaf : u.leaf 0x80000 1 = entries 0x87000000 (PTE_R ||| PTE_U) 0 := by
    rw [hshow.leaf]
    rfl
  have hframe : pte2page (u.leaf 0x80000 1) = 0x87000 := by
    rw [hleaf]
    decide
  have hone : ∀ j, j < (1 : UInt64).toNat → vpn 0x1000 + j = 1 := by
    intro j hj
    change j < 1 at hj
    omega
  have hrem : Removable u 0x80000 true (vpn 0x1000) (1 : UInt64).toNat
      (insert 0x87000 (u.tables 0x80000)) := by
    refine ⟨htree, ⟨⟨by rw [hfree]; exact List.nodup_nil, by rw [hfree]; simp⟩, ?_⟩,
      Set.subset_insert .., by decide, fun j hj => ?_, fun _ j hj => ?_, fun _ j j' hj hj' _ => ?_⟩
    · rintro f ((rfl | hf) | hf)
      · rw [Phys.InRange, hshow.moves.first]
        decide
      · exact hsane.range f (.inl hf)
      · exact hsane.range f (.inr hf)
    · rw [hone j hj, hleaf]
      decide
    · rw [hone j hj, hframe]
      exact ⟨Set.mem_insert .., fun hf => absurd (htab _ hf) (by decide)⟩
    · have := hone j hj
      have := hone j' hj'
      omega
  have hun := (tables_are_finite_map u 0x80000 htree hsane).2.2 0x1000 1 true _ (by decide) hrem
  refine wp_post hun ?_
  rintro - w ⟨hw, hwt⟩
  refine ⟨hw, by rw [hwt]; rfl, ?_⟩
  rw [hwt]
  exact h2

end Xv6Audit.Vm
