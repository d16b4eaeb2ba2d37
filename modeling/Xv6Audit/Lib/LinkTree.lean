import Mathlib.Data.Set.Card
import Mathlib.Logic.Function.Basic
import Mathlib.Tactic.Common

/-! Named trees with link counts. A directory has numbered entries; entries 0 and 1 are its
own name and its parent's, the others are links. The count of a node is the number of links
to it and, for a directory, of links from it to directories. -/
namespace Xv6Audit.LinkTree
open Function

inductive Kind where
  | leaf
  | dir
deriving DecidableEq

@[ext] structure Tree (V N : Type*) where
  kind : V → Option Kind
  nlink : V → Int
  ent : V → Nat → Option (V × N)

variable {V N : Type*}

namespace Tree

def links (t : Tree V N) (x : V) : Set (V × Nat) :=
  {p | 2 ≤ p.2 ∧ ∃ y n, t.ent p.1 p.2 = some (y, n) ∧ (y = x ∨ p.1 = x ∧ t.kind y = some .dir)}

def Linked (t : Tree V N) (x : V) : Prop := ∃ d k n, 2 ≤ k ∧ t.ent d k = some (x, n)

inductive Path (t : Tree V N) (d : V) : List N → V → Prop
  | nil : Path t d [] d
  | snoc {ns y k x n} : Path t d ns y → 2 ≤ k → t.ent y k = some (x, n) → Path t d (ns ++ [n]) x

theorem Path.mono {t t' : Tree V N} {d x : V} {ns : List N} (h : t.Path d ns x)
    (ht : ∀ y k e, 2 ≤ k → t.ent y k = some e → t'.ent y k = some e) : t'.Path d ns x := by
  induction h with
  | nil => exact .nil
  | snoc _ hk he ih => exact .snoc ih hk (ht _ _ _ hk he)

theorem mem_links_target {t : Tree V N} {d x : V} {k : Nat} {n : N} (hk : 2 ≤ k)
    (h : t.ent d k = some (x, n)) : (d, k) ∈ t.links x :=
  ⟨hk, x, n, h, .inl rfl⟩

variable [DecidableEq V]

def setEnt (t : Tree V N) (d : V) (k : Nat) (e : Option (V × N)) : Tree V N :=
  { t with ent := update t.ent d (update (t.ent d) k e) }

def setNlink (t : Tree V N) (x : V) (n : Int) : Tree V N :=
  { t with nlink := update t.nlink x n }

def reset (t : Tree V N) (x : V) (c : Option Kind) : Tree V N where
  kind := update t.kind x c
  nlink := update t.nlink x 0
  ent := update t.ent x fun _ => none

theorem setEnt_ent (t : Tree V N) (d : V) (k : Nat) (e : Option (V × N)) (d' : V) (k' : Nat) :
    (t.setEnt d k e).ent d' k' = if d' = d ∧ k' = k then e else t.ent d' k' := by
  unfold setEnt
  by_cases hd : d' = d
  · subst d'
    by_cases hk : k' = k
    · simp [hk]
    · simp [hk]
  · simp [hd]

theorem reset_ent (t : Tree V N) (x : V) (c : Option Kind) (d : V) (k : Nat) :
    (t.reset x c).ent d k = if d = x then none else t.ent d k := by
  unfold reset
  by_cases hd : d = x
  · simp [hd]
  · simp [hd]

def Counts (t : Tree V N) (d x y : V) : Prop := y = x ∨ y = d ∧ t.kind x = some .dir

instance (t : Tree V N) (d x y : V) : Decidable (t.Counts d x y) :=
  inferInstanceAs (Decidable (_ ∨ _))

def link (t : Tree V N) (d : V) (k : Nat) (n : N) (x : V) : Tree V N where
  kind := t.kind
  nlink := fun y => if t.Counts d x y then t.nlink y + 1 else t.nlink y
  ent := (t.setEnt d k (some (x, n))).ent

def unlink (t : Tree V N) (d : V) (k : Nat) (x : V) : Tree V N where
  kind := t.kind
  nlink := fun y => if t.Counts d x y then t.nlink y - 1 else t.nlink y
  ent := (t.setEnt d k none).ent

def newDir (t : Tree V N) (dot dotdot : N) (x d : V) : Tree V N :=
  ((t.reset x (some .dir)).setEnt x 0 (some (x, dot))).setEnt x 1 (some (d, dotdot))

/-! The operations as sequences of stores. -/

theorem link_of_leaf (t : Tree V N) (d : V) (k : Nat) (n : N) {x : V} (hx : t.kind x ≠ some .dir) :
    (t.setNlink x (t.nlink x + 1)).setEnt d k (some (x, n)) = t.link d k n x := by
  refine Tree.ext rfl (funext fun y => ?_) rfl
  by_cases hy : y = x
  · simp [setEnt, setNlink, link, Counts, hy]
  · simp [setEnt, setNlink, link, Counts, hy, hx]

theorem link_of_dir (t : Tree V N) {d x : V} (k : Nat) (n : N) (hx : t.kind x = some .dir)
    (hxd : x ≠ d) : ((t.setNlink x (t.nlink x + 1)).setEnt d k (some (x, n))).setNlink d
      (t.nlink d + 1) = t.link d k n x := by
  refine Tree.ext rfl (funext fun y => ?_) rfl
  by_cases hd : y = d
  · simp [setEnt, setNlink, link, Counts, hd, hx]
  · by_cases hy : y = x
    · subst y
      simp [setEnt, setNlink, link, Counts, hxd]
    · simp [setEnt, setNlink, link, Counts, hy, hd]

theorem unlink_of_leaf (t : Tree V N) (d : V) (k : Nat) {x : V} (hx : t.kind x ≠ some .dir) :
    (t.setEnt d k none).setNlink x (t.nlink x - 1) = t.unlink d k x := by
  refine Tree.ext rfl (funext fun y => ?_) rfl
  by_cases hy : y = x
  · simp [setEnt, setNlink, unlink, Counts, hy]
  · simp [setEnt, setNlink, unlink, Counts, hy, hx]

theorem unlink_of_dir (t : Tree V N) (d : V) (k : Nat) {x : V} (hx : t.kind x = some .dir) :
    ((t.setEnt d k none).setNlink d (t.nlink d - 1)).setNlink x (t.nlink x - 1) =
      t.unlink d k x := by
  refine Tree.ext rfl (funext fun y => ?_) rfl
  by_cases hy : y = x
  · simp [setEnt, setNlink, unlink, Counts, hy]
  · by_cases hd : y = d
    · subst y
      simp [setEnt, setNlink, unlink, Counts, hy, hx]
    · simp [setEnt, setNlink, unlink, Counts, hy, hd]

structure SameBut (x : V) (t t' : Tree V N) : Prop where
  kind : ∀ y, y ≠ x → t'.kind y = t.kind y
  nlink : ∀ y, y ≠ x → t'.nlink y = t.nlink y
  ent : ∀ y, y ≠ x → t'.ent y = t.ent y

omit [DecidableEq V] in
theorem SameBut.refl (t : Tree V N) (x : V) : SameBut x t t :=
  ⟨fun _ _ => rfl, fun _ _ => rfl, fun _ _ => rfl⟩

omit [DecidableEq V] in
theorem SameBut.trans {x : V} {t t' u : Tree V N} (h : SameBut x t t') (h' : SameBut x t' u) :
    SameBut x t u :=
  ⟨fun y hy => (h'.kind y hy).trans (h.kind y hy), fun y hy => (h'.nlink y hy).trans (h.nlink y hy),
    fun y hy => (h'.ent y hy).trans (h.ent y hy)⟩

theorem SameBut.setNlink {x : V} {t t' : Tree V N} (h : SameBut x t t') (v : Int) :
    SameBut x t (t'.setNlink x v) :=
  ⟨h.kind, fun y hy => (update_of_ne hy _ _).trans (h.nlink y hy), h.ent⟩

theorem SameBut.setEnt {x : V} {t t' : Tree V N} (h : SameBut x t t') (k : Nat)
    (e : Option (V × N)) : SameBut x t (t'.setEnt x k e) :=
  ⟨h.kind, h.nlink, fun y hy => (update_of_ne hy _ _).trans (h.ent y hy)⟩

theorem SameBut.reset (t : Tree V N) (x : V) (c : Option Kind) : SameBut x t (t.reset x c) :=
  ⟨fun _ hy => update_of_ne hy _ _, fun _ hy => update_of_ne hy _ _,
    fun _ hy => update_of_ne hy _ _⟩

omit [DecidableEq V] in
theorem SameBut.ext {x : V} {t u v : Tree V N} (h : SameBut x t u) (h' : SameBut x t v)
    (hk : u.kind x = v.kind x) (hn : u.nlink x = v.nlink x) (he : u.ent x = v.ent x) : u = v := by
  refine Tree.ext (funext fun y => ?_) (funext fun y => ?_) (funext fun y => ?_)
  · by_cases hy : y = x
    · exact hy ▸ hk
    · exact (h.kind y hy).trans (h'.kind y hy).symm
  · by_cases hy : y = x
    · exact hy ▸ hn
    · exact (h.nlink y hy).trans (h'.nlink y hy).symm
  · by_cases hy : y = x
    · exact hy ▸ he
    · exact (h.ent y hy).trans (h'.ent y hy).symm

theorem SameBut.back {x : V} {t t' : Tree V N} (h : SameBut x t t') (hk : t.kind x = none)
    (hn : t.nlink x = 0) (he : ∀ k, t.ent x k = none) : t'.reset x none = t := by
  refine (h.trans (.reset t' x none)).ext (.refl t x) ?_ ?_ ?_
  · simp [Tree.reset, hk]
  · simp [Tree.reset, hn]
  · funext k
    simp [Tree.reset, he k]

inductive Reaps (t : Tree V N) : Tree V N → Prop
  | none : Reaps t t
  | free {t' x} : Reaps t t' → t'.kind x ≠ none → t'.nlink x = 0 → Reaps t (t'.reset x none)

theorem reset_setNlink (t : Tree V N) {d x : V} (hxd : x ≠ d) (c : Option Kind) (v : Int) :
    (t.reset d c).setNlink x v = (t.setNlink x v).reset d c := by
  refine Tree.ext rfl (funext fun y => ?_) rfl
  simp only [Tree.reset, Tree.setNlink]
  rw [update_comm (Ne.symm hxd)]

end Tree

structure Dotted (dot dotdot : N) (t : Tree V N) : Prop where
  owner : ∀ d k e, t.ent d k = some e → t.kind d = some .dir
  self : ∀ d, t.kind d = some .dir → t.ent d 0 = some (d, dot)
  parent : ∀ d, t.kind d = some .dir → ∃ u, t.ent d 1 = some (u, dotdot)

theorem Dotted.two_le {dot dotdot : N} {t : Tree V N} (h : Dotted dot dotdot t) {d : V} {k : Nat}
    (hd : t.kind d = some .dir) (hfree : t.ent d k = none) : 2 ≤ k := by
  by_contra hlt
  obtain rfl | rfl : k = 0 ∨ k = 1 := by omega
  · rw [h.self d hd] at hfree
    cases hfree
  · obtain ⟨u, hu⟩ := h.parent d hd
    rw [hu] at hfree
    cases hfree

/-! Links and entries after each operation. -/

namespace Tree
variable [DecidableEq V] {t : Tree V N} {d x d' : V} {k k' : Nat} {n : N} {e : V × N}

theorem link_ent (t : Tree V N) (d : V) (k : Nat) (n : N) (x d' : V) (k' : Nat) :
    (t.link d k n x).ent d' k' = if d' = d ∧ k' = k then some (x, n) else t.ent d' k' :=
  Tree.setEnt_ent t d k (some (x, n)) d' k'

theorem link_keeps (hfree : t.ent d k = none) (he : t.ent d' k' = some e) :
    (t.link d k n x).ent d' k' = some e := by
  rw [link_ent, if_neg]
  · exact he
  · rintro ⟨rfl, rfl⟩
    rw [hfree] at he
    cases he

theorem link_cases (he : (t.link d k n x).ent d' k' = some e) :
    d' = d ∧ k' = k ∧ e = (x, n) ∨ t.ent d' k' = some e := by
  rw [link_ent] at he
  split at he
  · rename_i hp
    exact .inl ⟨hp.1, hp.2, (Option.some.inj he).symm⟩
  · exact .inr he

theorem link_links (t : Tree V N) {d : V} {k : Nat} (n : N) (x y : V) (hk : 2 ≤ k)
    (hfree : t.ent d k = none) : (t.link d k n x).links y =
      if t.Counts d x y then insert (d, k) (t.links y) else t.links y := by
  have hmem : ∀ p : V × Nat, p ∈ (t.link d k n x).links y ↔
      (p = (d, k) ∧ t.Counts d x y) ∨ p ∈ t.links y := by
    rintro ⟨d', k'⟩
    simp only [Tree.links, Set.mem_ofPred_eq, link_ent]
    by_cases hp : d' = d ∧ k' = k
    · obtain ⟨rfl, rfl⟩ := hp
      simp only [and_self, if_true, Option.some.injEq, Prod.mk.injEq, true_and, hfree,
        reduceCtorEq, false_and, exists_false, and_false, or_false]
      constructor
      · rintro ⟨-, z, m, ⟨rfl, rfl⟩, hz | hz⟩
        · exact .inl hz.symm
        · exact .inr ⟨hz.1.symm, hz.2⟩
      · rintro (rfl | hz)
        · exact ⟨hk, y, n, ⟨rfl, rfl⟩, .inl rfl⟩
        · exact ⟨hk, x, n, ⟨rfl, rfl⟩, .inr ⟨hz.1.symm, hz.2⟩⟩
    · rw [if_neg hp]
      simp only [Prod.mk.injEq, hp, false_and, false_or]
      rfl
  ext p
  rw [hmem]
  split
  · rename_i hc
    simp [hc]
  · rename_i hc
    simp [hc]

theorem link_count (t : Tree V N) {d : V} {k : Nat} (n : N) (x y : V) (hk : 2 ≤ k)
    (hfree : t.ent d k = none) (hfin : (t.links y).Finite) :
    ((t.link d k n x).links y).ncard - (t.link d k n x).nlink y =
      ((t.links y).ncard : Int) - t.nlink y := by
  have hnot : (d, k) ∉ t.links y := by
    rintro ⟨-, z, m, he, -⟩
    rw [hfree] at he
    cases he
  rw [link_links t n x y hk hfree]
  simp only [Tree.link]
  by_cases hcounts : t.Counts d x y
  · rw [if_pos hcounts, if_pos hcounts, Set.ncard_insert_of_notMem hnot hfin]
    omega
  · rw [if_neg hcounts, if_neg hcounts]

theorem unlink_ent (t : Tree V N) (d : V) (k : Nat) (x d' : V) (k' : Nat) :
    (t.unlink d k x).ent d' k' = if d' = d ∧ k' = k then none else t.ent d' k' :=
  Tree.setEnt_ent t d k none d' k'

theorem unlink_keeps (he : t.ent d' k' = some e) (hne : ¬ (d' = d ∧ k' = k)) :
    (t.unlink d k x).ent d' k' = some e := by
  rw [unlink_ent, if_neg hne]
  exact he

theorem unlink_cases (he : (t.unlink d k x).ent d' k' = some e) :
    t.ent d' k' = some e ∧ ¬ (d' = d ∧ k' = k) := by
  rw [unlink_ent] at he
  split at he
  · cases he
  · exact ⟨he, ‹_›⟩

theorem unlink_links (t : Tree V N) (d : V) (k : Nat) (x y : V) :
    (t.unlink d k x).links y = t.links y \ {(d, k)} := by
  ext ⟨d', k'⟩
  simp only [Tree.links, Set.mem_ofPred_eq, unlink_ent, Set.mem_sdiff, Set.mem_singleton_iff,
    Prod.mk.injEq]
  by_cases hp : d' = d ∧ k' = k
  · simp [hp]
  · simp only [hp, not_false_eq_true, and_true]
    rfl

theorem unlink_count (hk : 2 ≤ k) (he : t.ent d k = some (x, n)) (y : V)
    (hfin : (t.links y).Finite) : ((t.unlink d k x).links y).ncard - (t.unlink d k x).nlink y =
      ((t.links y).ncard : Int) - t.nlink y := by
  rw [unlink_links]
  simp only [Tree.unlink]
  have hmem : (d, k) ∈ t.links y ↔ t.Counts d x y := by
    constructor
    · rintro ⟨-, z, m, hz, hzy⟩
      rw [he] at hz
      cases hz
      exact hzy.imp Eq.symm fun hd => ⟨hd.1.symm, hd.2⟩
    · exact fun hc => ⟨hk, x, n, he, hc.imp Eq.symm fun hd => ⟨hd.1.symm, hd.2⟩⟩
  by_cases hcounts : t.Counts d x y
  · have hcard := Set.ncard_sdiff_singleton_add_one (hmem.mpr hcounts) hfin
    rw [if_pos hcounts]
    omega
  · rw [if_neg hcounts, Set.sdiff_singleton_eq_self fun hc => hcounts (hmem.mp hc)]

theorem newDir_ent (t : Tree V N) (dot dotdot : N) (x d : V) (k : Nat) :
    (t.newDir dot dotdot x d).ent x k =
      if k = 1 then some (d, dotdot) else if k = 0 then some (x, dot) else none := by
  unfold Tree.newDir
  simp [Tree.setEnt_ent, Tree.reset_ent]

end Tree

section Shape
variable (root : V) (dot dotdot : N)

structure Shape (t : Tree V N) : Prop extends Dotted dot dotdot t where
  finite : {p : V × Nat | t.ent p.1 p.2 ≠ none}.Finite
  rootDir : t.kind root = some .dir
  target : ∀ d k x n, 2 ≤ k → t.ent d k = some (x, n) → t.kind x ≠ none
  single : ∀ x, t.kind x = some .dir → ∀ d k n d' k' n', 2 ≤ k → 2 ≤ k' →
    t.ent d k = some (x, n) → t.ent d' k' = some (x, n') → d = d' ∧ k = k'
  names : ∀ d j k x y n, t.ent d j = some (x, n) → t.ent d k = some (y, n) → j = k

structure Clean (x : V) (t : Tree V N) : Prop where
  nlink : t.nlink x = 0
  low : ∀ k, 2 ≤ k → t.ent x k = none
  owner : ∀ k e, t.ent x k = some e → t.kind x = some .dir
  self : t.kind x = some .dir → t.ent x 0 = some (x, dot)
  parent : t.kind x = some .dir → ∃ u, t.ent x 1 = some (u, dotdot)
  names : ∀ j k y z m, t.ent x j = some (y, m) → t.ent x k = some (z, m) → j = k

variable {root dot dotdot} {t t' : Tree V N} {d x : V} {k : Nat} {n : N}

namespace Shape

section
variable (h : Shape root dot dotdot t)
include h

theorem links_finite (x : V) : (t.links x).Finite := by
  refine h.finite.subset ?_
  rintro ⟨d, k⟩ ⟨-, y, n, he, -⟩
  simp [he]

theorem ent_none_of_not_dir (hx : t.kind x ≠ some .dir) (k : Nat) :
    t.ent x k = none := by
  cases he : t.ent x k with
  | none => rfl
  | some e => exact absurd (h.owner x k e he) hx

theorem absent (hx : t.kind x = none) :
    x ≠ root ∧ ¬ t.Linked x ∧ ∀ k, t.ent x k = none := by
  refine ⟨?_, ?_, h.ent_none_of_not_dir (by rw [hx]; simp)⟩
  · rintro rfl
    rw [h.rootDir] at hx
    cases hx
  · rintro ⟨d, k, n, hk, he⟩
    exact h.target d k x n hk he hx

end

theorem replaced (hnl : ¬ t.Linked x) (hsame : t.SameBut x t') (hc : Clean dot dotdot x t')
    {y : V} {m : N} (hk : 2 ≤ k) (he : t'.ent d k = some (y, m)) :
    d ≠ x ∧ y ≠ x ∧ t.ent d k = some (y, m) := by
  have hd : d ≠ x := by
    rintro rfl
    rw [hc.low k hk] at he
    cases he
  rw [hsame.ent d hd] at he
  refine ⟨hd, ?_, he⟩
  rintro rfl
  exact hnl ⟨d, k, m, hk, he⟩

theorem replace (h : Shape root dot dotdot t) (hroot : x ≠ root) (hnl : ¬ t.Linked x)
    (hsame : t.SameBut x t') (hc : Clean dot dotdot x t') : Shape root dot dotdot t' := by
  refine ⟨⟨fun d k e he => ?_, fun d hd => ?_, fun d hd => ?_⟩, ?_, ?_, fun d k y m hk he => ?_, ?_, ?_⟩
  · by_cases hdx : d = x
    · subst d
      exact hc.owner k e he
    · rw [hsame.kind d hdx]
      rw [hsame.ent d hdx] at he
      exact h.owner d k e he
  · by_cases hdx : d = x
    · subst d
      exact hc.self hd
    · rw [hsame.kind d hdx] at hd
      rw [hsame.ent d hdx]
      exact h.self d hd
  · by_cases hdx : d = x
    · subst d
      exact hc.parent hd
    · rw [hsame.kind d hdx] at hd
      rw [hsame.ent d hdx]
      exact h.parent d hd
  · refine ((h.finite.insert (x, 0)).insert (x, 1)).subset ?_
    rintro ⟨d, k⟩ hp
    by_cases hd : d = x
    · subst d
      have hk : k < 2 := by
        by_contra hge
        exact hp (hc.low k (by omega))
      obtain rfl | rfl : k = 0 ∨ k = 1 := by omega
      · exact Set.mem_insert_of_mem _ (Set.mem_insert _ _)
      · exact Set.mem_insert _ _
    · refine Set.mem_insert_of_mem _ (Set.mem_insert_of_mem _ ?_)
      have hp' : t'.ent d k ≠ none := hp
      rw [hsame.ent d hd] at hp'
      exact hp'
  · rw [hsame.kind root (Ne.symm hroot)]
    exact h.rootDir
  · obtain ⟨-, hyx, he⟩ := replaced hnl hsame hc hk he
    rw [hsame.kind y hyx]
    exact h.target d k y m hk he
  · intro y hy d1 k1 n1 d2 k2 n2 h1 h2 he1 he2
    obtain ⟨-, hyx, he1⟩ := replaced hnl hsame hc h1 he1
    rw [hsame.kind y hyx] at hy
    exact h.single y hy _ _ _ _ _ _ h1 h2 he1 (replaced hnl hsame hc h2 he2).2.2
  · intro d j k y z m h1 h2
    by_cases hdx : d = x
    · subst d
      exact hc.names j k y z m h1 h2
    · rw [hsame.ent d hdx] at h1 h2
      exact h.names d j k y z m h1 h2

theorem replaced_links (hnl : ¬ t.Linked x) (hsame : t.SameBut x t')
    (hc : Clean dot dotdot x t') : t'.links x = ∅ := by
  refine Set.eq_empty_of_forall_notMem ?_
  rintro ⟨d, k⟩ ⟨hk, z, m, he, hz⟩
  obtain ⟨hd, hzx, -⟩ := replaced hnl hsame hc hk he
  exact hz.elim hzx fun hdx => hd hdx.1

theorem links_subset (hnl : ¬ t.Linked x) (hsame : t.SameBut x t')
    (hc : Clean dot dotdot x t') (y : V) : t'.links y ⊆ t.links y := by
  rintro ⟨d, k⟩ ⟨hk, z, m, he, hz⟩
  obtain ⟨-, hzx, he⟩ := replaced hnl hsame hc hk he
  exact ⟨hk, z, m, he, by rwa [hsame.kind z hzx] at hz⟩

theorem links_superset (hnl : ¬ t.Linked x) (hsame : t.SameBut x t') {y : V}
    (hy : ∀ k z m, 2 ≤ k → t.ent x k = some (z, m) → (z = y ∨ x = y ∧ t.kind z = some .dir) → False) :
    t.links y ⊆ t'.links y := by
  rintro ⟨d, k⟩ ⟨hk, z, m, he, hz⟩
  have hd : d ≠ x := by
    rintro rfl
    exact hy k z m hk he hz
  have hzx : z ≠ x := by
    rintro rfl
    exact hnl ⟨d, k, m, hk, he⟩
  refine ⟨hk, z, m, ?_, by rwa [hsame.kind z hzx]⟩
  change t'.ent d k = _
  rw [hsame.ent d hd]
  exact he

variable [DecidableEq V]

theorem link (h : Shape root dot dotdot t) (hd : t.kind d = some .dir)
    (hfree : t.ent d k = none) (hname : ∀ j y, t.ent d j ≠ some (y, n)) (hx : t.kind x ≠ none)
    (hdir : t.kind x = some .dir → ¬ t.Linked x) : Shape root dot dotdot (t.link d k n x) := by
  have hkeep : ∀ {d' k' e}, t.ent d' k' = some e → (t.link d k n x).ent d' k' = some e :=
    Tree.link_keeps hfree
  refine ⟨⟨fun d' k' e he => ?_, fun d' hd' => hkeep (h.self d' hd'),
    fun d' hd' => (h.parent d' hd').imp fun _ => hkeep⟩, ?_, h.rootDir, fun d' k' y m hk' he => ?_,
    ?_, ?_⟩
  · rcases Tree.link_cases he with ⟨rfl, -, -⟩ | he
    · exact hd
    · exact h.owner _ _ _ he
  · refine (h.finite.insert (d, k)).subset ?_
    rintro ⟨d', k'⟩ hp
    cases he : (t.link d k n x).ent d' k' with
    | none => exact absurd he hp
    | some e =>
      rcases Tree.link_cases he with ⟨rfl, rfl, -⟩ | he
      · exact Set.mem_insert _ _
      · exact Set.mem_insert_of_mem _ (by simp [he])
  · rcases Tree.link_cases he with ⟨-, -, he⟩ | he
    · cases he
      exact hx
    · exact h.target _ _ _ _ hk' he
  · intro y hy d1 k1 n1 d2 k2 n2 h1 h2 he1 he2
    rcases Tree.link_cases he1 with ⟨rfl, rfl, he⟩ | g1
    · rcases Tree.link_cases he2 with ⟨rfl, rfl, -⟩ | g2
      · exact ⟨rfl, rfl⟩
      · cases he
        exact absurd ⟨d2, k2, n2, h2, g2⟩ (hdir hy)
    · rcases Tree.link_cases he2 with ⟨rfl, rfl, he⟩ | g2
      · cases he
        exact absurd ⟨d1, k1, n1, h1, g1⟩ (hdir hy)
      · exact h.single y hy _ _ _ _ _ _ h1 h2 g1 g2
  · intro d' j1 j2 y z m h1 h2
    rcases Tree.link_cases h1 with ⟨rfl, rfl, he⟩ | g1
    · rcases Tree.link_cases h2 with ⟨-, rfl, -⟩ | g2
      · rfl
      · cases he
        exact absurd g2 (hname _ _)
    · rcases Tree.link_cases h2 with ⟨rfl, rfl, he⟩ | g2
      · cases he
        exact absurd g1 (hname _ _)
      · exact h.names _ _ _ _ _ _ g1 g2

theorem unlink (h : Shape root dot dotdot t) (hk : 2 ≤ k) :
    Shape root dot dotdot (t.unlink d k x) := by
  have hold : ∀ {d' k' e}, (t.unlink d k x).ent d' k' = some e → t.ent d' k' = some e :=
    fun he => (Tree.unlink_cases he).1
  have hlow : ∀ {d' k' e}, k' < 2 → t.ent d' k' = some e → (t.unlink d k x).ent d' k' = some e :=
    fun hlt he => Tree.unlink_keeps he (by omega)
  refine ⟨⟨fun d' k' e he => h.owner d' k' e (hold he),
    fun d' hd' => hlow (by omega) (h.self d' hd'),
    fun d' hd' => (h.parent d' hd').imp fun _ => hlow (by omega)⟩, ?_, h.rootDir,
    fun d' k' y m hk' he => h.target d' k' y m hk' (hold he), ?_,
    fun d' j1 j2 y z m h1 h2 => h.names d' j1 j2 y z m (hold h1) (hold h2)⟩
  · refine h.finite.subset ?_
    rintro ⟨d', k'⟩ hp
    cases he : (t.unlink d k x).ent d' k' with
    | none => exact absurd he hp
    | some e => simp [hold he]
  · intro y hy d1 k1 n1 d2 k2 n2 h1 h2 he1 he2
    exact h.single y hy _ _ _ _ _ _ h1 h2 (hold he1) (hold he2)

end Shape

variable [DecidableEq V]

theorem Clean.reset (t : Tree V N) (x : V) {c : Option Kind} (hc : c ≠ some .dir) :
    Clean dot dotdot x (t.reset x c) := by
  have hnone : ∀ k, (t.reset x c).ent x k = none := fun k => by rw [Tree.reset_ent, if_pos rfl]
  have hkx : (t.reset x c).kind x ≠ some .dir := by simpa [Tree.reset] using hc
  refine ⟨update_self .., fun k _ => hnone k, fun k e he => ?_, fun hd => absurd hd hkx,
    fun hd => absurd hd hkx, fun j k y z m hj => ?_⟩
  · rw [hnone k] at he
    cases he
  · rw [hnone j] at hj
    cases hj

theorem Clean.newDir (t : Tree V N) (hdots : dot ≠ dotdot) (x d : V) :
    Clean dot dotdot x (t.newDir dot dotdot x d) := by
  have hent := t.newDir_ent dot dotdot x d
  have hcases : ∀ k e, (t.newDir dot dotdot x d).ent x k = some e →
      k = 1 ∧ e = (d, dotdot) ∨ k = 0 ∧ e = (x, dot) := by
    intro k e he
    rw [hent] at he
    split at he
    · exact .inl ⟨‹_›, (Option.some.inj he).symm⟩
    · split at he
      · exact .inr ⟨‹_›, (Option.some.inj he).symm⟩
      · cases he
  refine ⟨update_self .., fun k hk => ?_, fun _ _ _ => update_self .., fun _ => ?_,
    fun _ => ⟨d, by rw [hent, if_pos rfl]⟩, fun j k y z m hj hk => ?_⟩
  · rw [hent, if_neg (by omega), if_neg (by omega)]
  · rw [hent, if_neg (by omega), if_pos rfl]
  · rcases hcases j _ hj with ⟨rfl, e1⟩ | ⟨rfl, e1⟩ <;>
      rcases hcases k _ hk with ⟨rfl, e2⟩ | ⟨rfl, e2⟩
    · rfl
    · exact absurd ((Prod.mk.inj e2).2.symm.trans (Prod.mk.inj e1).2) hdots
    · exact absurd ((Prod.mk.inj e1).2.symm.trans (Prod.mk.inj e2).2) hdots
    · rfl

end Shape

section Tidy
variable [DecidableEq V] (root : V) (dot dotdot : N)

/-- Counts are exact, links lead to nodes and directories have one link at most; only a
directory that is linked has links of its own, and it can be found from the root. -/
structure Tidy (t : Tree V N) : Prop where
  finite : {p : V × Nat | t.ent p.1 p.2 ≠ none}.Finite
  owner : ∀ d k e, t.ent d k = some e → t.kind d = some .dir
  rootDir : t.kind root = some .dir
  target : ∀ d k x n, 2 ≤ k → t.ent d k = some (x, n) → t.kind x ≠ none
  self : ∀ d, t.kind d = some .dir → t.ent d 0 = some (d, dot)
  parent : ∀ d, t.kind d = some .dir → ∃ u, t.ent d 1 = some (u, dotdot) ∧ t.kind u ≠ some .leaf
  count : ∀ x, t.kind x ≠ none → t.nlink x = (t.links x).ncard + if x = root then 1 else 0
  single : ∀ x, t.kind x = some .dir → ∀ d k n d' k' n', 2 ≤ k → 2 ≤ k' →
    t.ent d k = some (x, n) → t.ent d' k' = some (x, n') → d = d' ∧ k = k'
  empty : ∀ d, t.kind d = some .dir → d ≠ root → ¬ t.Linked d → ∀ k, 2 ≤ k → t.ent d k = none
  names : ∀ d j k x y n, t.ent d j = some (x, n) → t.ent d k = some (y, n) → j = k
  named : ∀ d, t.kind d = some .dir → d = root ∨ t.Linked d → ∃ ns, t.Path root ns d

namespace Tidy
variable {root dot dotdot} {t : Tree V N} {d x : V} {k : Nat} {n : N}

section
variable (h : Tidy root dot dotdot t)
include h

theorem shape : Shape root dot dotdot t :=
  ⟨⟨h.owner, h.self, fun d hd => (h.parent d hd).imp fun _ hu => hu.1⟩, h.finite, h.rootDir,
    h.target, h.single, h.names⟩

theorem linked_of_pos (hd : t.kind d = some .dir) (hpos : 0 < t.nlink d) :
    d = root ∨ t.Linked d := by
  by_cases hroot : d = root
  · exact .inl hroot
  refine .inr (Classical.byContradiction fun hnl => ?_)
  have hlinks : t.links d = ∅ := by
    refine Set.eq_empty_of_forall_notMem ?_
    rintro ⟨e, k⟩ ⟨hk, y, n, he, hy | ⟨rfl, -⟩⟩
    · exact hnl ⟨e, k, n, hk, hy ▸ he⟩
    · rw [h.empty e hd hroot hnl k hk] at he
      cases he
  have hc := h.count d (by rw [hd]; simp)
  rw [hlinks, if_neg hroot] at hc
  simp at hc
  omega

theorem unlinked_of_zero (hx : t.kind x ≠ none) (h0 : t.nlink x = 0) :
    x ≠ root ∧ ¬ t.Linked x ∧ ∀ k, 2 ≤ k → t.ent x k = none := by
  have hc := h.count x hx
  have hroot : x ≠ root := by
    intro he
    rw [if_pos he, h0] at hc
    omega
  rw [if_neg hroot, h0] at hc
  have hnl : ¬ t.Linked x := by
    rintro ⟨d, k, n, hk, he⟩
    have hempty := (Set.ncard_eq_zero (h.shape.links_finite x)).mp (by omega)
    have hmem := Tree.mem_links_target hk he
    rw [hempty] at hmem
    exact hmem
  refine ⟨hroot, hnl, fun k hk => ?_⟩
  by_cases hd : t.kind x = some .dir
  · exact h.empty x hd hroot hnl k hk
  · exact h.shape.ent_none_of_not_dir hd k

theorem dotted : Dotted dot dotdot t := h.shape.toDotted

/-! Making and removing links. -/

theorem link (hd : t.kind d = some .dir) (hpos : 0 < t.nlink d) (hk : 2 ≤ k)
    (hfree : t.ent d k = none) (hname : ∀ j y, t.ent d j ≠ some (y, n)) (hx : t.kind x ≠ none)
    (hdir : t.kind x = some .dir → x ≠ root ∧ ¬ t.Linked x ∧ x ≠ d) :
    Tidy root dot dotdot (t.link d k n x) := by
  have hs := h.shape.link hd hfree hname hx fun hy => (hdir hy).2.1
  have hkeep : ∀ {d' k' e}, t.ent d' k' = some e → (t.link d k n x).ent d' k' = some e :=
    Tree.link_keeps hfree
  have hlinked : ∀ y, t.Linked y → (t.link d k n x).Linked y := by
    rintro y ⟨d', k', m, hk', he⟩
    exact ⟨d', k', m, hk', hkeep he⟩
  have hdl := h.linked_of_pos hd hpos
  refine ⟨hs.finite, hs.owner, hs.rootDir, hs.target, hs.self, fun d' hd' => ?_, fun y hy => ?_,
    hs.single, fun d' hd' hr hnl k' hk' => ?_, hs.names, fun y hy hyl => ?_⟩
  · obtain ⟨u, hu, hku⟩ := h.parent d' hd'
    exact ⟨u, hkeep hu, hku⟩
  · have h1 := h.count y hy
    have h2 := t.link_count n x y hk hfree (h.shape.links_finite y)
    omega
  · have hnl' : ¬ t.Linked d' := fun hl => hnl (hlinked d' hl)
    rw [Tree.link_ent, if_neg]
    · exact h.empty d' hd' hr hnl' k' hk'
    · rintro ⟨rfl, -⟩
      exact hdl.elim hr hnl'
  · have hmono : ∀ {ns z}, t.Path root ns z → (t.link d k n x).Path root ns z :=
      fun hp => hp.mono fun _ _ _ _ he => hkeep he
    by_cases hyx : y = x
    · subst y
      obtain ⟨ns, hns⟩ := h.named d hd hdl
      refine ⟨ns ++ [n], .snoc (hmono hns) hk ?_⟩
      rw [Tree.link_ent, if_pos ⟨rfl, rfl⟩]
    · have hyl' : y = root ∨ t.Linked y := by
        refine hyl.imp id ?_
        rintro ⟨d', k', m, hk', he⟩
        rcases Tree.link_cases he with ⟨-, -, he⟩ | he
        · cases he
          exact absurd rfl hyx
        · exact ⟨d', k', m, hk', he⟩
      obtain ⟨ns, hns⟩ := h.named y hy hyl'
      exact ⟨ns, hmono hns⟩

theorem unlink (hk : 2 ≤ k) (he : t.ent d k = some (x, n))
    (hdir : t.kind x = some .dir → ∀ j, 2 ≤ j → t.ent x j = none) :
    Tidy root dot dotdot (t.unlink d k x) := by
  have hxd : x ≠ d := by
    rintro rfl
    rw [hdir (h.owner x k _ he) k hk] at he
    cases he
  have hs := h.shape.unlink (d := d) (x := x) hk
  have hold : ∀ d' k' e, (t.unlink d k x).ent d' k' = some e →
      t.ent d' k' = some e ∧ ¬ (d' = d ∧ k' = k) := fun _ _ _ => Tree.unlink_cases
  have hkeep : ∀ d' k' e, t.ent d' k' = some e → ¬ (d' = d ∧ k' = k) →
      (t.unlink d k x).ent d' k' = some e := fun _ _ _ => Tree.unlink_keeps
  refine ⟨hs.finite, hs.owner, hs.rootDir, hs.target, hs.self, fun d' hd' => ?_, fun y hy => ?_,
    hs.single, fun d' hd' hr hnl k' hk' => ?_, hs.names, ?_⟩
  · obtain ⟨u, hu, hku⟩ := h.parent d' hd'
    exact ⟨u, hkeep _ _ _ hu (by omega), hku⟩
  · have h1 := h.count y hy
    have h2 := Tree.unlink_count hk he y (h.shape.links_finite y)
    omega
  · by_cases hdx : d' = x
    · subst d'
      rw [Tree.unlink_ent, if_neg (fun hp => hxd hp.1)]
      exact hdir hd' k' hk'
    · have hnl' : ¬ t.Linked d' := by
        rintro ⟨e, j, m, hj, he'⟩
        refine hnl ⟨e, j, m, hj, hkeep _ _ _ he' ?_⟩
        rintro ⟨rfl, rfl⟩
        rw [he] at he'
        cases he'
        exact hdx rfl
      rw [Tree.unlink_ent]
      split
      · rfl
      · exact h.empty d' hd' hr hnl' k' hk'
  · -- the path to another directory does not use the removed link: it would go on from `x`
    have hpath : ∀ ns z, t.Path root ns z → z ≠ x → (t.unlink d k x).Path root ns z := by
      intro ns z hp
      induction hp with
      | nil => exact fun _ => .nil
      | @snoc ns y j z m hp hj hz ih =>
        intro hzx
        have hyx : y ≠ x := by
          rintro rfl
          rw [hdir (h.owner y j _ hz) j hj] at hz
          cases hz
        refine .snoc (ih hyx) hj (hkeep _ _ _ hz ?_)
        rintro ⟨rfl, rfl⟩
        rw [he] at hz
        cases hz
        exact hzx rfl
    intro y hy hyl
    by_cases hyx : y = x
    · -- a directory has one link only, and that is gone
      subst y
      rcases hyl with rfl | ⟨d', k', m, hk', he'⟩
      · exact ⟨[], .nil⟩
      · obtain ⟨hold', hne⟩ := hold _ _ _ he'
        obtain ⟨rfl, rfl⟩ := h.single x hy _ _ _ _ _ _ hk' hk hold' he
        exact absurd ⟨rfl, rfl⟩ hne
    · have hyl' : y = root ∨ t.Linked y := by
        refine hyl.imp id ?_
        rintro ⟨d', k', m, hk', he'⟩
        exact ⟨d', k', m, hk', (hold _ _ _ he').1⟩
      obtain ⟨ns, hns⟩ := h.named y hy hyl'
      exact ⟨ns, hpath ns y hns hyx⟩

/-! Nodes that come and go. -/

theorem replace {t' : Tree V N} (hroot : x ≠ root) (hnl : ¬ t.Linked x)
    (hempty : ∀ k, 2 ≤ k → t.ent x k = none) (hsame : t.SameBut x t') (hc : Clean dot dotdot x t')
    (hparent : ∀ u, t'.ent x 1 = some (u, dotdot) → t'.kind u ≠ some .leaf)
    (hleaf : t'.kind x = some .leaf → ∀ e m, t.ent e 1 ≠ some (x, m)) :
    Tidy root dot dotdot t' := by
  have hs := h.shape.replace hroot hnl hsame hc
  have hno : ∀ {k e}, 2 ≤ k → t.ent x k ≠ some e := fun hk he => by
    rw [hempty _ hk] at he
    cases he
  have hkeep : ∀ {d k e}, 2 ≤ k → t.ent d k = some e → t'.ent d k = some e := fun {d k e} hk he => by
    rw [hsame.ent d]
    · exact he
    · rintro rfl
      exact hno hk he
  have hlinked : ∀ y, t'.Linked y ↔ t.Linked y := fun y =>
    ⟨fun ⟨d, k, m, hk, he⟩ => ⟨d, k, m, hk, (Shape.replaced hnl hsame hc hk he).2.2⟩,
      fun ⟨d, k, m, hk, he⟩ => ⟨d, k, m, hk, hkeep hk he⟩⟩
  refine ⟨hs.finite, hs.owner, hs.rootDir, hs.target, hs.self, fun d hd => ?_, fun y hy => ?_,
    hs.single, fun d hd hr hnl' k hk => ?_, hs.names, fun d hd hdl => ?_⟩
  · by_cases hdx : d = x
    · subst d
      obtain ⟨u, hu⟩ := hc.parent hd
      exact ⟨u, hu, hparent u hu⟩
    · rw [hsame.kind d hdx] at hd
      obtain ⟨u, hu, hku⟩ := h.parent d hd
      refine ⟨u, by rw [hsame.ent d hdx]; exact hu, ?_⟩
      by_cases hux : u = x
      · subst u
        exact fun hl => hleaf hl d dotdot hu
      · rw [hsame.kind u hux]
        exact hku
  · by_cases hyx : y = x
    · subst y
      rw [hc.nlink, Shape.replaced_links hnl hsame hc, if_neg hroot]
      simp
    · rw [hsame.kind y hyx] at hy
      rw [hsame.nlink y hyx, (Shape.links_subset hnl hsame hc y).antisymm
        (Shape.links_superset hnl hsame fun _ _ _ hk he _ => hno hk he)]
      exact h.count y hy
  · by_cases hdx : d = x
    · subst d
      exact hc.low k hk
    · rw [hsame.kind d hdx] at hd
      rw [hsame.ent d hdx]
      exact h.empty d hd hr (fun hl => hnl' ((hlinked d).mpr hl)) k hk
  · have hdx : d ≠ x := by
      rintro rfl
      exact hdl.elim hroot fun hl => hnl ((hlinked d).mp hl)
    rw [hsame.kind d hdx] at hd
    obtain ⟨ns, hns⟩ := h.named d hd (hdl.imp id (hlinked d).mp)
    exact ⟨ns, hns.mono fun y k e hk he => hkeep hk he⟩

end

theorem reset_parent (t : Tree V N) (x u : V) (c : Option Kind) :
    (t.reset x c).ent x 1 ≠ some (u, dotdot) := by
  rw [Tree.reset_ent, if_pos rfl]
  simp

section
variable (h : Tidy root dot dotdot t)
include h

theorem newLeaf (hx : t.kind x = none) (hparent : ∀ e m, t.ent e 1 ≠ some (x, m)) :
    Tidy root dot dotdot (t.reset x (some .leaf)) := by
  obtain ⟨hroot, hnl, hempty⟩ := h.shape.absent hx
  exact h.replace hroot hnl (fun k _ => hempty k) (Tree.SameBut.reset t x _)
    (Clean.reset t x (by simp)) (fun u hu => absurd hu (reset_parent t x u _)) fun _ => hparent

theorem free (hx : t.kind x ≠ none) (h0 : t.nlink x = 0) :
    Tidy root dot dotdot (t.reset x none) := by
  obtain ⟨hroot, hnl, hempty⟩ := h.unlinked_of_zero hx h0
  refine h.replace hroot hnl hempty (Tree.SameBut.reset t x _) (Clean.reset t x (by simp))
    (fun u hu => absurd hu (reset_parent t x u _)) fun hl => ?_
  simp [Tree.reset] at hl

theorem reaps {t' : Tree V N} (hr : t.Reaps t') :
    Tidy root dot dotdot t' := by
  induction hr with
  | none => exact h
  | free _ hx h0 ih => exact ih.free hx h0

end

theorem sameBut_newDir (t : Tree V N) (x d : V) : t.SameBut x (t.newDir dot dotdot x d) :=
  ((Tree.SameBut.reset t x _).setEnt _ _).setEnt _ _

theorem newDir (h : Tidy root dot dotdot t) (hdots : dot ≠ dotdot) (hx : t.kind x = none)
    (hd : t.kind d = some .dir) : Tidy root dot dotdot (t.newDir dot dotdot x d) := by
  obtain ⟨hroot, hnl, hempty⟩ := h.shape.absent hx
  have hkx : (t.newDir dot dotdot x d).kind x = some .dir := update_self ..
  refine h.replace hroot hnl (fun k _ => hempty k) (sameBut_newDir t x d)
    (Clean.newDir t hdots x d) (fun u hu => ?_) fun hl => ?_
  · rw [Tree.newDir_ent, if_pos rfl] at hu
    cases hu
    have hdx : d ≠ x := by
      rintro rfl
      rw [hx] at hd
      cases hd
    rw [(sameBut_newDir t x d).kind d hdx, hd]
    simp
  · rw [hkx] at hl
    cases hl

theorem bare (hdots : dot ≠ dotdot) (hkind : ∀ x, t.kind x = if x = root then some .dir else none)
    (hn : t.nlink root = 1) (hent : ∀ d k, t.ent d k = if d = root ∧ k = 0 then some (root, dot)
      else if d = root ∧ k = 1 then some (root, dotdot) else none) : Tidy root dot dotdot t := by
  have hhigh : ∀ d k, 2 ≤ k → t.ent d k = none := by
    intro d k hk
    rw [hent, if_neg (by omega), if_neg (by omega)]
  have hcases : ∀ d k e, t.ent d k = some e →
      d = root ∧ (k = 0 ∧ e = (root, dot) ∨ k = 1 ∧ e = (root, dotdot)) := by
    intro d k e he
    rw [hent] at he
    split at he
    · rename_i h0
      exact ⟨h0.1, .inl ⟨h0.2, (Option.some.inj he).symm⟩⟩
    · split at he
      · rename_i h1
        exact ⟨h1.1, .inr ⟨h1.2, (Option.some.inj he).symm⟩⟩
      · cases he
  have hroot : ∀ x, t.kind x ≠ none → x = root := by
    intro x hx
    by_contra hne
    rw [hkind, if_neg hne] at hx
    exact hx rfl
  have hdir : t.kind root = some .dir := by rw [hkind, if_pos rfl]
  refine ⟨?_, ?_, hdir, ?_, ?_, ?_, ?_, ?_, fun d _ _ _ k hk => hhigh d k hk, ?_, ?_⟩
  · refine (((Set.finite_singleton (root, 1)).insert (root, 0))).subset ?_
    rintro ⟨d, k⟩ hp
    cases he : t.ent d k with
    | none => exact absurd he hp
    | some e =>
      obtain ⟨rfl, ⟨rfl, -⟩ | ⟨rfl, -⟩⟩ := hcases d k e he
      · exact Set.mem_insert _ _
      · exact Set.mem_insert_of_mem _ rfl
  · intro d k e he
    rw [(hcases d k e he).1]
    exact hdir
  · intro d k x n hk he
    rw [hhigh d k hk] at he
    cases he
  · intro d hd
    rw [hroot d (by rw [hd]; simp), hent, if_pos ⟨rfl, rfl⟩]
  · intro d hd
    refine ⟨root, ?_, by rw [hdir]; simp⟩
    rw [hroot d (by rw [hd]; simp), hent, if_neg (by simp), if_pos ⟨rfl, rfl⟩]
  · intro x hx
    obtain rfl := hroot x hx
    have hlinks : t.links x = ∅ := by
      refine Set.eq_empty_of_forall_notMem ?_
      rintro ⟨d, k⟩ ⟨hk, y, n, he, -⟩
      rw [hhigh d k hk] at he
      cases he
    rw [hn, hlinks, if_pos rfl]
    simp
  · intro x _ d k n d' k' n' hk _ he
    rw [hhigh d k hk] at he
    cases he
  · intro d j k x y n hj hk
    obtain ⟨-, ⟨rfl, he1⟩ | ⟨rfl, he1⟩⟩ := hcases d j _ hj
    · obtain ⟨-, ⟨rfl, -⟩ | ⟨-, he2⟩⟩ := hcases d k _ hk
      · rfl
      · exact absurd ((Prod.mk.inj he1).2.symm.trans (Prod.mk.inj he2).2) hdots
    · obtain ⟨-, ⟨-, he2⟩ | ⟨rfl, -⟩⟩ := hcases d k _ hk
      · exact absurd ((Prod.mk.inj he2).2.symm.trans (Prod.mk.inj he1).2) hdots
      · rfl
  · intro d hd _
    obtain rfl := hroot d (by rw [hd]; simp)
    exact ⟨[], .nil⟩

/-! What an exact tree gives. -/

section
variable (h : Tidy root dot dotdot t) (hx : t.kind x = some .leaf)
include h hx

theorem leaf_entry (he : t.ent d k = some (x, n)) : 2 ≤ k := by
  have hd := h.owner d k _ he
  by_contra hlt
  have hk : k = 0 ∨ k = 1 := by omega
  rcases hk with rfl | rfl
  · rw [h.self d hd] at he
    cases he
    rw [hx] at hd
    cases hd
  · obtain ⟨u, hu, hku⟩ := h.parent d hd
    rw [hu] at he
    cases he
    exact hku hx

theorem leaf_count :
    t.nlink x = {p : V × Nat | ∃ n, t.ent p.1 p.2 = some (x, n)}.ncard := by
  have hroot : x ≠ root := by
    rintro rfl
    rw [h.rootDir] at hx
    cases hx
  have hset : t.links x = {p : V × Nat | ∃ n, t.ent p.1 p.2 = some (x, n)} := by
    ext ⟨d, k⟩
    constructor
    · rintro ⟨-, y, n, he, hy | ⟨hd, -⟩⟩
      · exact ⟨n, hy ▸ he⟩
      · have hdx : d = x := hd
        have hk := h.owner d k _ he
        rw [hdx, hx] at hk
        cases hk
    · rintro ⟨n, he⟩
      have he' : t.ent d k = some (x, n) := he
      exact Tree.mem_links_target (h.leaf_entry hx he') he'
  have hc := h.count x (by rw [hx]; simp)
  rw [if_neg hroot, hset] at hc
  omega

theorem leaf_named (hpos : 0 < t.nlink x) :
    ∃ ns, t.Path root ns x := by
  have hc := h.leaf_count hx
  have hne : {p : V × Nat | ∃ n, t.ent p.1 p.2 = some (x, n)}.ncard ≠ 0 := by omega
  obtain ⟨⟨d, k⟩, n, he⟩ := Set.nonempty_of_ncard_ne_zero hne
  have he' : t.ent d k = some (x, n) := he
  have hd := h.owner d k _ he'
  have hk := h.leaf_entry hx he'
  have hdl : d = root ∨ t.Linked d := by
    by_cases hr : d = root
    · exact .inl hr
    · refine .inr (Classical.byContradiction fun hnl => ?_)
      rw [h.empty d hd hr hnl k hk] at he'
      cases he'
  obtain ⟨ns, hns⟩ := h.named d hd hdl
  exact ⟨ns ++ [n], .snoc hns hk he'⟩

end

end Tidy
end Tidy

end Xv6Audit.LinkTree
