import Xv6Audit.Lib.LinkTree

/-! Trees in which removed directories may still be in use and even hold links. Counts of
directories are exact, those of leaves may be too high, and every directory that is linked
has its holder for a parent; so the directories form a forest. -/
namespace Xv6Audit.LinkTree
open Function

variable {V N : Type*} [DecidableEq V] (root : V) (dot dotdot : N)

structure Forest (t : Tree V N) : Prop where
  finite : {p : V × Nat | t.ent p.1 p.2 ≠ none}.Finite
  owner : ∀ d k e, t.ent d k = some e → t.kind d = some .dir
  rootDir : t.kind root = some .dir
  target : ∀ d k x n, 2 ≤ k → t.ent d k = some (x, n) → t.kind x ≠ none
  self : ∀ d, t.kind d = some .dir → t.ent d 0 = some (d, dot)
  parent : ∀ d, t.kind d = some .dir → ∃ u, t.ent d 1 = some (u, dotdot)
  top : t.ent root 1 = some (root, dotdot)
  above : ∀ d k x n, 2 ≤ k → t.ent d k = some (x, n) → t.kind x = some .dir →
    x ≠ root ∧ t.ent x 1 = some (d, dotdot)
  count : ∀ x, t.kind x = some .dir → t.nlink x = (t.links x).ncard + if x = root then 1 else 0
  atLeast : ∀ x, t.kind x = some .leaf → (t.links x).ncard ≤ t.nlink x
  single : ∀ x, t.kind x = some .dir → ∀ d k n d' k' n', 2 ≤ k → 2 ≤ k' →
    t.ent d k = some (x, n) → t.ent d' k' = some (x, n') → d = d' ∧ k = k'
  names : ∀ d j k x y n, t.ent d j = some (x, n) → t.ent d k = some (y, n) → j = k
  ranked : ∃ rank : V → Nat, ∀ d k x n, 2 ≤ k → t.ent d k = some (x, n) →
    t.kind x = some .dir → rank d < rank x

namespace Forest
variable {root dot dotdot} {t t' : Tree V N} {d x : V} {k : Nat} {n : N}

section
variable (h : Forest root dot dotdot t)
include h

theorem shape : Shape root dot dotdot t :=
  ⟨⟨h.owner, h.self, h.parent⟩, h.finite, h.rootDir, h.target, h.single, h.names⟩

theorem dotted : Dotted dot dotdot t := h.shape.toDotted

theorem nonneg (hx : t.kind x ≠ none) : 0 ≤ t.nlink x := by
  cases hk : t.kind x with
  | none => exact absurd hk hx
  | some c =>
    cases c with
    | leaf =>
      have := h.atLeast x hk
      omega
    | dir =>
      rw [h.count x hk]
      split <;> omega

theorem links_le (hx : t.kind x ≠ none) :
    (t.links x).ncard + (if x = root then 1 else 0) ≤ t.nlink x := by
  cases hk : t.kind x with
  | none => exact absurd hk hx
  | some c =>
    cases c with
    | leaf =>
      have hroot : x ≠ root := by
        rintro rfl
        rw [h.rootDir] at hk
        cases hk
      rw [if_neg hroot]
      simpa using h.atLeast x hk
    | dir => exact Int.le_of_eq (h.count x hk).symm

theorem unlinked_of_zero (hx : t.kind x ≠ none) (h0 : t.nlink x = 0) : x ≠ root ∧ ¬ t.Linked x ∧
      ∀ k y n, 2 ≤ k → t.ent x k = some (y, n) → t.kind y ≠ some .dir := by
  have hle := h.links_le hx
  rw [h0] at hle
  have hroot : x ≠ root := by
    intro he
    rw [if_pos he] at hle
    omega
  rw [if_neg hroot] at hle
  have hempty := (Set.ncard_eq_zero (h.shape.links_finite x)).mp (by omega)
  refine ⟨hroot, ?_, fun k y n hk he hdir => ?_⟩
  · rintro ⟨d, k, n, hk, he⟩
    have hmem := Tree.mem_links_target hk he
    rw [hempty] at hmem
    exact hmem
  · have hmem : (x, k) ∈ t.links x := ⟨hk, y, n, he, .inr ⟨rfl, hdir⟩⟩
    rw [hempty] at hmem
    exact hmem

end

theorem of_tidy (h : Tidy root dot dotdot t) (htop : t.ent root 1 = some (root, dotdot))
    (hlow : ∀ d k, 2 ≤ k → t.ent d k = none) : Forest root dot dotdot t := by
  have hno : ∀ {d k e}, 2 ≤ k → t.ent d k ≠ some e := fun hk he => by
    rw [hlow _ _ hk] at he
    cases he
  refine ⟨h.finite, h.owner, h.rootDir, h.target, h.self, h.dotted.parent, htop, ?_, ?_, ?_, h.single,
    h.names, 0, ?_⟩
  · exact fun d k x n hk he => absurd he (hno hk)
  · exact fun x hx => h.count x (by rw [hx]; simp)
  · intro x hx
    rw [h.count x (by rw [hx]; simp)]
    split <;> omega
  · exact fun d k x n hk he => absurd he (hno hk)

/-! Links. -/

section
variable (h : Forest root dot dotdot t)
include h

theorem link (hd : t.kind d = some .dir) (hk : 2 ≤ k) (hfree : t.ent d k = none)
    (hname : ∀ j y, t.ent d j ≠ some (y, n)) (hx : t.kind x ≠ none)
    (hdir : t.kind x = some .dir → x ≠ root ∧ ¬ t.Linked x ∧ x ≠ d ∧
      t.ent x 1 = some (d, dotdot) ∧ ∀ j, 2 ≤ j → t.ent x j = none) :
    Forest root dot dotdot (t.link d k n x) := by
  have hs := h.shape.link hd hfree hname hx fun hy => (hdir hy).2.1
  have hkeep : ∀ {d' k' e}, t.ent d' k' = some e → (t.link d k n x).ent d' k' = some e :=
    Tree.link_keeps hfree
  have hcount := fun y => t.link_count n x y hk hfree (h.shape.links_finite y)
  obtain ⟨rank, hrank⟩ := h.ranked
  refine ⟨hs.finite, hs.owner, hs.rootDir, hs.target, hs.self, hs.parent, hkeep h.top,
    fun d' k' y m hk' he hy => ?_, fun y hy => ?_, fun y hy => ?_, hs.single, hs.names, ?_⟩
  · rcases Tree.link_cases he with ⟨rfl, -, he⟩ | he
    · cases he
      exact ⟨(hdir hy).1, hkeep (hdir hy).2.2.2.1⟩
    · exact (h.above _ _ _ _ hk' he hy).imp_right hkeep
  · have h1 := h.count y hy
    have h2 := hcount y
    omega
  · have h1 := h.atLeast y hy
    have h2 := hcount y
    omega
  · -- a new directory is ranked above its holder; it holds no link itself yet
    by_cases hxd : t.kind x = some .dir
    · obtain ⟨-, hnl, hne, -, hempty⟩ := hdir hxd
      refine ⟨update rank x (rank d + 1), fun d' k' y m hk' he hy => ?_⟩
      rcases Tree.link_cases he with ⟨rfl, -, heq⟩ | hent
      · cases heq
        rw [update_self, update_of_ne (Ne.symm hne)]
        omega
      · have hyx : y ≠ x := by
          rintro rfl
          exact hnl ⟨d', k', m, hk', hent⟩
        have hdx : d' ≠ x := by
          rintro rfl
          rw [hempty k' hk'] at hent
          cases hent
        rw [update_of_ne hyx, update_of_ne hdx]
        exact hrank d' k' y m hk' hent hy
    · refine ⟨rank, fun d' k' y m hk' he hy => ?_⟩
      rcases Tree.link_cases he with ⟨-, -, he⟩ | he
      · cases he
        exact absurd hy hxd
      · exact hrank d' k' y m hk' he hy

theorem unlink (hk : 2 ≤ k) (he : t.ent d k = some (x, n)) :
    Forest root dot dotdot (t.unlink d k x) := by
  have hs := h.shape.unlink (d := d) (x := x) hk
  have hlow : ∀ {d' e}, t.ent d' 1 = some e → (t.unlink d k x).ent d' 1 = some e :=
    fun he' => Tree.unlink_keeps he' (by omega)
  have hcount := fun y => Tree.unlink_count hk he y (h.shape.links_finite y)
  obtain ⟨rank, hrank⟩ := h.ranked
  refine ⟨hs.finite, hs.owner, hs.rootDir, hs.target, hs.self, hs.parent, hlow h.top,
    fun d' k' y m hk' he' hy => ?_, fun y hy => ?_, fun y hy => ?_, hs.single, hs.names,
    rank, fun d' k' y m hk' he' hy => hrank d' k' y m hk' (Tree.unlink_cases he').1 hy⟩
  · exact (h.above d' k' y m hk' (Tree.unlink_cases he').1 hy).imp_right hlow
  · have h1 := h.count y hy
    have h2 := hcount y
    omega
  · have h1 := h.atLeast y hy
    have h2 := hcount y
    omega

/-! Nodes that come and go. -/

theorem replace (hroot : x ≠ root) (hnl : ¬ t.Linked x)
    (hsub : ∀ k y n, 2 ≤ k → t.ent x k = some (y, n) → t.kind y ≠ some .dir)
    (hsame : t.SameBut x t') (hc : Clean dot dotdot x t') : Forest root dot dotdot t' := by
  have hs := h.shape.replace hroot hnl hsame hc
  obtain ⟨rank, hrank⟩ := h.ranked
  refine ⟨hs.finite, hs.owner, hs.rootDir, hs.target, hs.self, hs.parent, ?_,
    fun d k y m hk he hy => ?_, fun y hy => ?_, fun y hy => ?_, hs.single, hs.names,
    rank, fun d k y m hk he hy => ?_⟩
  · rw [hsame.ent root (Ne.symm hroot)]
    exact h.top
  · obtain ⟨-, hyx, he⟩ := Shape.replaced hnl hsame hc hk he
    rw [hsame.kind y hyx] at hy
    rw [hsame.ent y hyx]
    exact h.above d k y m hk he hy
  · by_cases hyx : y = x
    · subst y
      rw [hc.nlink, Shape.replaced_links hnl hsame hc, if_neg hroot]
      simp
    · rw [hsame.kind y hyx] at hy
      -- what goes with `x` are links to leaves only
      have hsup := Shape.links_superset hnl hsame (y := y) fun k z m hk he hz =>
        hsub k z m hk he (hz.elim (fun hzy => hzy ▸ hy) And.right)
      rw [hsame.nlink y hyx, (Shape.links_subset hnl hsame hc y).antisymm hsup]
      exact h.count y hy
  · by_cases hyx : y = x
    · subst y
      rw [hc.nlink, Shape.replaced_links hnl hsame hc]
      simp
    · rw [hsame.kind y hyx] at hy
      rw [hsame.nlink y hyx]
      have h1 := h.atLeast y hy
      have h2 := Set.ncard_le_ncard (Shape.links_subset hnl hsame hc y) (h.shape.links_finite y)
      omega
  · obtain ⟨-, hyx, he⟩ := Shape.replaced hnl hsame hc hk he
    rw [hsame.kind y hyx] at hy
    exact hrank d k y m hk he hy

theorem place (hx : t.kind x = none) (hsame : t.SameBut x t') (hc : Clean dot dotdot x t') :
    Forest root dot dotdot t' := by
  obtain ⟨hroot, hnl, hempty⟩ := h.shape.absent hx
  refine h.replace hroot hnl (fun k y n _ he => ?_) hsame hc
  rw [hempty k] at he
  cases he

theorem newLeaf (hx : t.kind x = none) : Forest root dot dotdot (t.reset x (some .leaf)) :=
  h.place hx (Tree.SameBut.reset t x _) (Clean.reset t x (by simp))

theorem free (hx : t.kind x ≠ none) (h0 : t.nlink x = 0) :
    Forest root dot dotdot (t.reset x none) := by
  obtain ⟨hroot, hnl, hsub⟩ := h.unlinked_of_zero hx h0
  exact h.replace hroot hnl hsub (Tree.SameBut.reset t x _) (Clean.reset t x (by simp))

theorem reaps (hr : t.Reaps t') : Forest root dot dotdot t' := by
  induction hr with
  | none => exact h
  | free _ hx h0 ih => exact ih.free hx h0

theorem newDir (hdots : dot ≠ dotdot) (hx : t.kind x = none) (d : V) :
    Forest root dot dotdot (t.newDir dot dotdot x d) :=
  h.place hx (Tidy.sameBut_newDir t x d) (Clean.newDir t hdots x d)

/-! What a forest gives. -/

theorem two_le_iff (hdots : dot ≠ dotdot) (he : t.ent d k = some (x, n)) :
    2 ≤ k ↔ n ≠ dot ∧ n ≠ dotdot := by
  have hd := h.owner d k _ he
  obtain ⟨u, hu⟩ := h.parent d hd
  constructor
  · intro hk
    refine ⟨?_, ?_⟩
    · rintro rfl
      have := h.names d 0 k _ _ _ (h.self d hd) he
      omega
    · rintro rfl
      have := h.names d 1 k _ _ _ hu he
      omega
  · rintro ⟨h1, h2⟩
    by_contra hlt
    obtain rfl | rfl : k = 0 ∨ k = 1 := by omega
    · rw [h.self d hd] at he
      cases he
      exact h1 rfl
    · rw [hu] at he
      cases he
      exact h2 rfl

end

/-- By its entries one stays among the nodes below the root: the parent of a directory that is
found from the root is on the way there. -/
theorem path_step (h : Forest root dot dotdot t) {ns : List N} (hp : t.Path root ns d)
    (he : t.ent d k = some (x, n)) : ∃ ms, t.Path root ms x := by
  have hd := h.owner d k _ he
  by_cases hk : 2 ≤ k
  · exact ⟨ns ++ [n], hp.snoc hk he⟩
  · obtain rfl | rfl : k = 0 ∨ k = 1 := by omega
    · rw [h.self d hd] at he
      cases he
      exact ⟨ns, hp⟩
    · cases hp with
      | nil =>
        rw [h.top] at he
        cases he
        exact ⟨[], .nil⟩
      | snoc hpy hky hey =>
        rw [(h.above _ _ d _ hky hey hd).2] at he
        cases he
        exact ⟨_, hpy⟩

end Forest

/-! Removed directories that are still in use. -/

/-- A directory that was removed holds no directories, and none that is in use has a removed
one for its parent. -/
structure Upright (t : Tree V N) : Prop where
  held : ∀ d k x n, 2 ≤ k → t.ent d k = some (x, n) → t.kind x = some .dir →
    d = root ∨ t.Linked d
  up : ∀ e u, t.kind e = some .dir → t.ent e 1 = some (u, dotdot) →
    t.kind u = some .dir ∧ (u = root ∨ t.Linked u)

namespace Upright
variable {root dot dotdot} {t t' : Tree V N} {d x : V} {k : Nat} {n : N}

section
variable (hu : Upright root dotdot t)
include hu

theorem linked_of_pos (h : Forest root dot dotdot t) (hd : t.kind d = some .dir)
    (hpos : 0 < t.nlink d) : d = root ∨ t.Linked d := by
  by_cases hroot : d = root
  · exact .inl hroot
  · rw [h.count d hd, if_neg hroot] at hpos
    obtain ⟨⟨e, j⟩, hj, x, n, he, hx⟩ := Set.nonempty_of_ncard_ne_zero
      (s := t.links d) (by omega)
    rcases hx with rfl | ⟨hed, hx⟩
    · exact .inr ⟨e, j, n, hj, he⟩
    · exact hu.held d j x n hj (hed ▸ he) hx

theorem target (h : Forest root dot dotdot t) (he : t.ent d k = some (x, n)) : t.kind x ≠ none := by
  have hd := h.owner d k _ he
  by_cases hk : 2 ≤ k
  · exact h.target d k x n hk he
  · obtain rfl | rfl : k = 0 ∨ k = 1 := by omega
    · rw [h.self d hd] at he
      cases he
      rw [hd]
      simp
    · obtain ⟨u, hdd⟩ := h.parent d hd
      rw [hdd] at he
      cases he
      rw [(hu.up d _ hd hdd).1]
      simp

theorem link (hk : 2 ≤ k) (hfree : t.ent d k = none)
    (hx : t.kind x = some .dir → d = root ∨ t.Linked d) : Upright root dotdot (t.link d k n x) := by
  have hmono : ∀ {y}, y = root ∨ t.Linked y → y = root ∨ (t.link d k n x).Linked y := by
    refine fun hy => hy.imp id ?_
    rintro ⟨e, j, m, hj, he⟩
    refine ⟨e, j, m, hj, ?_⟩
    exact Tree.link_keeps hfree he
  refine ⟨fun e j y m hj he hy => ?_, fun e u hek he => ?_⟩
  · rcases Tree.link_cases he with ⟨rfl, -, he⟩ | he
    · cases he
      exact hmono (hx hy)
    · exact hmono (hu.held e j y m hj he hy)
  · rw [Tree.link_ent, if_neg (by omega)] at he
    exact ⟨(hu.up e u hek he).1, hmono (hu.up e u hek he).2⟩

section
variable (h : Forest root dot dotdot t)
include h

theorem unlink (hk : 2 ≤ k) (he : t.ent d k = some (x, n))
    (hempty : t.kind x = some .dir → ∀ j, 2 ≤ j → t.ent x j = none)
    (hstay : t.kind x = some .dir → ∀ e, t.kind e = some .dir → t.ent e 1 ≠ some (x, dotdot)) :
    Upright root dotdot (t.unlink d k x) := by
  have hold : ∀ e j a, (t.unlink d k x).ent e j = some a → t.ent e j = some a :=
    fun _ _ _ ha => (Tree.unlink_cases ha).1
  have hmono : ∀ {y}, y ≠ x → y = root ∨ t.Linked y → y = root ∨ (t.unlink d k x).Linked y := by
    refine fun hyx hy => hy.imp id ?_
    rintro ⟨e, j, m, hj, hej⟩
    refine ⟨e, j, m, hj, Tree.unlink_keeps hej ?_⟩
    rintro ⟨rfl, rfl⟩
    rw [he] at hej
    cases hej
    exact hyx rfl
  refine ⟨fun e j y m hj hej hy => ?_, fun e u hek hej => ?_⟩
  · have hej' := hold e j _ hej
    refine hmono ?_ (hu.held e j y m hj hej' hy)
    rintro rfl
    rw [hempty (h.owner e j _ hej') j hj] at hej'
    cases hej'
  · have hej' := hold e 1 _ hej
    obtain ⟨huk, hul⟩ := hu.up e u hek hej'
    refine ⟨huk, hmono ?_ hul⟩
    rintro rfl
    exact hstay huk e hek hej'

theorem replace (hroot : x ≠ root) (hnl : ¬ t.Linked x)
    (hsub : ∀ k y n, 2 ≤ k → t.ent x k = some (y, n) → t.kind y ≠ some .dir)
    (hsame : t.SameBut x t') (hent : ∀ k, 2 ≤ k → t'.ent x k = none)
    (hup : ∀ u, t'.kind x = some .dir → t'.ent x 1 = some (u, dotdot) →
      t.kind u = some .dir ∧ (u = root ∨ t.Linked u)) : Upright root dotdot t' := by
  have hne : ∀ {y}, y = root ∨ t.Linked y → y ≠ x := by
    rintro y hy rfl
    exact hy.elim hroot hnl
  have hmono : ∀ {y}, t.kind y = some .dir → y = root ∨ t.Linked y → y = root ∨ t'.Linked y := by
    refine fun hyk hy => hy.imp id ?_
    rintro ⟨e, j, m, hj, he⟩
    refine ⟨e, j, m, hj, ?_⟩
    rw [hsame.ent e]
    · exact he
    · rintro rfl
      exact hsub j _ m hj he hyk
  have hback : ∀ {u}, t.kind u = some .dir ∧ (u = root ∨ t.Linked u) →
      t'.kind u = some .dir ∧ (u = root ∨ t'.Linked u) := fun hu' =>
    ⟨by rw [hsame.kind _ (hne hu'.2)]; exact hu'.1, hmono hu'.1 hu'.2⟩
  refine ⟨fun e j y m hj he hy => ?_, fun e u hek he => ?_⟩
  · have hex : e ≠ x := by
      rintro rfl
      rw [hent j hj] at he
      cases he
    rw [hsame.ent e hex] at he
    have hyx : y ≠ x := hne (.inr ⟨e, j, m, hj, he⟩)
    rw [hsame.kind y hyx] at hy
    exact hmono (h.owner e j _ he) (hu.held e j y m hj he hy)
  · by_cases hex : e = x
    · subst e
      exact hback (hup u hek he)
    · rw [hsame.kind e hex] at hek
      rw [hsame.ent e hex] at he
      exact hback (hu.up e u hek he)

theorem newLeaf (hx : t.kind x = none) :
    Upright root dotdot (t.reset x (some .leaf)) := by
  obtain ⟨hroot, hnl, hempty⟩ := h.shape.absent hx
  refine hu.replace h hroot hnl (fun k y n _ he => ?_) (Tree.SameBut.reset t x _)
    (fun k _ => by rw [Tree.reset_ent, if_pos rfl]) fun u hd _ => ?_
  · rw [hempty k] at he
    cases he
  · simp [Tree.reset] at hd

theorem newDir (hx : t.kind x = none) (hd : t.kind d = some .dir) (hup : d = root ∨ t.Linked d) :
    Upright root dotdot (t.newDir dot dotdot x d) := by
  obtain ⟨hroot, hnl, hempty⟩ := h.shape.absent hx
  have hent := t.newDir_ent dot dotdot x d
  refine hu.replace h hroot hnl (fun k y n _ he => ?_) (Tidy.sameBut_newDir t x d) (fun k hk => ?_)
    fun u _ he => ?_
  · rw [hempty k] at he
    cases he
  · rw [hent, if_neg (by omega), if_neg (by omega)]
  · rw [hent, if_pos rfl] at he
    cases he
    exact ⟨hd, hup⟩

theorem reaps (hr : t.Reaps t') : Upright root dotdot t' := by
  induction hr with
  | none => exact hu
  | @free t' x hr hx h0 ih =>
    obtain ⟨hroot, hnl, hsub⟩ := (h.reaps hr).unlinked_of_zero hx h0
    refine ih.replace (h.reaps hr) hroot hnl hsub (Tree.SameBut.reset t' x _)
      (fun k _ => by rw [Tree.reset_ent, if_pos rfl]) fun u hd _ => ?_
    simp [Tree.reset] at hd

end

end

end Upright

end Xv6Audit.LinkTree
