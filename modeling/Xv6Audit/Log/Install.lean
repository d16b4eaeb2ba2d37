import Xv6Audit.Log.View

/-! A disk with a log on it stands for a home state: the logged blocks replace their home
locations. Installing the log, in part or whole, never changes what the disk stands for. -/
namespace Xv6Audit.Log
open Function Disk Prog

def hdr (g : Geometry) (d : Nat → Block) : LogHeader :=
  ⟨(d g.start).word 0, fun i => (d g.start).word (i+1)⟩

structure Durable (g : Geometry) (d H : Nat → Block) : Prop where
  room : (hdr g d).n + 1 ≤ g.size
  small : (hdr g d).n ≤ LOGSIZE
  home : ∀ i, i < (hdr g d).n → ¬InLog g ((hdr g d).block i)
  logged : ∀ i, i < (hdr g d).n → H ((hdr g d).block i) = d (g.start + i + 1)
  rest : ∀ x, ¬InLog g x → (∀ i, i < (hdr g d).n → (hdr g d).block i ≠ x) → H x = d x

/-- Between transactions: the log is empty on disk and in memory, and both the disk and
the cache show `H` at every home block. -/
structure Idle (g : Geometry) (A : View) (H : Nat → Block) : Prop where
  start : A.start = g.start
  size : A.size = g.size
  outstanding : A.outstanding = 0
  empty : A.lh.n = 0
  hdr_empty : (hdr g A.disk).n = 0
  disk : ∀ x, ¬InLog g x → A.disk x = H x
  view : ∀ x, ¬InLog g x → A.view x = H x

theorem in_log (g : Geometry) {i n : Nat} (hi : i < n) (hr : n + 1 ≤ g.size) :
    InLog g (g.start + i + 1) := by
  constructor <;> omega

theorem header_in_log (g : Geometry) : InLog g g.start := by
  have h := g.size_pos
  constructor <;> omega

variable {g : Geometry}

theorem hdr_congr {d d' : Nat → Block} (h : d' g.start = d g.start) :
    hdr g d' = hdr g d := by
  simp only [hdr, h]

theorem Durable.of_empty {d H : Nat → Block} (hn : (hdr g d).n = 0)
    (hd : ∀ x, ¬InLog g x → d x = H x) : Durable g d H where
  room := by have h := g.size_pos; omega
  small := by omega
  home := by intro i hi; omega
  logged := by intro i hi; omega
  rest := fun x hx _ => (hd x hx).symm

theorem Idle.durable {A : View} {H : Nat → Block} (h : Idle g A H) :
    Durable g A.disk H :=
  Durable.of_empty h.hdr_empty h.disk

theorem update_home {d : Nat → Block} {x y : Nat} {v : Block} (hx : ¬InLog g x) (hy : InLog g y) :
    update d x v y = d y := by
  have hne : y ≠ x := by intro he; subst y; exact hx hy
  exact update_of_ne hne _ _

theorem Durable.install {d H : Nat → Block} (h : Durable g d H) {i : Nat} (hi : i < (hdr g d).n) :
    Durable g (update d ((hdr g d).block i) (d (g.start + i + 1))) H := by
  have hb := h.home i hi
  have hh : hdr g (update d ((hdr g d).block i) (d (g.start + i + 1))) = hdr g d :=
    hdr_congr (update_home hb (header_in_log g))
  constructor
  · rw [hh]; exact h.room
  · rw [hh]; exact h.small
  · rw [hh]; exact h.home
  · rw [hh]
    intro j hj
    rw [update_home hb (in_log g hj h.room)]
    exact h.logged j hj
  · rw [hh]
    intro x hx hne
    rw [update_of_ne (Ne.symm (hne i hi))]
    exact h.rest x hx hne

structure Installing (g : Geometry) (A : View) (H : Nat → Block) (i : Nat) (B : View) :
    Prop where
  start : B.start = g.start
  size : B.size = A.size
  outstanding : B.outstanding = A.outstanding
  lh : B.lh = A.lh
  left : B.left = A.left - i
  durable : Durable g B.disk H
  header : hdr g B.disk = hdr g A.disk
  agree : ∀ x, InLog g x → B.disk x = A.disk x ∧ B.view x = A.view x
  done : ∀ j, j < i → B.disk ((hdr g A.disk).block j) = H ((hdr g A.disk).block j)
  clean : ∀ x, ¬InLog g x → (∀ j, i ≤ j → j < A.lh.n → (hdr g A.disk).block j ≠ x) →
    B.view x = B.disk x

variable {g : Geometry} {s : Machine} {A B : View} {H : Nat → Block}

/-- What the loop needs of its start: the in-memory header is the one on disk, and the log
blocks are seen as they are on disk. -/
structure Installable (g : Geometry) (A : View) (H : Nat → Block) : Prop where
  start : A.start = g.start
  durable : Durable g A.disk H
  n : A.lh.n = (hdr g A.disk).n
  block : ∀ i, i < A.lh.n → A.lh.block i = (hdr g A.disk).block i
  log : ∀ i, i < A.lh.n → A.view (g.start + i + 1) = A.disk (g.start + i + 1)
  clean : ∀ x, ¬InLog g x → (∀ j, j < A.lh.n → (hdr g A.disk).block j ≠ x) →
    A.view x = A.disk x

theorem Installable.installing (h : Installable g A H) : Installing g A H 0 A where
  start := h.start
  size := rfl
  outstanding := rfl
  lh := rfl
  left := rfl
  durable := h.durable
  header := rfl
  agree := fun _ _ => ⟨rfl, rfl⟩
  done := by intro j hj; omega
  clean := fun x hx hne => h.clean x hx fun j hj => hne j (by omega) hj

/-- The view after one round: the log block copied home and written, counts back to where
they were except for the pin dropped on the way. -/
def installed (B : View) (lb db : Nat) (recovering : Bool) : View :=
  let C := (((B.hold lb).hold db).store db (B.view lb)).write db
  let D := if recovering then C else C.drop db
  (D.drop lb).drop db

theorem installed_disk (B : View) (lb db : Nat) (r : Bool) :
    (installed B lb db r).disk = update B.disk db (B.view lb) := by
  cases r <;> simp [installed, View.hold, View.store, View.write, View.drop]

theorem installed_view (B : View) (lb db : Nat) (r : Bool) :
    (installed B lb db r).view = update B.view db (B.view lb) := by
  cases r <;> simp [installed, View.hold, View.store, View.write, View.drop]

theorem installed_rest (B : View) (lb db : Nat) (r : Bool) :
    (installed B lb db r).start = B.start ∧ (installed B lb db r).size = B.size ∧
    (installed B lb db r).outstanding = B.outstanding ∧ (installed B lb db r).lh = B.lh ∧
    (installed B lb db r).left = B.left - 1 := by
  cases r <;> exact ⟨rfl, rfl, rfl, rfl, rfl⟩

theorem Installing.step (hA : Installable g A H) {i : Nat} (hi : i < A.lh.n)
    (h : Installing g A H i B) (r : Bool) :
    Installing g A H (i+1) (installed B (g.start + i + 1) (A.lh.block i) r) := by
  have hn : i < (hdr g A.disk).n := by have h' := hA.n; omega
  have hblk := hA.block i hi
  have hhome := hA.durable.home i hn
  have hlog := in_log g hn hA.durable.room
  have hB : B.view (g.start + i + 1) = B.disk (g.start + i + 1) := by
    rw [(h.agree _ hlog).2, (h.agree _ hlog).1, hA.log i hi]
  have hH : H ((hdr g A.disk).block i) = B.disk (g.start + i + 1) := by
    rw [(h.agree _ hlog).1]
    exact hA.durable.logged i hn
  obtain ⟨r1, r2, r3, r4, r5⟩ := installed_rest B (g.start + i + 1) (A.lh.block i) r
  have hd := installed_disk B (g.start + i + 1) (A.lh.block i) r
  have hv := installed_view B (g.start + i + 1) (A.lh.block i) r
  rw [hblk, hB] at hd hv
  refine ⟨r1.trans h.start, r2.trans h.size, r3.trans h.outstanding, r4.trans h.lh, ?_, ?_, ?_,
    ?_, ?_, ?_⟩
  · rw [r5, h.left]; omega
  · rw [hblk, hd, ← h.header]
    exact h.durable.install (by rw [h.header]; exact hn)
  · rw [hblk, hd, ← h.header]
    exact hdr_congr (update_home (by rw [h.header]; exact hhome) (header_in_log g))
  · intro x hx
    rw [hblk, hd, hv, update_home hhome hx, update_home hhome hx]
    exact h.agree x hx
  · intro j hj
    rw [hblk, hd]
    by_cases he : (hdr g A.disk).block j = (hdr g A.disk).block i
    · rw [he, update_self, hH]
    · rw [update_of_ne he]
      have hji : j ≠ i := by intro h'; subst j; exact he rfl
      exact h.done j (by omega)
  · intro x hx hne
    rw [hblk, hd, hv]
    by_cases he : x = (hdr g A.disk).block i
    · subst x; rw [update_self, update_self]
    · rw [update_of_ne he, update_of_ne he]
      refine h.clean x hx ?_
      intro j hj hjn
      by_cases hji : j = i
      · subst j; exact Ne.symm he
      · exact hne j (by omega) hjn

/-- `install_trans`, whether recovering or committing: at every crash point the disk stands
for `H`, and at the end the cache and the disk hold `H` at every home block. A crash means
that there were too few writes left. -/
theorem wp_installTrans (r : Bool) (hs : Shows s A) (hA : Installable g A H) :
    wp (installTrans r) (fun _ s' => ∃ B, Shows s' B ∧ Installing g A H A.lh.n B)
      (fun _ s' => Durable g s'.disk H ∧ A.left < A.lh.n) s := by
  unfold installTrans
  simp only [wp_bind, wp_get]
  rw [hs.lh]
  refine wp_forUpto (fun i s' => ∃ B, Shows s' B ∧ Installing g A H i B)
    ⟨A, hs, hA.installing⟩ ?_
  rintro i hi t ⟨B, ht, hB⟩
  have hn : i < (hdr g A.disk).n := by have h' := hA.n; omega
  have hhome : ¬InLog g (A.lh.block i) := by rw [hA.block i hi]; exact hA.durable.home i hn
  have hlog := in_log g hn hA.durable.room
  have hne : g.start + i + 1 ≠ A.lh.block i := by intro he; rw [he] at hlog; exact hhome hlog
  have hclean : B.view (g.start + i + 1) = B.disk (g.start + i + 1) := by
    rw [(hB.agree _ hlog).2, (hB.agree _ hlog).1, hA.log i hi]
  simp only [wp_bind, wp_get]
  rw [ht.start, ht.lh, hB.start, hB.lh]
  refine wp_bread ht fun t1 h1 => wp_bread h1 fun t2 h2 => wp_bdata h2 ?_
  refine wp_setData h2 (by simp [View.hold]) fun t3 h3 => ?_
  refine wp_bwrite h3 ?_ fun t4 h4 => ?_
  · intro hl
    have hl' : B.left = 0 := hl
    refine ⟨?_, by have := hB.left; omega⟩
    rw [h3.disk]
    exact hB.durable
  have hstep := hB.step hA hi r
  cases r with
  | true =>
    simp only [Bool.true_eq_false, if_false, wp_bind]
    refine wp_brelse h4 ?_ fun t5 h5 => wp_brelse h5 ?_ fun t6 h6 => ?_
    · intro _
      simp [View.hold, View.store, View.write, hne, hclean]
    · intro _
      simp [View.hold, View.store, View.write, View.drop]
    · refine ⟨_, h6, ?_⟩
      simpa [installed, View.hold] using hstep
  | false =>
    simp only [if_true, wp_bind]
    refine wp_bunpin h4 ?_ fun t5 h5 => wp_brelse h5 ?_ fun t6 h6 =>
      wp_brelse h6 ?_ fun t7 h7 => ?_
    · intro _
      simp [View.hold, View.store, View.write]
    · intro _
      simp [View.hold, View.store, View.write, View.drop, hne, hclean]
    · intro _
      simp [View.hold, View.store, View.write, View.drop]
    · refine ⟨_, h7, ?_⟩
      simpa [installed, View.hold] using hstep

theorem Installing.home (hA : Installable g A H) (h : Installing g A H A.lh.n B) :
    ∀ x, ¬InLog g x → B.disk x = H x ∧ B.view x = H x := by
  intro x hx
  have hd : B.disk x = H x := by
    by_cases he : ∃ j, j < (hdr g A.disk).n ∧ (hdr g A.disk).block j = x
    · obtain ⟨j, hj, rfl⟩ := he
      exact h.done j (by rw [hA.n]; exact hj)
    · rw [h.durable.rest x hx]
      rw [h.header]
      intro j hj hjx
      exact he ⟨j, hj, hjx⟩
  exact ⟨hd, (h.clean x hx fun j hj hjn => by omega).trans hd⟩

end Xv6Audit.Log
