import Xv6Audit.Log.Redo

/-! What the rest of the log needs of the buffer cache: the contents seen through it, the
reference counts and the disk. Recycling is invisible here as long as every
unreferenced buffer equals its block on disk. -/
namespace Xv6Audit.Log
open Function Disk Prog

structure View where
  view : Nat → Block
  ref : Nat → Nat
  disk : Nat → Block
  left : Nat
  start : Nat
  size : Nat
  outstanding : Nat
  lh : LogHeader

namespace View

def Clean (A : View) : Prop := ∀ b, A.ref b = 0 → A.view b = A.disk b

def hold (A : View) (b : Nat) : View := { A with ref := update A.ref b (A.ref b + 1) }
def drop (A : View) (b : Nat) : View := { A with ref := update A.ref b (A.ref b - 1) }
def store (A : View) (b : Nat) (d : Block) : View :=
  { A with view := update A.view b d }
def write (A : View) (b : Nat) : View :=
  { A with disk := update A.disk b (A.view b), left := A.left - 1 }

end View

def Machine.abs (s : Machine) : View where
  view := s.viewOf
  ref := s.refOf
  disk := s.disk
  left := s.writesLeft
  start := s.start
  size := s.size
  outstanding := s.outstanding
  lh := s.lh

def Shows (s : Machine) (A : View) : Prop := s.abs = A ∧ A.Clean

variable {s : Machine} {A : View} {b : Nat} {Q : Unit → Machine → Prop}
  {E : Stop → Machine → Prop}

theorem Shows.disk (h : Shows s A) : s.disk = A.disk := by rw [← h.1]; rfl

theorem Shows.lh (h : Shows s A) : s.lh = A.lh := by rw [← h.1]; rfl

theorem Shows.start (h : Shows s A) : s.start = A.start := by rw [← h.1]; rfl

theorem Shows.viewOf (h : Shows s A) (b : Nat) : s.viewOf b = A.view b := by rw [← h.1]; rfl

theorem updBuf_viewOf (s : Machine) (b x : Nat) (f : Buf → Buf) :
    (s.updBuf b f).viewOf x = match s.cache b with
      | some buf => if x = b then (f buf).data else s.viewOf x
      | none => s.viewOf x := by
  by_cases hx : x = b
  · subst x
    cases hb : s.cache b <;> simp [Machine.viewOf, Machine.updBuf, hb]
  · cases hb : s.cache b <;> simp [Machine.viewOf, Machine.updBuf, hx]

theorem updBuf_refOf (s : Machine) (b x : Nat) (f : Buf → Buf) :
    (s.updBuf b f).refOf x = match s.cache b with
      | some buf => if x = b then (f buf).refcnt else s.refOf x
      | none => s.refOf x := by
  by_cases hx : x = b
  · subst x
    cases hb : s.cache b <;> simp [Machine.refOf, Machine.updBuf, hb]
  · cases hb : s.cache b <;> simp [Machine.refOf, Machine.updBuf, hx]

theorem recycle_abs (hc : s.abs.Clean) : s.recycle.abs = s.abs := by
  unfold Machine.recycle
  cases hv : s.victims with
  | nil => rfl
  | cons v vs =>
    by_cases hr : s.refOf v = 0
    · have hd : s.viewOf v = s.disk v := hc v hr
      simp only [hr, if_true, Machine.abs, View.mk.injEq, and_true]
      constructor
      · funext x
        by_cases hx : x = v
        · subst x
          rw [hd]
          simp [Machine.viewOf]
        · simp [Machine.viewOf, update_of_ne hx]
      · funext x
        by_cases hx : x = v
        · subst x
          rw [hr]
          simp [Machine.refOf]
        · simp [Machine.refOf, update_of_ne hx]
    · simp only [hr, if_false]
      rfl

theorem recycle_cache_none (h : s.cache b = none) : s.recycle.cache b = none := by
  unfold Machine.recycle
  cases s.victims with
  | nil => exact h
  | cons v vs =>
    by_cases hr : s.refOf v = 0
    · by_cases hb : b = v
      · subst b; simp [hr]
      · simp [hr, update_of_ne hb, h]
    · simpa [hr] using h

theorem hold_clean (h : A.Clean) : (A.hold b).Clean := by
  intro x hx
  by_cases hb : x = b
  · subst x; simp [View.hold] at hx
  · exact h x (by simpa [View.hold, update_of_ne hb] using hx)

theorem drop_clean (h : A.Clean) (hb : A.ref b = 1 → A.view b = A.disk b) :
    (A.drop b).Clean := by
  intro x hx
  by_cases hxb : x = b
  · subst x
    simp only [View.drop, update_self] at hx
    rcases Nat.lt_or_ge (A.ref b) 1 with h0 | h1
    · exact h b (by omega)
    · exact hb (by omega)
  · exact h x (by simpa [View.drop, update_of_ne hxb] using hx)

theorem store_clean (h : A.Clean) (d : Block) (hb : 1 ≤ A.ref b) : (A.store b d).Clean := by
  intro x hx
  have hx' : A.ref x = 0 := hx
  have hxb : x ≠ b := by intro he; subst x; omega
  simpa [View.store, update_of_ne hxb] using h x hx'

theorem write_clean (h : A.Clean) : (A.write b).Clean := by
  intro x hx
  by_cases hxb : x = b
  · subst x; simp [View.write]
  · simpa [View.write, update_of_ne hxb] using h x hx

theorem bread_abs (hc : s.abs.Clean) :
    ∀ s', (bread b s) = (.ok (), s') → s'.abs = s.abs.hold b := by
  intro s' hs'
  have he : s' = (bread b s).2 := by rw [hs']
  subst he
  change (match s.cache b with
    | some _ => s.updBuf b fun buf => { buf with refcnt := buf.refcnt + 1 }
    | none =>
      let r := s.recycle
      { r with cache := update r.cache b (some ⟨r.disk b, 1⟩) }).abs = _
  cases hb : s.cache b with
  | some buf =>
    simp only [Machine.abs, View.hold, View.mk.injEq]
    refine ⟨?_, ?_, rfl, rfl, rfl, rfl, rfl, rfl⟩
    · funext x
      rw [updBuf_viewOf, hb]
      by_cases hx : x = b
      · subst x; simp [Machine.viewOf, hb]
      · simp [hx]
    · funext x
      rw [updBuf_refOf, hb]
      by_cases hx : x = b
      · subst x; simp [Machine.refOf, hb]
      · simp [hx]
  | none =>
    have hr := recycle_abs hc
    have hn := recycle_cache_none hb
    rw [← hr]
    simp only [Machine.abs, View.hold, View.mk.injEq, and_true]
    constructor
    · funext x
      by_cases hx : x = b
      · subst x; simp [Machine.viewOf, hn]
      · simp [Machine.viewOf, update_of_ne hx]
    · funext x
      by_cases hx : x = b
      · subst x; simp [Machine.refOf, hn]
      · simp [Machine.refOf, update_of_ne hx]

section
variable (h : Shows s A)
include h

theorem wp_bread (hQ : ∀ s', Shows s' (A.hold b) → Q () s') : wp (bread b) Q E s := by
  obtain ⟨rfl, hc⟩ := h
  exact hQ _ ⟨bread_abs hc _ rfl, hold_clean hc⟩

theorem wp_bdata {R : Block → Machine → Prop} (hQ : R (A.view b) s) : wp (bdata b) R E s := by
  have hv := h.viewOf b
  simpa [bdata, hv] using hQ

theorem wp_setData {d : Block} (hb : 1 ≤ A.ref b) (hQ : ∀ s', Shows s' (A.store b d) → Q () s') :
    wp (setData b d) Q E s := by
  obtain ⟨rfl, hc⟩ := h
  refine hQ _ ⟨?_, store_clean hc d hb⟩
  cases hn : s.cache b with
  | none =>
    have hr : s.refOf b = 0 := by simp [Machine.refOf, hn]
    exact absurd hb (by simp [Machine.abs, hr])
  | some buf =>
    simp only [Machine.abs, View.store, View.mk.injEq]
    refine ⟨?_, ?_, rfl, rfl, rfl, rfl, rfl, rfl⟩
    · funext x
      rw [updBuf_viewOf, hn]
      by_cases hx : x = b
      · subst x; simp
      · simp [hx]
    · funext x
      rw [updBuf_refOf, hn]
      by_cases hx : x = b
      · subst x; simp [Machine.refOf, hn]
      · simp [hx]

theorem wp_brelse (hb : A.ref b = 1 → A.view b = A.disk b)
    (hQ : ∀ s', Shows s' (A.drop b) → Q () s') : wp (brelse b) Q E s := by
  obtain ⟨rfl, hc⟩ := h
  refine hQ _ ⟨?_, drop_clean hc hb⟩
  simp only [Machine.abs, View.drop, View.mk.injEq]
  refine ⟨?_, ?_, rfl, rfl, rfl, rfl, rfl, rfl⟩
  · funext x
    rw [updBuf_viewOf]
    cases hn : s.cache b with
    | none => rfl
    | some buf =>
      by_cases hx : x = b
      · subst x; simp [Machine.viewOf, hn]
      · simp [hx]
  · funext x
    rw [updBuf_refOf]
    by_cases hx : x = b
    · subst x
      cases hn : s.cache b <;> simp [Machine.refOf, hn]
    · cases hn : s.cache b <;> simp [hx]

theorem wp_bunpin (hb : A.ref b = 1 → A.view b = A.disk b)
    (hQ : ∀ s', Shows s' (A.drop b) → Q () s') : wp (bunpin b) Q E s :=
  wp_brelse h hb hQ

theorem wp_bpin (hb : 1 ≤ A.ref b) (hQ : ∀ s', Shows s' (A.hold b) → Q () s') :
    wp (bpin b) Q E s := by
  obtain ⟨rfl, hc⟩ := h
  refine hQ _ ⟨?_, hold_clean hc⟩
  cases hn : s.cache b with
  | none =>
    have hr : s.refOf b = 0 := by simp [Machine.refOf, hn]
    exact absurd hb (by simp [Machine.abs, hr])
  | some buf =>
    -- a held buffer is cached, so pinning it is the first branch of `bget`
    have hbr : bread b s = bpin b s := by
      change (_, _) = (_, _)
      simp [hn]
    exact bread_abs hc _ hbr

theorem wp_bwrite (hE : A.left = 0 → E .powerFail s) (hQ : ∀ s', Shows s' (A.write b) → Q () s') :
    wp (bwrite b) Q E s := by
  obtain ⟨rfl, hc⟩ := h
  unfold bwrite
  simp only [wp_bind, wp_get, wp_ite, wp_throw, wp_set]
  refine ⟨hE, fun _ => hQ _ ⟨?_, write_clean hc⟩⟩
  simp only [Machine.abs, View.write, View.mk.injEq, and_true]
  refine ⟨?_, rfl⟩
  funext x
  by_cases hx : x = b
  · subst x
    cases hn : s.cache b <;> simp [Machine.viewOf, hn]
  · simp [Machine.viewOf, update_of_ne hx]

end

end Xv6Audit.Log
