import Mathlib.Logic.Function.Basic
import Mathlib.Tactic.Common

/-! Exact allocation: a usage map over the numbers below `hi`, of which those below `lo` are
always in use, and places that name numbers (0 for none). A number from `lo` on is in use
exactly if a place names it, and no two places name the same. -/
namespace Xv6Audit.Alloc
open Function

variable {ι : Type*} {lo hi : Nat} {used : Nat → Bool} {ref : ι → Nat}

structure Exact (lo hi : Nat) (used : Nat → Bool) (ref : ι → Nat) : Prop where
  base : ∀ b, b < lo → used b = true
  range : ∀ p, ref p ≠ 0 → lo ≤ ref p ∧ ref p < hi
  inj : ∀ p q, ref p ≠ 0 → ref p = ref q → p = q
  named : ∀ b, lo ≤ b → b < hi → (used b = true ↔ ∃ p, ref p = b)

namespace Exact

theorem used_ref (h : Exact lo hi used ref) {p : ι} (hp : ref p ≠ 0) : used (ref p) = true :=
  (h.named _ (h.range p hp).1 (h.range p hp).2).mpr ⟨p, rfl⟩

theorem lo_le_free (h : Exact lo hi used ref) {b : Nat} (hb : used b = false) : lo ≤ b := by
  by_contra hlt
  have := h.base b (by omega)
  simp [this] at hb

theorem ne_free (h : Exact lo hi used ref) {b : Nat} (hb : used b = false) (hhi : b < hi)
    (p : ι) : ref p ≠ b := by
  intro hp
  have := (h.named b (h.lo_le_free hb) hhi).mpr ⟨p, hp⟩
  simp [this] at hb

variable [DecidableEq ι]

theorem assign (h : Exact lo hi used ref) (hlo : 0 < lo) {p : ι} (hp : ref p = 0) {b : Nat}
    (hb : used b = false) (hhi : b < hi) :
    Exact lo hi (update used b true) (update ref p b) := by
  have hlob := h.lo_le_free hb
  have hfree := h.ne_free hb hhi
  refine ⟨?_, ?_, ?_, ?_⟩
  · intro c hc
    by_cases hcb : c = b
    · simp [hcb]
    · rw [update_of_ne hcb]
      exact h.base c hc
  · intro q hq
    by_cases hqp : q = p
    · subst q
      simpa using ⟨hlob, hhi⟩
    · rw [update_of_ne hqp] at hq ⊢
      exact h.range q hq
  · intro q r hq he
    by_cases hqp : q = p
    · by_cases hrp : r = p
      · rw [hqp, hrp]
      · subst q
        rw [update_self, update_of_ne hrp] at he
        exact absurd he.symm (hfree r)
    · by_cases hrp : r = p
      · subst r
        rw [update_self, update_of_ne hqp] at he
        exact absurd he (hfree q)
      · rw [update_of_ne hqp] at hq he
        rw [update_of_ne hrp] at he
        exact h.inj q r hq he
  · intro c hlc hch
    by_cases hcb : c = b
    · subst c
      simp only [update_self, true_iff]
      exact ⟨p, update_self ..⟩
    · rw [update_of_ne hcb, h.named c hlc hch]
      constructor
      · rintro ⟨q, hq⟩
        have hqp : q ≠ p := by
          rintro rfl
          omega
        exact ⟨q, by rw [update_of_ne hqp, hq]⟩
      · rintro ⟨q, hq⟩
        have hqp : q ≠ p := by
          rintro rfl
          rw [update_self] at hq
          exact hcb hq.symm
        exact ⟨q, by rwa [update_of_ne hqp] at hq⟩

theorem release (h : Exact lo hi used ref) (hlo : 0 < lo) {p : ι} (hp : ref p ≠ 0) :
    Exact lo hi (update used (ref p) false) (update ref p 0) := by
  have hr := h.range p hp
  refine ⟨?_, ?_, ?_, ?_⟩
  · intro c hc
    rw [update_of_ne (by omega)]
    exact h.base c hc
  · intro q hq
    by_cases hqp : q = p
    · simp [hqp] at hq
    · rw [update_of_ne hqp] at hq ⊢
      exact h.range q hq
  · intro q r hq he
    by_cases hqp : q = p
    · simp [hqp] at hq
    · rw [update_of_ne hqp] at hq he
      by_cases hrp : r = p
      · subst r
        rw [update_self] at he
        exact absurd he hq
      · rw [update_of_ne hrp] at he
        exact h.inj q r hq he
  · intro c hlc hch
    by_cases hcb : c = ref p
    · rw [hcb, update_self]
      simp only [Bool.false_eq_true, false_iff, not_exists]
      intro q hq
      by_cases hqp : q = p
      · subst q
        rw [update_self] at hq
        exact hp hq.symm
      · rw [update_of_ne hqp] at hq
        exact hqp (h.inj q p (by rw [hq]; exact hp) hq)
    · rw [update_of_ne hcb, h.named c hlc hch]
      constructor
      · rintro ⟨q, hq⟩
        have hqp : q ≠ p := by
          rintro rfl
          exact hcb hq.symm
        exact ⟨q, by rw [update_of_ne hqp, hq]⟩
      · rintro ⟨q, hq⟩
        have hqp : q ≠ p := by
          rintro rfl
          rw [update_self] at hq
          omega
        exact ⟨q, by rwa [update_of_ne hqp] at hq⟩

end Exact
end Xv6Audit.Alloc
