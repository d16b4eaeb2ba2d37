import Mathlib.Algebra.BigOperators.Fin
import Mathlib.Algebra.Order.BigOperators.Group.Finset
import Xv6Audit.Lib.Run

/-! Machines shared by several parties. An action is done, cannot be done yet, or stops the
whole machine. -/
namespace Xv6Audit
open Function

inductive Halt where
  | blocked
  | panic (msg : String)
deriving DecidableEq, Repr

theorem guard_ok {σ : Type*} {c : Prop} [Decidable c] {x : Except Halt σ} {e : Halt} {t : σ} :
    (if c then x else .error e) = .ok t ↔ c ∧ x = .ok t := by
  by_cases hc : c <;> simp [hc]

theorem unless_ok {σ : Type*} {c : Prop} [Decidable c] {x : Except Halt σ} {e : Halt} {t : σ} :
    (if c then .error e else x) = .ok t ↔ ¬c ∧ x = .ok t := by
  by_cases hc : c <;> simp [hc]

theorem map_ok {σ τ : Type*} {x : Except Halt σ} {f : σ → τ} {t : τ} :
    x.map f = .ok t ↔ ∃ a, x = .ok a ∧ f a = t := by
  cases x <;> simp [Except.map]

namespace Shared
variable {σ α : Type*} (act : σ → α → Except Halt σ)

def step (s : σ) (a : α) : Option σ :=
  match act s a with
  | .ok s' => some s'
  | .error _ => none

def Reaches (s s' : σ) : Prop := ∃ as, Run.exec (step act) s as = some s'

variable {act}

theorem step_eq_some {s s' : σ} {a : α} : step act s a = some s' ↔ act s a = .ok s' := by
  unfold step
  cases act s a <;> simp

theorem Reaches.inv {Inv : σ → Prop} {s s' : σ} (h : Reaches act s s') (h0 : Inv s)
    (hact : ∀ {s s' a}, Inv s → act s a = .ok s' → Inv s') : Inv s' := by
  obtain ⟨as, has⟩ := h
  have hal : Run.Along (step act) (fun _ _ => True) s as := by
    clear has h0
    induction as generalizing s with
    | nil => trivial
    | cons a as ih =>
      refine ⟨trivial, ?_⟩
      cases step act s a with
      | none => trivial
      | some t => exact ih
  exact Run.exec_inv (fun hi _ hs => hact hi (step_eq_some.mp hs)) h0 hal has

/-! Sums over the parties. -/

variable {ι α : Type*} [Fintype ι] [DecidableEq ι]

theorem sum_update (f : ι → α) (i : ι) (a : α) (g : α → Int) :
    ∑ j, g (update f i a j) = ∑ j, g (f j) - g (f i) + g a := by
  rw [← Finset.add_sum_erase Finset.univ _ (Finset.mem_univ i),
    ← Finset.add_sum_erase Finset.univ (fun j => g (f j)) (Finset.mem_univ i)]
  have hrest : ∑ j ∈ Finset.univ.erase i, g (update f i a j) =
      ∑ j ∈ Finset.univ.erase i, g (f j) :=
    Finset.sum_congr rfl fun j hj => by rw [update_of_ne (Finset.ne_of_mem_erase hj)]
  rw [hrest, update_self]
  omega

theorem sum_le {f g : ι → Int} (i : ι) (h : ∀ j, j ≠ i → g j ≤ f j) :
    ∑ j, g j ≤ ∑ j, f j - f i + g i := by
  rw [← Finset.add_sum_erase Finset.univ g (Finset.mem_univ i),
    ← Finset.add_sum_erase Finset.univ f (Finset.mem_univ i)]
  have hrest : ∑ j ∈ Finset.univ.erase i, g j ≤ ∑ j ∈ Finset.univ.erase i, f j :=
    Finset.sum_le_sum fun j hj => h j (Finset.ne_of_mem_erase hj)
  omega

end Shared

end Xv6Audit
