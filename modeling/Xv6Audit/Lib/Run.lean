import Mathlib.Tactic.Common

/-! Runs of a step function: the state after a list of actions, a condition met before every
action of it, and the invariant rule. -/
namespace Xv6Audit.Run

variable {σ α : Type*} (step : σ → α → Option σ) (P : σ → α → Prop)

def exec : σ → List α → Option σ
  | s, [] => some s
  | s, a :: as => (step s a).bind fun s' => exec s' as

def Along : σ → List α → Prop
  | _, [] => True
  | s, a :: as => P s a ∧ (match step s a with
    | some s' => Along s' as
    | none => True)

instance Along.decidable [∀ s a, Decidable (P s a)] :
    (s : σ) → (as : List α) → Decidable (Along step P s as)
  | _, [] => inferInstanceAs (Decidable True)
  | s, a :: as =>
    have : Decidable (match step s a with
        | some s' => Along step P s' as
        | none => True) :=
      match step s a with
      | some s' => Along.decidable s' as
      | none => inferInstanceAs (Decidable True)
    inferInstanceAs (Decidable (_ ∧ _))

variable {step P}

theorem exec_cons {s s' : σ} {a : α} {as : List α} (h : exec step s (a :: as) = some s') :
    ∃ t, step s a = some t ∧ exec step t as = some s' := by
  cases ht : step s a with
  | none => simp [exec, ht] at h
  | some t => exact ⟨t, rfl, by simpa [exec, ht] using h⟩

theorem exec_append (s : σ) (as bs : List α) :
    exec step s (as ++ bs) = (exec step s as).bind fun t => exec step t bs := by
  induction as generalizing s with
  | nil => rfl
  | cons a as ih =>
    simp only [List.cons_append, exec, ih]
    cases step s a <;> rfl

theorem Along.of_forall {s : σ} {as : List α} (h : ∀ s, ∀ a ∈ as, P s a) : Along step P s as := by
  induction as generalizing s with
  | nil => trivial
  | cons a as ih =>
    refine ⟨h s a List.mem_cons_self, ?_⟩
    split
    · exact ih fun s b hb => h s b (List.mem_cons_of_mem a hb)
    · trivial

/-- What every step taken under `P` keeps holds after every run whose steps meet `P`. -/
theorem exec_inv {I : σ → Prop}
    (hstep : ∀ {s s' a}, I s → P s a → step s a = some s' → I s') {s s' : σ} {as : List α}
    (h0 : I s) (hP : Along step P s as) (h : exec step s as = some s') : I s' := by
  induction as generalizing s with
  | nil =>
    obtain rfl : s = s' := by simpa [exec] using h
    exact h0
  | cons a as ih =>
    obtain ⟨t, ht, hrest⟩ := exec_cons h
    obtain ⟨ha, has⟩ := hP
    rw [ht] at has
    exact ih (hstep h0 ha ht) has hrest

/-- Two step functions that keep a relation, and are enabled together, do so in whole runs. -/
theorem exec_lockstep {τ : Type*} {f : σ → α → Option σ} {g : τ → α → Option τ}
    {R : σ → τ → Prop} (hstep : ∀ {s t} (a : α), R s t → Option.Rel R (f s a) (g t a)) {s : σ} {t : τ}
    (h : R s t) (as : List α) : Option.Rel R (exec f s as) (exec g t as) := by
  induction as generalizing s t with
  | nil => exact .some h
  | cons a as ih =>
    have ha := hstep a h
    unfold exec
    cases hs : f s a with
    | none =>
      rw [hs] at ha
      cases ht : g t a with
      | none => exact .none
      | some t' =>
        rw [ht] at ha
        cases ha
    | some s' =>
      rw [hs] at ha
      cases ht : g t a with
      | none =>
        rw [ht] at ha
        cases ha
      | some t' =>
        rw [ht] at ha
        cases ha with
        | some h' => exact ih h'

end Xv6Audit.Run
