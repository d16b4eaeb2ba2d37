import Mathlib.Logic.Basic
import Mathlib.Logic.Function.Basic

/-! Routines over an explicit state that may stop early, and their weakest
preconditions. A stopped routine keeps the state it stopped in, so one rule set
serves both panics (nothing is claimed afterwards) and power failures (the part of
the state that survives is read again at the next boot). -/
namespace Xv6Audit

/-- A routine: from a state, either a value or the reason it stopped, with the state
left behind in both cases. -/
def Prog (σ ε α : Type) : Type := σ → Except ε α × σ

namespace Prog
variable {σ τ ε α β : Type}

instance : Monad (Prog σ ε) where
  pure a := fun s => (.ok a, s)
  bind c f := fun s =>
    match c s with
    | (.ok a, s') => f a s'
    | (.error e, s') => (.error e, s')

instance : MonadStateOf σ (Prog σ ε) where
  get := fun s => (.ok s, s)
  set s' := fun _ => (.ok (), s')
  modifyGet f := fun s => (.ok (f s).1, (f s).2)

instance : MonadExceptOf ε (Prog σ ε) where
  throw e := fun s => (.error e, s)
  tryCatch c h := fun s =>
    match c s with
    | (.ok a, s') => (.ok a, s')
    | (.error e, s') => h e s'

def forUpto (n : Nat) (body : Nat → Prog σ ε Unit) : Prog σ ε Unit :=
  match n with
  | 0 => pure ()
  | n+1 => do
    forUpto n body
    body n

def firstSome : List α → (α → Prog σ ε (Option β)) → Prog σ ε (Option β)
  | [], _ => pure none
  | a :: as, body => do
    match ← body a with
    | some b => pure (some b)
    | none => firstSome as body

def stopped : Except ε α → Option ε
  | .error e => some e
  | .ok _ => none

theorem stopped_eq_some {r : Except ε α} {e : ε} : stopped r = some e ↔ r = .error e := by
  cases r <;> simp [stopped]

theorem toOption_eq_some {r : Except ε α} {a : α} (h : r.toOption = some a) : r = .ok a := by
  cases r with
  | error e => cases h
  | ok b => exact congrArg Except.ok (Option.some.inj h)

def zoom (view : τ → σ) (put : σ → τ → τ) (c : Prog σ ε α) : Prog τ ε α := fun t =>
  ((c (view t)).1, put (c (view t)).2 t)

/-- `wp c Q E s`: from `s`, the routine ends with `Q` or stops with `E`. Every routine
ends, so this is total correctness. -/
def wp (c : Prog σ ε α) (Q : α → σ → Prop) (E : ε → σ → Prop) (s : σ) : Prop :=
  match c s with
  | (.ok a, s') => Q a s'
  | (.error e, s') => E e s'

variable {Q Q' : α → σ → Prop} {E E' : ε → σ → Prop} {s : σ} {c : Prog σ ε α}

theorem wp_of_run {a : α} {s' : σ} (h : wp c Q E s) (hr : c s = (.ok a, s')) :
    Q a s' := by
  simpa only [wp, hr] using h

theorem wp_of_stop {e : ε} {s' : σ} (h : wp c Q E s) (hr : c s = (.error e, s')) : E e s' := by
  simpa only [wp, hr] using h

theorem wp_cases (h : wp c Q E s) :
    (∃ a t, c s = (.ok a, t) ∧ Q a t) ∨ ∃ e t, c s = (.error e, t) ∧ E e t := by
  unfold wp at h
  split at h
  · rename_i a t hr
    exact .inl ⟨a, t, hr, h⟩
  · rename_i e t hr
    exact .inr ⟨e, t, hr, h⟩

theorem wp_self (c : Prog σ ε α) :
    wp c (fun a t => c s = (.ok a, t)) (fun e t => c s = (.error e, t)) s := by
  unfold wp
  split <;> assumption

theorem wp_mono (h : wp c Q E s) (hQ : ∀ a s', Q a s' → Q' a s') (hE : ∀ e s', E e s' → E' e s') :
    wp c Q' E' s := by
  unfold wp at *
  split at h
  · exact hQ _ _ h
  · exact hE _ _ h

theorem wp_post (h : wp c Q E s) (hQ : ∀ a s', Q a s' → Q' a s') :
    wp c Q' E s :=
  wp_mono h hQ (fun _ _ h => h)

theorem wp_and (h : wp c Q E s) (h' : wp c Q' E' s) :
    wp c (fun a t => Q a t ∧ Q' a t) (fun e t => E e t ∧ E' e t) s := by
  unfold wp at *
  split at h
  · rename_i hr
    rw [hr] at h'
    exact ⟨h, h'⟩
  · rename_i hr
    rw [hr] at h'
    exact ⟨h, h'⟩

theorem wp_frame (h' : wp c Q' E' s) (h : wp c (fun a t => Q' a t → Q a t) E s) : wp c Q E s :=
  wp_mono (wp_and h' h) (fun _ _ hq => hq.2 hq.1) fun _ _ he => he.2

@[simp] theorem wp_pure (a : α) : wp (pure a : Prog σ ε α) Q E s ↔ Q a s := Iff.rfl

@[simp] theorem wp_bind (c : Prog σ ε α) (f : α → Prog σ ε β) (R : β → σ → Prop) :
    wp (c >>= f) R E s ↔ wp c (fun a s' => wp (f a) R E s') E s := by
  change (match (match c s with
      | (.ok a, s') => f a s'
      | (.error e, s') => (.error e, s')) with
    | (.ok a, s') => R a s'
    | (.error e, s') => E e s') ↔ _
  unfold wp
  rcases c s with ⟨r, s'⟩
  cases r <;> rfl

@[simp] theorem wp_get (R : σ → σ → Prop) : wp (get : Prog σ ε σ) R E s ↔ R s s := Iff.rfl

@[simp] theorem wp_set (t : σ) (R : PUnit → σ → Prop) :
    wp (set t : Prog σ ε PUnit) R E s ↔ R () t := Iff.rfl

@[simp] theorem wp_modify (f : σ → σ) (R : PUnit → σ → Prop) :
    wp (modify f : Prog σ ε PUnit) R E s ↔ R () (f s) := Iff.rfl

@[simp] theorem wp_throw (e : ε) : wp (throw e : Prog σ ε α) Q E s ↔ E e s := Iff.rfl

theorem wp_ite (b : Prop) [Decidable b] (c d : Prog σ ε α) :
    wp (if b then c else d) Q E s ↔ (b → wp c Q E s) ∧ (¬b → wp d Q E s) := by
  by_cases hb : b <;> simp [hb]

theorem wp_forUpto {n : Nat} {body : Nat → Prog σ ε Unit} (I : Nat → σ → Prop)
    (h0 : I 0 s)
    (hstep : ∀ i, i < n → ∀ t, I i t → wp (body i) (fun _ => I (i+1)) E t) :
    wp (forUpto n body) (fun _ => I n) E s := by
  induction n with
  | zero => exact h0
  | succ n ih =>
    rw [forUpto, wp_bind]
    exact wp_post (ih fun i hi => hstep i (by omega)) fun _ t ht => hstep n (by omega) t ht

theorem wp_firstSome {as : List α} {body : α → Prog σ ε (Option β)}
    {R : Option β → σ → Prop} (I : List α → σ → Prop) (h0 : I as s)
    (hnil : ∀ t, I [] t → R none t)
    (hstep : ∀ a rest t, I (a :: rest) t →
      wp (body a) (fun r t' => match r with
        | some b => R (some b) t'
        | none => I rest t') E t) :
    wp (firstSome as body) R E s := by
  induction as generalizing s with
  | nil => exact hnil s h0
  | cons a rest ih =>
    rw [firstSome, wp_bind]
    refine wp_post (hstep a rest s h0) ?_
    intro r t ht
    cases r with
    | some b => exact ht
    | none => exact ih ht

theorem wp_zoom (view : τ → σ) (put : σ → τ → τ) (c : Prog σ ε α) (t : τ)
    (R : α → τ → Prop) (F : ε → τ → Prop) :
    wp (zoom view put c) R F t ↔
      wp c (fun a s' => R a (put s' t)) (fun e s' => F e (put s' t)) (view t) := by
  unfold wp zoom
  rcases c (view t) with ⟨r, s'⟩
  cases r <;> rfl

/-! Two routines side by side. -/

def Sim (R : α → β → σ → σ → Prop) (c : Prog σ ε α) (s : σ) (d : Prog σ ε β) (s' : σ) : Prop :=
  match c s, d s' with
  | (.ok a, t), (.ok b, u) => R a b t u
  | (.error e, _), (.error e', _) => e' = e
  | _, _ => False

section Sim
variable {γ δ : Type} {R : α → β → σ → σ → Prop} {R' : γ → δ → σ → σ → Prop} {c : Prog σ ε α}
  {d : Prog σ ε β} {s' : σ}

theorem Sim.pure {a : α} {b : β} (h : R a b s s') :
    Sim R (pure a : Prog σ ε α) s (pure b) s' := h

theorem Sim.self (c : Prog σ ε α) (s : σ) :
    Sim (fun a b t u => (b = a ∧ u = t) ∧ c s = (.ok a, t)) c s c s := by
  unfold Sim
  rcases c s with ⟨r, t⟩
  cases r with
  | ok a => exact ⟨⟨rfl, rfl⟩, rfl⟩
  | error e => rfl

theorem Sim.bind {f : α → Prog σ ε γ} {g : β → Prog σ ε δ} (h : Sim R c s d s')
    (hk : ∀ a b t u, R a b t u → Sim R' (f a) t (g b) u) : Sim R' (c >>= f) s (d >>= g) s' := by
  have hbind : ∀ {α β : Type} (c : Prog σ ε α) (f : α → Prog σ ε β) (s : σ),
      (c >>= f) s = match c s with
        | (.ok a, s') => f a s'
        | (.error e, s') => (.error e, s') := fun _ _ _ => rfl
  unfold Sim at h ⊢
  rw [hbind, hbind]
  generalize c s = x at h ⊢
  generalize d s' = x' at h ⊢
  obtain ⟨r, t⟩ := x
  obtain ⟨r', u⟩ := x'
  cases r with
  | ok a =>
    cases r' with
    | ok b => exact hk a b t u h
    | error e => exact h.elim
  | error e =>
    cases r' with
    | ok b => exact h.elim
    | error e' => exact h

theorem Sim.zoom (view : τ → σ) (put : σ → τ → τ) {t t' : τ} (h : Sim R c (view t) d (view t')) :
    Sim (fun a b u u' => ∃ v v', u = put v t ∧ u' = put v' t' ∧ R a b v v')
      (zoom view put c) t (zoom view put d) t' := by
  unfold Sim Prog.zoom at *
  generalize c (view t) = x at h ⊢
  generalize d (view t') = x' at h ⊢
  obtain ⟨r, v⟩ := x
  obtain ⟨r', w⟩ := x'
  cases r with
  | ok a =>
    cases r' with
    | ok b => exact ⟨v, w, rfl, rfl, h⟩
    | error e => exact h.elim
  | error e =>
    cases r' with
    | ok b => exact h.elim
    | error e' => exact h

end Sim

end Prog
end Xv6Audit
