import Xv6Audit.Lib.Shared

/-! Sleep-locks (`kernel/sleeplock.c`). The inner spinlock is given up in `sleep` and at the end
of a call; what is done under it are steps of their own. -/
namespace Xv6Audit.Procs
open Function

/-- Where a process is: `testing` and `got` in `acquiresleep`, `asleep` and `woken` in its
`sleep`, `clearing`, `waking` and `leaving` in `releasesleep`. -/
inductive Spot where
  | outside
  | testing
  | asleep
  | woken
  | got
  | holding
  | clearing
  | waking
  | leaving
deriving DecidableEq, Repr

structure SleepLock (n : Nat) where
  lk : Option (Fin n)
  locked : Bool
  pid : BitVec 32
  pids : Fin n → BitVec 32
  spot : Fin n → Spot

/-- What a process does next; `kill` ends a sleep, and with `renew` another process takes the
place of one that does not use the lock. -/
inductive SleepAct (n : Nat) where
  | acquiresleep (p : Fin n)
  | test (p : Fin n)
  | resume (p : Fin n)
  | releasesleep (p : Fin n)
  | clear (p : Fin n)
  | wakeup (p : Fin n)
  | release (p : Fin n)
  | kill (p : Fin n)
  | renew (p : Fin n) (pid : BitVec 32)
deriving DecidableEq, Repr

namespace SleepLock
variable {n : Nat}

def move (s : SleepLock n) (p : Fin n) (x : Spot) : SleepLock n :=
  { s with spot := update s.spot p x }

def lock (s : SleepLock n) (p : Fin n) (x y : Spot) : Except Halt (SleepLock n) :=
  if s.spot p = x ∧ s.lk = none then .ok { s.move p y with lk := some p } else .error .blocked

def test (s : SleepLock n) (p : Fin n) : Except Halt (SleepLock n) :=
  if s.spot p = .testing then
    if s.locked then .ok { s.move p .asleep with lk := none }
    else .ok { s.move p .got with locked := true, pid := s.pids p }
  else .error .blocked

def clear (s : SleepLock n) (p : Fin n) : Except Halt (SleepLock n) :=
  if s.spot p = .clearing then .ok { s.move p .waking with locked := false, pid := 0 }
  else .error .blocked

def wakeup (s : SleepLock n) (p : Fin n) : Except Halt (SleepLock n) :=
  if s.spot p = .waking then
    .ok { s with spot := fun q =>
      if q = p then .leaving else if s.spot q = .asleep then .woken else s.spot q }
  else .error .blocked

def release (s : SleepLock n) (p : Fin n) : Except Halt (SleepLock n) :=
  if s.spot p = .got then .ok { s.move p .holding with lk := none }
  else if s.spot p = .leaving then .ok { s.move p .outside with lk := none }
  else .error .blocked

def kill (s : SleepLock n) (p : Fin n) : Except Halt (SleepLock n) :=
  if s.spot p = .asleep then .ok (s.move p .woken) else .error .blocked

def renew (s : SleepLock n) (p : Fin n) (pid : BitVec 32) : Except Halt (SleepLock n) :=
  if s.spot p = .outside ∧ ∀ q, q ≠ p → s.pids q ≠ pid then
    .ok { s with pids := update s.pids p pid }
  else .error .blocked

def act (s : SleepLock n) : SleepAct n → Except Halt (SleepLock n)
  | .acquiresleep p => s.lock p .outside .testing
  | .test p => s.test p
  | .resume p => s.lock p .woken .testing
  | .releasesleep p => s.lock p .holding .clearing
  | .clear p => s.clear p
  | .wakeup p => s.wakeup p
  | .release p => s.release p
  | .kill p => s.kill p
  | .renew p pid => s.renew p pid

def holdingsleep (s : SleepLock n) (p : Fin n) : Bool := s.locked && s.pid == s.pids p

def init (pids : Fin n → BitVec 32) : SleepLock n :=
  ⟨none, false, 0, pids, fun _ => .outside⟩

end SleepLock

def Spot.busy : Spot → Bool
  | .testing | .got | .clearing | .waking | .leaving => true
  | .outside | .asleep | .woken | .holding => false

def Spot.owns : Spot → Bool
  | .got | .holding | .clearing => true
  | .outside | .testing | .asleep | .woken | .waking | .leaving => false

namespace SleepLock
variable {n : Nat}

structure Exclusive (s : SleepLock n) : Prop where
  pids : ∀ p q, s.pids p = s.pids q → p = q
  busy : ∀ p, (s.spot p).busy = true ↔ s.lk = some p
  owner : ∀ p, (s.spot p).owns = true → s.locked = true ∧ s.pid = s.pids p
  owned : s.locked = true → ∃ p, (s.spot p).owns = true
  one : ∀ p q, (s.spot p).owns = true → (s.spot q).owns = true → p = q
  asleep : ∀ q, s.spot q = .asleep → s.locked = true ∨ ∃ p, s.spot p = .waking

section Exclusive
variable {s s' : SleepLock n} {p : Fin n}

theorem init_exclusive {pids : Fin n → BitVec 32} (h : ∀ p q, pids p = pids q → p = q) :
    Exclusive (init pids) := by
  refine ⟨h, ?_, ?_, ?_, ?_, ?_⟩ <;> simp [init, Spot.busy, Spot.owns]

theorem move_self (s : SleepLock n) (p : Fin n) (x : Spot) : (s.move p x).spot p = x :=
  update_self ..

theorem move_other (s : SleepLock n) {p q : Fin n} (x : Spot) (h : q ≠ p) :
    (s.move p x).spot q = s.spot q := update_of_ne h ..

section
variable (h : Exclusive s)
include h

theorem Exclusive.go {y : Spot} {l : Option (Fin n)} (hp : y.busy = true ↔ l = some p)
    (hq : ∀ q, q ≠ p → (l = some q ↔ s.lk = some q)) (ho : y.owns = (s.spot p).owns)
    (hy : y = .asleep → s.locked = true) (hw : s.spot p ≠ .waking) :
    Exclusive { s.move p y with lk := l } := by
  have howns : ∀ q, ((s.move p y).spot q).owns = (s.spot q).owns := fun q => by
    by_cases hqp : q = p
    · rw [hqp, move_self, ho]
    · rw [move_other _ _ hqp]
  refine ⟨h.pids, fun q => ?_, fun q hown => h.owner q (howns q ▸ hown), fun hl => ?_,
    fun q r hown hown' => h.one q r (howns q ▸ hown) (howns r ▸ hown'), fun q hsleep => ?_⟩
  · by_cases hqp : q = p
    · subst hqp
      rw [← hp]
      exact iff_of_eq (congrArg (·.busy = true) (move_self s q y))
    · rw [hq q hqp, ← h.busy q]
      exact iff_of_eq (congrArg (·.busy = true) (move_other s y hqp))
  · obtain ⟨q, hown⟩ := h.owned hl
    exact ⟨q, (howns q).trans hown⟩
  · have hsleep : (s.move p y).spot q = .asleep := hsleep
    by_cases hqp : q = p
    · rw [hqp, move_self] at hsleep
      exact .inl (hy hsleep)
    · rw [move_other _ _ hqp] at hsleep
      refine (h.asleep q hsleep).imp_right fun ⟨r, hr⟩ => ⟨r, ?_⟩
      have hrp : r ≠ p := fun hrp => hw (hrp ▸ hr)
      exact (move_other s y hrp).trans hr

theorem Exclusive.lock {x y : Spot} (hs : s.lock p x y = .ok s') (hy : y.busy = true)
    (ho : y.owns = x.owns) (hya : y ≠ .asleep) (hx : x ≠ .waking) : Exclusive s' := by
  obtain ⟨hg, hs⟩ := guard_ok.mp hs
  obtain ⟨hp, hl⟩ := hg
  cases hs
  refine h.go (by simp [hy]) (fun q hq => ?_) (hp ▸ ho) (fun he => absurd he hya) (hp ▸ hx)
  simp [hl, hq.symm]

theorem Exclusive.leave {y : Spot} (hp : (s.spot p).busy = true) (hy : y.busy = false)
    (ho : y.owns = (s.spot p).owns) (hya : y = .asleep → s.locked = true) (hw : s.spot p ≠ .waking)
    : Exclusive { s.move p y with lk := none } := by
  have hl := (h.busy p).mp hp
  refine h.go (by simp [hy]) (fun q hq => ?_) ho hya hw
  simp [hl, hq.symm]

theorem Exclusive.not_owns (hl : s.locked = false) (q : Fin n) : (s.spot q).owns = false := by
  cases ho : (s.spot q).owns with
  | false => rfl
  | true =>
    rw [(h.owner q ho).1] at hl
    cases hl

theorem Exclusive.test (hs : s.test p = .ok s') : Exclusive s' := by
  obtain ⟨hp, hs⟩ := guard_ok.mp hs
  split at hs
  · rename_i hl
    cases hs
    exact h.leave (by rw [hp]; rfl) rfl (by rw [hp]; rfl) (fun _ => hl) (by rw [hp]; decide)
  · rename_i hl
    rw [Bool.not_eq_true] at hl
    cases hs
    have hown : ∀ q, ((s.move p .got).spot q).owns = true → q = p := fun q hq => by
      by_contra hqp
      rw [move_other _ _ hqp, h.not_owns hl q] at hq
      cases hq
    refine ⟨h.pids, fun q => ?_, fun q hq => ⟨rfl, ?_⟩, fun _ => ⟨p, ?_⟩, fun q r hq hr => ?_,
      fun _ _ => .inl rfl⟩
    · by_cases hqp : q = p
      · subst hqp
        exact (iff_of_eq (congrArg (·.busy = true) (move_self s q .got))).trans
          ((iff_of_true rfl (by rw [hp]; rfl)).trans (h.busy q))
      · exact (iff_of_eq (congrArg (·.busy = true) (move_other s .got hqp))).trans (h.busy q)
    · rw [hown q hq]
      rfl
    · exact congrArg Spot.owns (move_self s p .got)
    · exact (hown q hq).trans (hown r hr).symm

theorem Exclusive.clear (hs : s.clear p = .ok s') : Exclusive s' := by
  obtain ⟨hp, hs⟩ := guard_ok.mp hs
  cases hs
  have hown : ∀ q, ((s.move p .waking).spot q).owns = false := fun q => by
    by_cases hqp : q = p
    · rw [hqp, move_self]
      rfl
    · rw [move_other _ _ hqp]
      cases ho : (s.spot q).owns with
      | false => rfl
      | true => exact absurd (h.one q p ho (by rw [hp]; rfl)) hqp
  refine ⟨h.pids, fun q => ?_, fun q hq => ?_, fun hl => (Bool.false_ne_true hl).elim,
    fun q r hq => ?_, fun _ _ => .inr ⟨p, move_self ..⟩⟩
  · by_cases hqp : q = p
    · subst hqp
      exact (iff_of_eq (congrArg (·.busy = true) (move_self s q .waking))).trans
        ((iff_of_true rfl (by rw [hp]; rfl)).trans (h.busy q))
    · exact (iff_of_eq (congrArg (·.busy = true) (move_other s .waking hqp))).trans (h.busy q)
  · exact absurd ((hown q).symm.trans hq) Bool.false_ne_true
  · exact absurd ((hown q).symm.trans hq) Bool.false_ne_true

theorem Exclusive.wakeup (hs : s.wakeup p = .ok s') : Exclusive s' := by
  obtain ⟨hp, hs⟩ := guard_ok.mp hs
  cases hs
  have hkeep : ∀ q, ((if q = p then Spot.leaving
      else if s.spot q = .asleep then .woken else s.spot q).owns = (s.spot q).owns) ∧
      ((if q = p then Spot.leaving
        else if s.spot q = .asleep then .woken else s.spot q).busy = (s.spot q).busy) ∧
      (if q = p then Spot.leaving
        else if s.spot q = .asleep then .woken else s.spot q) ≠ .asleep := fun q => by
    split
    · rename_i hq
      rw [hq, hp]
      decide
    · split
      · rename_i hq
        rw [hq]
        decide
      · rename_i hq
        exact ⟨rfl, rfl, hq⟩
  refine ⟨h.pids, fun q => ?_, fun q hq => ?_, fun hl => ?_, fun q r hq hr => ?_, fun q hq => ?_⟩
  · exact (iff_of_eq (congrArg (· = true) (hkeep q).2.1)).trans (h.busy q)
  · exact h.owner q ((hkeep q).1.symm.trans hq)
  · obtain ⟨q, hq⟩ := h.owned hl
    exact ⟨q, (hkeep q).1.trans hq⟩
  · exact h.one q r ((hkeep q).1.symm.trans hq) ((hkeep r).1.symm.trans hr)
  · exact absurd hq (hkeep q).2.2

theorem Exclusive.release (hs : s.release p = .ok s') : Exclusive s' := by
  unfold SleepLock.release at hs
  split at hs
  · rename_i hp
    cases hs
    exact h.leave (by rw [hp]; rfl) rfl (by rw [hp]; rfl) (fun he => by cases he)
      (by rw [hp]; decide)
  · obtain ⟨hp, hs⟩ := guard_ok.mp hs
    cases hs
    exact h.leave (by rw [hp]; rfl) rfl (by rw [hp]; rfl) (fun he => by cases he)
      (by rw [hp]; decide)

theorem Exclusive.kill (hs : s.kill p = .ok s') : Exclusive s' := by
  obtain ⟨hp, hs⟩ := guard_ok.mp hs
  cases hs
  have hb := h.busy p
  refine h.go (l := s.lk) ?_ (fun q _ => Iff.rfl) (by rw [hp]; rfl) (fun he => by cases he)
    (by rw [hp]; decide)
  rw [← hb, hp]
  rfl

theorem Exclusive.renew {pid : BitVec 32} (hs : s.renew p pid = .ok s') : Exclusive s' := by
  obtain ⟨hg, hs⟩ := guard_ok.mp hs
  obtain ⟨hp, hnew⟩ := hg
  cases hs
  refine ⟨fun q r hqr => ?_, h.busy, fun q hq => ⟨(h.owner q hq).1, ?_⟩, h.owned, h.one, h.asleep⟩
  · have hqr : update s.pids p pid q = update s.pids p pid r := hqr
    by_cases hqp : q = p <;> by_cases hrp : r = p
    · rw [hqp, hrp]
    · rw [hqp, update_self, update_of_ne hrp] at hqr
      exact absurd hqr.symm (hnew r hrp)
    · rw [hrp, update_self, update_of_ne hqp] at hqr
      exact absurd hqr (hnew q hqp)
    · rw [update_of_ne hqp, update_of_ne hrp] at hqr
      exact h.pids q r hqr
  · have hqp : q ≠ p := by
      rintro rfl
      rw [hp] at hq
      cases hq
    exact (h.owner q hq).2.trans (update_of_ne hqp _ _).symm

theorem Exclusive.act {a : SleepAct n} (hs : s.act a = .ok s') : Exclusive s' := by
  cases a with
  | acquiresleep p => exact h.lock hs rfl rfl (by decide) (by decide)
  | test p => exact h.test hs
  | resume p | releasesleep p => exact h.lock hs rfl rfl (by decide) (by decide)
  | clear p => exact h.clear hs
  | wakeup p => exact h.wakeup hs
  | release p => exact h.release hs
  | kill p => exact h.kill hs
  | renew p pid => exact h.renew hs

end

end Exclusive

/-- In every interleaving: at most one process is between `acquiresleep` and `releasesleep`, and
whenever the spinlock is free `holdingsleep` answers 1 to that process alone, and nobody sleeps
at a lock that is not locked. -/
theorem sleeplock_excludes (n : Nat) (pids : Fin n → BitVec 32)
    (hpids : ∀ p q, pids p = pids q → p = q) (s : SleepLock n)
    (hr : Shared.Reaches act (init pids) s) :
    (∀ p q, s.spot p = .holding → s.spot q = .holding → p = q) ∧
    (s.lk = none → ∀ p, s.holdingsleep p = true ↔ s.spot p = .holding) ∧
    (s.lk = none → s.locked = false → ∀ p, s.spot p ≠ .asleep) := by
  have h : Exclusive s := hr.inv (init_exclusive hpids) fun hi hs => hi.act hs
  refine ⟨fun p q hp hq => h.one p q (by rw [hp]; rfl) (by rw [hq]; rfl), fun hl p => ?_,
    fun hl hu p hp => ?_⟩
  · constructor
    · intro hh
      simp only [holdingsleep, Bool.and_eq_true, beq_iff_eq] at hh
      obtain ⟨q, hq⟩ := h.owned hh.1
      have hpq := h.pids p q (hh.2.symm.trans (h.owner q hq).2)
      rw [← hpq] at hq
      have hb : (s.spot p).busy = true → False := fun hb => by
        rw [(h.busy p).mp hb] at hl
        cases hl
      match hx : s.spot p, hq, hb with
      | .holding, _, _ => rfl
      | .got, _, hb | .clearing, _, hb => exact (hb rfl).elim
    · intro hp
      obtain ⟨hlk, hpid⟩ := h.owner p (by rw [hp]; rfl)
      simp [holdingsleep, hlk, hpid]
  · rcases h.asleep p hp with hlk | ⟨q, hq⟩
    · rw [hlk] at hu
      cases hu
    · rw [(h.busy q).mp (by rw [hq]; rfl)] at hl
      cases hl

def bargeIn {n : Nat} (p q r : Fin n) : List (SleepAct n) :=
  [.acquiresleep p, .test p, .release p, .acquiresleep q, .test q, .acquiresleep r, .test r,
   .kill r, .resume r, .test r, .releasesleep p, .clear p, .wakeup p, .release p, .resume r,
   .test r, .release r, .resume q, .test q]

theorem sleeplock_excludes_bargeIn : ∃ s : SleepLock 3,
    Run.exec (Shared.step act) (init fun p => BitVec.ofNat 32 (p + 1)) (bargeIn 0 1 2) = some s ∧
    s.lk = none ∧ s.spot 2 = .holding ∧ s.spot 1 = .asleep ∧ s.holdingsleep 2 = true ∧
    s.holdingsleep 1 = false ∧ s.holdingsleep 0 = false := by
  have hrun : (Run.exec (Shared.step act) (init fun p : Fin 3 => BitVec.ofNat 32 (p + 1))
      (bargeIn 0 1 2)).map (fun s => (s.lk, s.spot 0, s.spot 1, s.spot 2)) =
      some (none, .outside, .asleep, .holding) := by decide +kernel
  obtain ⟨s, hs, hst⟩ := Option.map_eq_some_iff.mp hrun
  simp only [Prod.mk.injEq] at hst
  have hh := (sleeplock_excludes 3 (fun p => BitVec.ofNat 32 (p + 1)) (by decide) s ⟨_, hs⟩).2.1 hst.1
  refine ⟨s, hs, hst.1, hst.2.2.2, hst.2.2.1, (hh 2).mpr hst.2.2.2, ?_, ?_⟩
  · exact Bool.eq_false_iff.mpr fun ht => by simpa [hst] using (hh 1).mp ht
  · exact Bool.eq_false_iff.mpr fun ht => by simpa [hst] using (hh 0).mp ht

end SleepLock

end Xv6Audit.Procs
