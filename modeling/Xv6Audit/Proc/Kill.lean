import Xv6Audit.Proc.Table

/-! Whom `kill` hits. -/
namespace Xv6Audit.Procs

/-- The table, and for each slot whether `kill` was called with its pid, or `setkilled` for it,
since it was allocated. -/
structure Blamed where
  table : Table
  blame : Fin NPROC → Bool

inductive ProcCall where
  | fork (p : Fin NPROC) (memory copied : Bool)
  | exit (p : Fin NPROC) (status : BitVec 32)
  | wait (p : Fin NPROC) (copied : Bool)
  | kill (pid : BitVec 32)
  | setkilled (q : Fin NPROC)
  | sleep (p : Fin NPROC) (chan : Chan)
  | wakeup (p : Fin NPROC) (chan : Chan)
  | schedule (p : Fin NPROC)
  | yield (p : Fin NPROC)
deriving DecidableEq, Repr

namespace Blamed

def isRunning (s : Blamed) (p : Fin NPROC) : Prop := (s.table.proc p).state = .running

instance (s : Blamed) (p : Fin NPROC) : Decidable (s.isRunning p) :=
  inferInstanceAs (Decidable (_ = _))

def unblame (s : Blamed) : Fin NPROC → Bool := fun q =>
  s.blame q && decide ((s.table.proc q).state ≠ .unused)

def act (s : Blamed) : ProcCall → Except Halt Blamed
  | .fork p memory copied =>
    if s.isRunning p then
      .ok ⟨(s.table.fork p memory copied).2, s.unblame⟩
    else .error .blocked
  | .exit p status =>
    if s.isRunning p then (s.table.exit p status).map fun t => { s with table := t }
    else .error .blocked
  | .wait p copied =>
    if s.isRunning p then .ok { s with table := (s.table.wait p copied).2 } else .error .blocked
  | .kill pid => .ok ⟨(s.table.kill pid).2, fun q => s.blame q || decide ((s.table.proc q).pid = pid)⟩
  | .setkilled q =>
    if s.isRunning q then .ok ⟨s.table.setkilled q, Function.update s.blame q true⟩
    else .error .blocked
  | .sleep p chan =>
    if s.isRunning p then
      .ok { s with table := s.table.upd p fun x => { x with chan := chan, state := .sleeping } }
    else .error .blocked
  | .wakeup p chan => .ok { s with table := s.table.wakeup p chan }
  | .schedule p =>
    if (s.table.proc p).state = .runnable then
      .ok { s with table := s.table.upd p fun x => { x with state := .running } }
    else .error .blocked
  | .yield p =>
    if s.isRunning p then
      .ok { s with table := s.table.upd p fun x => { x with state := .runnable } }
    else .error .blocked

def boot : Blamed := ⟨Table.boot, fun _ => false⟩

def NotZero (_ : Blamed) : ProcCall → Prop
  | .kill pid => pid ≠ 0
  | .fork _ _ _ => True
  | .exit _ _ => True
  | .wait _ _ => True
  | .setkilled _ => True
  | .sleep _ _ => True
  | .wakeup _ _ => True
  | .schedule _ => True
  | .yield _ => True

instance (s : Blamed) : (c : ProcCall) → Decidable (NotZero s c)
  | .kill pid => inferInstanceAs (Decidable (pid ≠ 0))
  | .fork _ _ _ => inferInstanceAs (Decidable True)
  | .exit _ _ => inferInstanceAs (Decidable True)
  | .wait _ _ => inferInstanceAs (Decidable True)
  | .setkilled _ => inferInstanceAs (Decidable True)
  | .sleep _ _ => inferInstanceAs (Decidable True)
  | .wakeup _ _ => inferInstanceAs (Decidable True)
  | .schedule _ => inferInstanceAs (Decidable True)
  | .yield _ => inferInstanceAs (Decidable True)

end Blamed

/-! Changes that concern neither pids nor the flag. -/

def Quiet (t t' : Table) : Prop := ∀ q, (t'.proc q).pid = (t.proc q).pid ∧
  (t'.proc q).killed = (t.proc q).killed ∧
  ((t'.proc q).state = .unused ↔ (t.proc q).state = .unused)

section Quiet
variable {t t' t'' : Table} {p q : Fin NPROC}

theorem Quiet.refl (t : Table) : Quiet t t := fun _ => ⟨rfl, rfl, Iff.rfl⟩

theorem Quiet.trans (h : Quiet t t') (h' : Quiet t' t'') : Quiet t t'' := fun q =>
  ⟨(h' q).1.trans (h q).1, (h' q).2.1.trans (h q).2.1, (h' q).2.2.trans (h q).2.2⟩

theorem Quiet.upd {f : Proc → Proc} (hpid : (f (t.proc q)).pid = (t.proc q).pid)
    (hk : (f (t.proc q)).killed = (t.proc q).killed)
    (hs : (f (t.proc q)).state = .unused ↔ (t.proc q).state = .unused) : Quiet t (t.upd q f) := by
  intro r
  by_cases hr : r = q
  · rw [hr, t.upd_self]
    exact ⟨hpid, hk, hs⟩
  · rw [t.upd_other f hr]
    exact ⟨rfl, rfl, Iff.rfl⟩

theorem Quiet.wakeup (t : Table) (me : Fin NPROC) (chan : Chan) : Quiet t (t.wakeup me chan) := by
  intro q
  simp only [Table.wakeup]
  split
  · exact ⟨rfl, rfl, Iff.rfl⟩
  · unfold Proc.woken
    split
    · rename_i hc
      exact ⟨rfl, rfl, by simp [hc.1]⟩
    · exact ⟨rfl, rfl, Iff.rfl⟩

theorem Quiet.reparentOne (t : Table) (p pp : Fin NPROC) : Quiet t (t.reparentOne p pp) := by
  unfold Table.reparentOne
  split
  · refine Quiet.trans (Quiet.upd ?_ ?_ ?_) (Quiet.wakeup _ _ _)
    · rfl
    · rfl
    · exact Iff.rfl
  · exact Quiet.refl t

theorem Quiet.reparent (t : Table) (p : Fin NPROC) : Quiet t (t.reparent p) := by
  unfold Table.reparent
  generalize List.finRange NPROC = slots
  induction slots generalizing t with
  | nil => exact Quiet.refl t
  | cons pp slots ih => exact (Quiet.reparentOne t p pp).trans (ih _)

theorem Quiet.exit {status : BitVec 32} (hp : (t.proc p).state ≠ .unused)
    (h : t.exit p status = .ok t') : Quiet t t' := by
  obtain ⟨-, h⟩ := unless_ok.mp h
  cases h
  have hq := (Quiet.reparent t p).trans (Quiet.wakeup _ p ((t.reparent p).parentChan p))
  refine hq.trans (Quiet.upd rfl rfl ?_)
  simp only [(hq p).2.2, hp, iff_false]
  simp

end Quiet

namespace Blamed

structure Kept (s : Blamed) : Prop where
  clean : ∀ q, (s.table.proc q).state = .unused →
    (s.table.proc q).pid = 0 ∧ (s.table.proc q).killed = false
  blamed : ∀ q, (s.table.proc q).state ≠ .unused → (s.table.proc q).killed = true →
    s.blame q = true

section Kept
variable {s : Blamed} {t : Table} {p q : Fin NPROC}

section
variable (h : Kept s)
include h

theorem Kept.quiet (hq : Quiet s.table t) : Kept { s with table := t } := by
  refine ⟨fun q hs => ?_, fun q hs hk => ?_⟩
  · obtain ⟨h1, h2, h3⟩ := hq q
    have := h.clean q (h3.mp hs)
    exact ⟨h1.trans this.1, h2.trans this.2⟩
  · obtain ⟨-, h2, h3⟩ := hq q
    exact h.blamed q (fun hu => hs (h3.mpr hu)) (h2.symm.trans hk)

theorem Kept.free (q : Fin NPROC) : Kept { s with table := s.table.upd q Proc.freeproc } := by
  refine ⟨fun r hs => ?_, fun r hs hk => ?_⟩
  · by_cases hr : r = q
    · rw [hr, Table.upd_self]
      exact ⟨rfl, rfl⟩
    · rw [Table.upd_other _ _ hr] at hs ⊢
      exact h.clean r hs
  · by_cases hr : r = q
    · rw [hr, Table.upd_self] at hs
      exact absurd rfl hs
    · rw [Table.upd_other _ _ hr] at hs hk
      exact h.blamed r hs hk

theorem Kept.unblame : Kept ⟨s.table, s.unblame⟩ := by
  refine ⟨h.clean, fun q hs hk => ?_⟩
  have hs' : (s.table.proc q).state ≠ .unused := hs
  simp [Blamed.unblame, h.blamed q hs hk, hs']

theorem Kept.take (hu : (s.table.proc q).state = .unused) :
    Kept { s with table := s.table.take q } := by
  refine ⟨fun r hs => ?_, fun r hs hk => ?_⟩
  · by_cases hr : r = q
    · rw [hr, Table.take_self] at hs
      cases hs
    · rw [Table.take_other _ hr] at hs ⊢
      exact h.clean r hs
  · by_cases hr : r = q
    · rw [hr, Table.take_self] at hk
      have hfalse := (h.clean q hu).2
      rw [show ((s.table.proc q).found s.table.nextpid).killed = (s.table.proc q).killed from rfl,
        hfalse] at hk
      cases hk
    · rw [Table.take_other _ hr] at hs hk
      exact h.blamed r hs hk

theorem Kept.alloc_not_killed (memory : Bool) {q : Fin NPROC} {t : Table}
    (ha : s.table.allocproc memory = (some q, t)) : (t.proc q).killed = false := by
  rcases s.table.allocproc_cases memory with hn | ⟨r, hu, hr | hr⟩
  · rw [hn] at ha
    cases ha
  · rw [hr] at ha
    cases ha
    rw [Table.take_self]
    exact (h.clean q hu).2
  · rw [hr] at ha
    cases ha

theorem Kept.fork (p : Fin NPROC) (memory copied : Bool) :
    Kept ⟨(s.table.fork p memory copied).2, s.unblame⟩ := by
  unfold Table.fork
  rcases s.table.allocproc_cases memory with hn | ⟨q, hu, hr | hr⟩
  · rw [hn]
    exact h.unblame
  · rw [hr]
    have ht := h.unblame.take hu
    dsimp only
    split
    · have hq1 : Quiet (s.table.take q) ((s.table.take q).upd q fun x =>
          { x with parent := some p }) := Quiet.upd rfl rfl Iff.rfl
      have hq2 := hq1.trans (Quiet.upd (t := (s.table.take q).upd q fun x =>
        { x with parent := some p }) (q := q) (f := fun x => { x with state := .runnable })
        rfl rfl (by simp [Table.upd_self, Table.take_self, Proc.found]))
      exact ht.quiet hq2
    · exact ht.free q
  · rw [hr]
    exact (h.unblame.take hu).free q

theorem Kept.wait (hp : (s.table.proc p).state ≠ .unused) (copied : Bool) :
    Kept { s with table := (s.table.wait p copied).2 } := by
  unfold Table.wait
  split
  · split
    · exact h.free _
    · exact h
  · split
    · exact h
    · have hq : Quiet s.table (s.table.upd p fun x =>
          { x with chan := .slot p, state := .sleeping }) := Quiet.upd rfl rfl (by simp [hp])
      exact h.quiet hq

theorem Kept.kill_cases {pid : BitVec 32} (hne : pid ≠ 0) :
    s.table.kill pid = (-1, s.table) ∨ ∃ q, (s.table.proc q).pid = pid ∧
      (s.table.proc q).state ≠ .unused ∧ s.table.kill pid = (0, s.table.upd q Proc.hit) := by
  unfold Table.kill
  cases hf : (List.finRange NPROC).find? fun q => (s.table.proc q).pid = pid with
  | none => exact .inl rfl
  | some q =>
    have hpid : (s.table.proc q).pid = pid := by simpa using List.find?_some hf
    refine .inr ⟨q, hpid, fun hu => hne ?_, rfl⟩
    rw [← hpid, (h.clean q hu).1]

theorem Kept.kill {pid : BitVec 32} (hne : pid ≠ 0) :
    Kept ⟨(s.table.kill pid).2, fun q => s.blame q || decide ((s.table.proc q).pid = pid)⟩ := by
  have hmore : Kept ⟨s.table, fun q => s.blame q || decide ((s.table.proc q).pid = pid)⟩ :=
    ⟨h.clean, fun q hs hk => by simp [h.blamed q hs hk]⟩
  rcases h.kill_cases hne with hn | ⟨q, hpid, hs, hk⟩
  · rw [hn]
    exact hmore
  · rw [hk]
    refine ⟨fun r hr => ?_, fun r hr hkr => ?_⟩
    · by_cases hrq : r = q
      · rw [hrq, Table.upd_self] at hr
        unfold Proc.hit at hr
        dsimp only at hr
        split at hr
        · cases hr
        · exact absurd hr hs
      · rw [Table.upd_other _ _ hrq] at hr ⊢
        exact h.clean r hr
    · by_cases hrq : r = q
      · simp [hrq, hpid]
      · rw [Table.upd_other _ _ hrq] at hr hkr
        exact hmore.blamed r hr hkr

theorem Kept.setkilled (hq : (s.table.proc q).state ≠ .unused) :
    Kept ⟨s.table.setkilled q, Function.update s.blame q true⟩ := by
  refine ⟨fun r hr => ?_, fun r hr hkr => ?_⟩
  · unfold Table.setkilled at hr ⊢
    by_cases hrq : r = q
    · rw [hrq, Table.upd_self] at hr
      exact absurd hr hq
    · rw [Table.upd_other _ _ hrq] at hr ⊢
      exact h.clean r hr
  · by_cases hrq : r = q
    · simp [hrq]
    · unfold Table.setkilled at hr hkr
      rw [Table.upd_other _ _ hrq] at hr hkr
      simp only [Function.update_of_ne hrq]
      exact h.blamed r hr hkr

theorem Kept.act {c : ProcCall} {s' : Blamed} (hc : NotZero s c) (hs : s.act c = .ok s') :
    Kept s' := by
  have hrun : ∀ {p}, s.isRunning p → (s.table.proc p).state ≠ .unused := by
    intro p hp hu
    rw [isRunning, hu] at hp
    cases hp
  cases c with
  | kill pid =>
    simp only [Blamed.act, Except.ok.injEq] at hs
    subst hs
    exact h.kill hc
  | wakeup p chan =>
    simp only [Blamed.act, Except.ok.injEq] at hs
    subst hs
    exact h.quiet (Quiet.wakeup _ _ _)
  | fork p memory copied =>
    obtain ⟨-, hs⟩ := guard_ok.mp hs
    cases hs
    exact h.fork p memory copied
  | exit p status =>
    obtain ⟨hp, hs⟩ := guard_ok.mp hs
    obtain ⟨t, he, rfl⟩ := map_ok.mp hs
    exact h.quiet (Quiet.exit (hrun hp) he)
  | wait p copied =>
    obtain ⟨hp, hs⟩ := guard_ok.mp hs
    cases hs
    exact h.wait (hrun hp) copied
  | setkilled q =>
    obtain ⟨hq, hs⟩ := guard_ok.mp hs
    cases hs
    exact h.setkilled (hrun hq)
  | sleep p chan | yield p =>
    obtain ⟨hp, hs⟩ := guard_ok.mp hs
    cases hs
    exact h.quiet (Quiet.upd rfl rfl (by simp [hrun hp]))
  | schedule p =>
    obtain ⟨hp, hs⟩ := guard_ok.mp hs
    cases hs
    exact h.quiet (Quiet.upd rfl rfl (by simp [hp]))

end

end Kept

/-- After every run in which `kill` is not called with pid 0: slots that `allocproc` returns
have not been killed, every process that was killed is to blame for it, and `kill` returns 0
only if there was a process with that pid. -/
theorem kill_hits_only_target (calls : List ProcCall) (s : Blamed)
    (hal : Run.Along (Shared.step Blamed.act) NotZero boot calls)
    (hrun : Run.exec (Shared.step Blamed.act) boot calls = some s) :
    (∀ memory q t, s.table.allocproc memory = (some q, t) → (t.proc q).killed = false) ∧
    (∀ q, (s.table.proc q).state ≠ .unused → (s.table.proc q).killed = true →
      s.blame q = true) ∧
    ∀ pid, pid ≠ 0 → (s.table.kill pid).1 = 0 →
      ∃ q, (s.table.proc q).pid = pid ∧ (s.table.proc q).state ≠ .unused := by
  have hboot : Kept boot := by
    refine ⟨fun q hq => ?_, fun q hq hk => ?_⟩
    · by_cases h0 : q = 0
      · rw [h0] at hq
        cases hq
      · simp [boot, Table.boot, h0, Proc.zero]
    · by_cases h0 : q = 0
      · rw [h0] at hk
        cases hk
      · simp [boot, Table.boot, h0, Proc.zero] at hk
  have hk : Kept s := Run.exec_inv (fun hi hc hs => hi.act hc (Shared.step_eq_some.mp hs)) hboot
    hal hrun
  refine ⟨fun memory q t ha => hk.alloc_not_killed memory ha, hk.blamed, fun pid hne h0 => ?_⟩
  rcases hk.kill_cases hne with hn | ⟨q, hpid, hq, -⟩
  · rw [hn] at h0
    exact absurd (show (-1 : BitVec 32) = 0 from h0) (by decide)
  · exact ⟨q, hpid, hq⟩

def killChild : List ProcCall := [.schedule 0, .fork 0 true true, .kill 2]

theorem kill_hits_only_target_killChild : ∃ s,
    Run.Along (Shared.step Blamed.act) NotZero boot killChild ∧
    Run.exec (Shared.step Blamed.act) boot killChild = some s ∧
    (s.table.proc 1).state = .runnable ∧ (s.table.proc 1).killed = true ∧ s.blame 1 = true := by
  have hal : Run.Along (Shared.step Blamed.act) NotZero boot killChild := by decide +kernel
  have hrun : (Run.exec (Shared.step Blamed.act) boot killChild).map (fun s =>
      ((s.table.proc 1).state, (s.table.proc 1).killed)) = some (.runnable, true) := by
    decide +kernel
  obtain ⟨s, hs, hst⟩ := Option.map_eq_some_iff.mp hrun
  simp only [Prod.mk.injEq] at hst
  have hall := kill_hits_only_target killChild s hal hs
  refine ⟨s, hal, hs, hst.1, hst.2, hall.2.1 1 ?_ hst.2⟩
  rw [hst.1]
  decide

/-- `kill(0)` marks an unused slot, and the next process is born killed. -/
theorem kill_zero_marks_next_fork :
    ((boot.table.kill 0).1 = 0 ∧ ∀ q, (boot.table.proc q).pid = 0 →
      (boot.table.proc q).state = .unused) ∧
    ∃ s, Run.exec (Shared.step Blamed.act) boot [.schedule 0, .kill 0, .fork 0 true true] = some s ∧
      (s.table.proc 1).state = .runnable ∧ (s.table.proc 1).killed = true ∧ s.blame 1 = false := by
  refine ⟨by decide +kernel, ?_⟩
  have hrun : (Run.exec (Shared.step Blamed.act) boot
      [.schedule 0, .kill 0, .fork 0 true true]).map (fun s =>
      ((s.table.proc 1).state, (s.table.proc 1).killed, s.blame 1)) =
      some (.runnable, true, false) := by decide +kernel
  obtain ⟨s, hs, hst⟩ := Option.map_eq_some_iff.mp hrun
  simp only [Prod.mk.injEq] at hst
  exact ⟨s, hs, hst⟩

end Blamed

end Xv6Audit.Procs
