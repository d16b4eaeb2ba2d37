import Xv6Audit.Proc.Table

/-! `fork`, `exit`, `wait` and `kill` of `kernel/proc.c` by several processes. A step is a
critical section under `wait_lock` or a `p->lock`; where one of the two is taken or given back
while the other is held, it ends there. -/
namespace Xv6Audit.Procs
open Function

inductive Pc where
  | free
  | born
  | user
  | otherAsleep
  | forkAlloc (np : Fin NPROC)
  | forkParent (np : Fin NPROC)
  | forkReady (np : Fin NPROC)
  | reparent (status : BitVec 32) (pp : Nat)
  | reparentWake (status : BitVec 32) (pp next : Nat)
  | exitWake (status : BitVec 32) (next : Nat)
  | exitZombie
  | exitSched
  | gone
  | waitScan (pp : Nat) (havekids : Bool)
  | waitSleep
  | sleepLocked
  | sleepFree
  | sleepSet
  | asleep
  | waitAgain
deriving DecidableEq, Repr

structure Exit where
  slot : Fin NPROC
  gen : Nat
  pid : BitVec 32
  status : BitVec 32
deriving DecidableEq, Repr

def Exit.key (e : Exit) : Fin NPROC × Nat := (e.slot, e.gen)

structure Waited where
  who : Fin NPROC
  parent : Option (Fin NPROC)
  found : Exit
deriving DecidableEq, Repr

structure Family where
  proc : Fin NPROC → Proc
  nextpid : BitVec 32
  initproc : Fin NPROC
  waitLock : Option (Fin NPROC)
  lock : Fin NPROC → Option (Fin NPROC)
  pc : Fin NPROC → Pc
  gen : Fin NPROC → Nat
  exited : List Exit
  waited : List Waited

/-- What happens next. Whether memory for a child is found, `fork` after `allocproc` goes on or
gives up, and whether `copyout` works is not decided here. -/
inductive FamAct where
  | schedule (p : Fin NPROC)
  | yield (p : Fin NPROC)
  | sleepOther (p : Fin NPROC) (a : Nat)
  | wakeupOther (q : Fin NPROC) (chan : Chan)
  | kill (q : Fin NPROC)
  | setkilled (p : Fin NPROC)
  | alloc (p q : Fin NPROC)
  | abandon (p : Fin NPROC)
  | exit (p : Fin NPROC) (status : BitVec 32)
  | wait (p : Fin NPROC)
  | next (p : Fin NPROC) (copied : Bool)
deriving DecidableEq, Repr

def Pc.open : Pc → Bool
  | .user => true
  | .forkParent _ => true
  | .forkReady _ => true
  | .waitAgain => true
  | _ => false

def Pc.resumed : Pc → Pc
  | .born => .user
  | .otherAsleep => .user
  | .asleep => .waitAgain
  | x => x

namespace Family

def setProc (s : Family) (q : Fin NPROC) (f : Proc → Proc) : Family :=
  { s with proc := update s.proc q (f (s.proc q)) }

def setLock (s : Family) (q : Fin NPROC) (l : Option (Fin NPROC)) : Family :=
  { s with lock := update s.lock q l }

def go (s : Family) (p : Fin NPROC) (x : Pc) : Family :=
  { s with pc := update s.pc p x }

def setWait (s : Family) (l : Option (Fin NPROC)) : Family := { s with waitLock := l }

def schedule (s : Family) (p : Fin NPROC) : Except Halt Family :=
  if s.lock p = none ∧ (s.proc p).state = .runnable then
    .ok ((s.setProc p fun x =>
      { x with
        state := .running
        chan := if s.pc p = .asleep ∨ s.pc p = .otherAsleep then .null else x.chan }).go p
          (s.pc p).resumed)
  else .error .blocked

def yield (s : Family) (p : Fin NPROC) : Except Halt Family :=
  if (s.pc p).open ∧ s.lock p = none ∧ (s.proc p).state = .running then
    .ok (s.setProc p fun x => { x with state := .runnable })
  else .error .blocked

def sleepOther (s : Family) (p : Fin NPROC) (a : Nat) : Except Halt Family :=
  if s.pc p = .user ∧ s.lock p = none ∧ (s.proc p).state = .running then
    .ok ((s.setProc p fun x => { x with chan := .other a, state := .sleeping }).go p .otherAsleep)
  else .error .blocked

def within (s : Family) (q : Fin NPROC) (f : Proc → Proc) : Except Halt Family :=
  if s.lock q = none then .ok (s.setProc q f) else .error .blocked

def alloc (s : Family) (p q : Fin NPROC) : Except Halt Family :=
  if s.pc p = .user ∧ (s.proc p).state = .running ∧ s.lock q = none ∧
      (s.proc q).state = .unused then
    .ok { (((s.setProc q fun x => x.found s.nextpid).setLock q (some p)).go q .born).go p
        (.forkAlloc q) with
      nextpid := s.nextpid + 1
      gen := update s.gen q (s.gen q + 1) }
  else .error .blocked

def abandon (s : Family) (p : Fin NPROC) : Except Halt Family :=
  match s.pc p with
  | .forkAlloc np => .ok ((((s.setProc np Proc.freeproc).setLock np none).go np .free).go p .user)
  | _ => .error .blocked

def setParent (s : Family) (p np : Fin NPROC) : Except Halt Family :=
  if s.waitLock = none ∧ (s.proc p).state = .running then
    .ok ((s.setProc np fun x => { x with parent := some p }).go p (.forkReady np))
  else .error .blocked

def ready (s : Family) (p np : Fin NPROC) : Except Halt Family :=
  if s.lock np = none ∧ (s.proc p).state = .running then
    .ok ((s.setProc np fun x => { x with state := .runnable }).go p .user)
  else .error .blocked

def exit (s : Family) (p : Fin NPROC) (status : BitVec 32) : Except Halt Family :=
  if s.pc p = .user ∧ (s.proc p).state = .running then
    if p = s.initproc then .error (.panic "init exiting")
    else if s.waitLock = none then .ok ((s.setWait (some p)).go p (.reparent status 0))
    else .error .blocked
  else .error .blocked

def reparent (s : Family) (p : Fin NPROC) (status : BitVec 32) (pp : Nat) : Family :=
  if h : pp < NPROC then
    if (s.proc ⟨pp, h⟩).parent = some p then
      (s.setProc ⟨pp, h⟩ fun x => { x with parent := some s.initproc }).go p
        (.reparentWake status pp 0)
    else s.go p (.reparent status (pp + 1))
  else s.go p (.exitWake status 0)

def wakeAt (s : Family) (p : Fin NPROC) (chan : Chan) (q : Fin NPROC) : Except Halt Family :=
  if p = q then .ok s else s.within q fun x => x.woken chan

def reparentWake (s : Family) (p : Fin NPROC) (status : BitVec 32) (pp next : Nat) :
    Except Halt Family :=
  if h : next < NPROC then
    (s.wakeAt p (.slot s.initproc) ⟨next, h⟩).map fun t =>
      t.go p (.reparentWake status pp (next + 1))
  else .ok (s.go p (.reparent status (pp + 1)))

def parentChan (s : Family) (p : Fin NPROC) : Chan :=
  match (s.proc p).parent with
  | some q => .slot q
  | none => .null

def die (s : Family) (p : Fin NPROC) (status : BitVec 32) : Except Halt Family :=
  if s.lock p = none then
    .ok { ((s.setProc p fun x => { x with xstate := status, state := .zombie }).setLock p
        (some p)).go p .exitZombie with
      exited := s.exited ++ [⟨p, s.gen p, (s.proc p).pid, status⟩] }
  else .error .blocked

def exitWake (s : Family) (p : Fin NPROC) (status : BitVec 32) (next : Nat) :
    Except Halt Family :=
  if h : next < NPROC then
    (s.wakeAt p (s.parentChan p) ⟨next, h⟩).map fun t => t.go p (.exitWake status (next + 1))
  else s.die p status

def wait (s : Family) (p : Fin NPROC) : Except Halt Family :=
  if (s.pc p = .user ∨ s.pc p = .waitAgain) ∧ (s.proc p).state = .running ∧
      s.waitLock = none then
    .ok ((s.setWait (some p)).go p (.waitScan 0 false))
  else .error .blocked

def reap (s : Family) (p q : Fin NPROC) : Family :=
  { ((((s.setProc q Proc.freeproc).go q .free).setWait none).go p .user) with
    waited := s.waited ++ [⟨p, (s.proc q).parent, ⟨q, s.gen q, (s.proc q).pid, (s.proc q).xstate⟩⟩] }

def waitScan (s : Family) (p : Fin NPROC) (pp : Nat) (havekids copied : Bool) :
    Except Halt Family :=
  if h : pp < NPROC then
    if (s.proc ⟨pp, h⟩).parent = some p then
      if s.lock ⟨pp, h⟩ = none then
        if (s.proc ⟨pp, h⟩).state = .zombie then
          if copied then .ok (s.reap p ⟨pp, h⟩) else .ok ((s.setWait none).go p .user)
        else .ok (s.go p (.waitScan (pp + 1) true))
      else .error .blocked
    else .ok (s.go p (.waitScan (pp + 1) havekids))
  else if havekids = false then .ok ((s.setWait none).go p .user)
  else if s.lock p = none then
    if (s.proc p).killed then .ok ((s.setWait none).go p .user) else .ok (s.go p .waitSleep)
  else .error .blocked

def sleepLock (s : Family) (p : Fin NPROC) : Except Halt Family :=
  if s.lock p = none then .ok ((s.setLock p (some p)).go p .sleepLocked) else .error .blocked

def next (s : Family) (p : Fin NPROC) (copied : Bool) : Except Halt Family :=
  match s.pc p with
  | .forkAlloc np => .ok ((s.setLock np none).go p (.forkParent np))
  | .forkParent np => s.setParent p np
  | .forkReady np => s.ready p np
  | .reparent status pp => .ok (s.reparent p status pp)
  | .reparentWake status pp next => s.reparentWake p status pp next
  | .exitWake status next => s.exitWake p status next
  | .exitZombie => .ok ((s.setWait none).go p .exitSched)
  | .exitSched => .ok ((s.setLock p none).go p .gone)
  | .waitScan pp havekids => s.waitScan p pp havekids copied
  | .waitSleep => s.sleepLock p
  | .sleepLocked => .ok ((s.setWait none).go p .sleepFree)
  | .sleepFree => .ok ((s.setProc p fun x =>
      { x with chan := .slot p, state := .sleeping }).go p .sleepSet)
  | .sleepSet => .ok ((s.setLock p none).go p .asleep)
  | _ => .error .blocked

def act (s : Family) : FamAct → Except Halt Family
  | .schedule p => s.schedule p
  | .yield p => s.yield p
  | .sleepOther p a => s.sleepOther p a
  | .wakeupOther q chan => s.within q fun x => x.woken chan
  | .kill q => s.within q Proc.hit
  | .setkilled p => s.within p fun x => { x with killed := true }
  | .alloc p q => s.alloc p q
  | .abandon p => s.abandon p
  | .exit p status => s.exit p status
  | .wait p => s.wait p
  | .next p copied => s.next p copied

def boot : Family where
  proc := Table.boot.proc
  nextpid := Table.boot.nextpid
  initproc := Table.boot.initproc
  waitLock := none
  lock := fun _ => none
  pc := update (fun _ => .free) Table.boot.initproc .born
  gen := fun _ => 0
  exited := []
  waited := []

/-! What a step can be. -/

def Same (x x' : Proc) : Prop :=
  x'.parent = x.parent ∧ x'.pid = x.pid ∧ x'.xstate = x.xstate

def Lent (x x' : Proc) : Prop :=
  Same x x' ∧ (x'.state = x.state ∧ x'.chan = x.chan ∨ x.state = .sleeping ∧ x'.state = .runnable)

inductive Step (s : Family) : Family → Prop
  | schedule (p : Fin NPROC) (f : Proc → Proc) (hl : s.lock p = none)
      (hr : (s.proc p).state = .runnable) (hf : Same (s.proc p) (f (s.proc p)))
      (hf' : (f (s.proc p)).state = .running) : Step s ((s.setProc p f).go p (s.pc p).resumed)
  | yield (p : Fin NPROC) (hp : (s.pc p).open = true) (hr : (s.proc p).state = .running) :
      Step s (s.setProc p fun x => { x with state := .runnable })
  | sleepOther (p : Fin NPROC) (a : Nat) (hp : s.pc p = .user) (hr : (s.proc p).state = .running) :
      Step s ((s.setProc p fun x => { x with chan := .other a, state := .sleeping }).go p
        .otherAsleep)
  | lent (q : Fin NPROC) (f : Proc → Proc) (hl : s.lock q = none)
      (hf : Lent (s.proc q) (f (s.proc q))) : Step s (s.setProc q f)
  | alloc (p q : Fin NPROC) (hp : s.pc p = .user) (hr : (s.proc p).state = .running)
      (hl : s.lock q = none) (hu : (s.proc q).state = .unused) :
      Step s { (((s.setProc q fun x => x.found s.nextpid).setLock q (some p)).go q .born).go p
          (.forkAlloc q) with
        nextpid := s.nextpid + 1
        gen := update s.gen q (s.gen q + 1) }
  | abandon (p q : Fin NPROC) (hp : s.pc p = .forkAlloc q) :
      Step s ((((s.setProc q Proc.freeproc).setLock q none).go q .free).go p .user)
  | forkRelease (p q : Fin NPROC) (hp : s.pc p = .forkAlloc q) :
      Step s ((s.setLock q none).go p (.forkParent q))
  | setParent (p q : Fin NPROC) (hp : s.pc p = .forkParent q) (hw : s.waitLock = none)
      (hr : (s.proc p).state = .running) :
      Step s ((s.setProc q fun x => { x with parent := some p }).go p (.forkReady q))
  | ready (p q : Fin NPROC) (hp : s.pc p = .forkReady q) (hl : s.lock q = none)
      (hr : (s.proc p).state = .running) :
      Step s ((s.setProc q fun x => { x with state := .runnable }).go p .user)
  | exit (p : Fin NPROC) (status : BitVec 32) (hp : s.pc p = .user) (hi : p ≠ s.initproc)
      (hr : (s.proc p).state = .running) (hw : s.waitLock = none) :
      Step s ((s.setWait (some p)).go p (.reparent status 0))
  | hand (p q : Fin NPROC) (status : BitVec 32) (hp : s.pc p = .reparent status q)
      (hq : (s.proc q).parent = some p) :
      Step s ((s.setProc q fun x => { x with parent := some s.initproc }).go p
        (.reparentWake status q 0))
  | skip (p q : Fin NPROC) (status : BitVec 32) (hp : s.pc p = .reparent status q)
      (hq : (s.proc q).parent ≠ some p) : Step s (s.go p (.reparent status (q + 1)))
  | handed (p : Fin NPROC) (status : BitVec 32) (pp : Nat) (hp : s.pc p = .reparent status pp)
      (hn : NPROC ≤ pp) : Step s (s.go p (.exitWake status 0))
  | wakeInit (p q : Fin NPROC) (status : BitVec 32) (pp : Nat) (t : Family)
      (hp : s.pc p = .reparentWake status pp q)
      (ht : p = q ∧ t = s ∨ s.lock q = none ∧ t = s.setProc q fun x => x.woken (.slot s.initproc)) :
      Step s (t.go p (.reparentWake status pp (q + 1)))
  | wokenInit (p : Fin NPROC) (status : BitVec 32) (pp next : Nat)
      (hp : s.pc p = .reparentWake status pp next) (hn : NPROC ≤ next) :
      Step s (s.go p (.reparent status (pp + 1)))
  | wakeParent (p q : Fin NPROC) (status : BitVec 32) (t : Family)
      (hp : s.pc p = .exitWake status q)
      (ht : p = q ∧ t = s ∨ s.lock q = none ∧ t = s.setProc q fun x => x.woken (s.parentChan p)) :
      Step s (t.go p (.exitWake status (q + 1)))
  | die (p : Fin NPROC) (status : BitVec 32) (next : Nat) (hp : s.pc p = .exitWake status next)
      (hn : NPROC ≤ next) :
      Step s { ((s.setProc p fun x => { x with xstate := status, state := .zombie }).setLock p
          (some p)).go p .exitZombie with
        exited := s.exited ++ [⟨p, s.gen p, (s.proc p).pid, status⟩] }
  | exitRelease (p : Fin NPROC) (hp : s.pc p = .exitZombie) :
      Step s ((s.setWait none).go p .exitSched)
  | exitSwitch (p : Fin NPROC) (hp : s.pc p = .exitSched) : Step s ((s.setLock p none).go p .gone)
  | wait (p : Fin NPROC) (hp : s.pc p = .user ∨ s.pc p = .waitAgain)
      (hr : (s.proc p).state = .running) (hw : s.waitLock = none) :
      Step s ((s.setWait (some p)).go p (.waitScan 0 false))
  | reap (p q : Fin NPROC) (havekids : Bool) (hp : s.pc p = .waitScan q havekids)
      (hq : (s.proc q).parent = some p) (hl : s.lock q = none) (hz : (s.proc q).state = .zombie) :
      Step s (s.reap p q)
  | scanOn (p q : Fin NPROC) (havekids havekids' : Bool) (hp : s.pc p = .waitScan q havekids)
      (hq : (s.proc q).parent = some p → (s.proc q).state ≠ .zombie) :
      Step s (s.go p (.waitScan (q + 1) havekids'))
  | waitEnd (p : Fin NPROC) (pp : Nat) (havekids : Bool) (hp : s.pc p = .waitScan pp havekids) :
      Step s ((s.setWait none).go p .user)
  | waitSleep (p : Fin NPROC) (pp : Nat) (havekids : Bool) (hp : s.pc p = .waitScan pp havekids)
      (hn : NPROC ≤ pp) : Step s (s.go p .waitSleep)
  | sleepLock (p : Fin NPROC) (hp : s.pc p = .waitSleep) :
      Step s ((s.setLock p (some p)).go p .sleepLocked)
  | sleepFree (p : Fin NPROC) (hp : s.pc p = .sleepLocked) :
      Step s ((s.setWait none).go p .sleepFree)
  | sleepSet (p : Fin NPROC) (hp : s.pc p = .sleepFree) :
      Step s ((s.setProc p fun x => { x with chan := .slot p, state := .sleeping }).go p .sleepSet)
  | sleepSwitch (p : Fin NPROC) (hp : s.pc p = .sleepSet) :
      Step s ((s.setLock p none).go p .asleep)

variable {s s' : Family} {p q : Fin NPROC}

theorem same_refl (x : Proc) : Same x x := ⟨rfl, rfl, rfl⟩

theorem woken_lent (x : Proc) (chan : Chan) : Lent x (x.woken chan) := by
  unfold Proc.woken
  split
  case isTrue hx => exact ⟨same_refl x, .inr ⟨hx.1, rfl⟩⟩
  case isFalse => exact ⟨same_refl x, .inl ⟨rfl, rfl⟩⟩

theorem hit_lent (x : Proc) : Lent x x.hit := by
  refine ⟨same_refl x, ?_⟩
  by_cases hx : x.state = .sleeping
  · exact .inr ⟨hx, if_pos hx⟩
  · exact .inl ⟨if_neg hx, rfl⟩

theorem within_step {f : Proc → Proc} (hf : Lent (s.proc q) (f (s.proc q)))
    (hs : s.within q f = .ok s') : Step s s' := by
  obtain ⟨hl, hs⟩ := guard_ok.mp hs
  cases hs
  exact .lent q f hl hf

theorem schedule_step (hs : s.schedule p = .ok s') : Step s s' := by
  obtain ⟨hg, hs⟩ := guard_ok.mp hs
  cases hs
  exact .schedule p _ hg.1 hg.2 ⟨rfl, rfl, rfl⟩ rfl

theorem yield_step (hs : s.yield p = .ok s') : Step s s' := by
  obtain ⟨hg, hs⟩ := guard_ok.mp hs
  cases hs
  exact .yield p hg.1 hg.2.2

theorem sleepOther_step {a : Nat} (hs : s.sleepOther p a = .ok s') : Step s s' := by
  obtain ⟨hg, hs⟩ := guard_ok.mp hs
  cases hs
  exact .sleepOther p a hg.1 hg.2.2

theorem alloc_step (hs : s.alloc p q = .ok s') : Step s s' := by
  obtain ⟨hg, hs⟩ := guard_ok.mp hs
  cases hs
  exact .alloc p q hg.1 hg.2.1 hg.2.2.1 hg.2.2.2

theorem abandon_step (hs : s.abandon p = .ok s') : Step s s' := by
  unfold abandon at hs
  split at hs
  case h_2 => cases hs
  case h_1 np hp =>
  cases hs
  exact .abandon p np hp

variable {status : BitVec 32}

theorem exit_step (hs : s.exit p status = .ok s') : Step s s' := by
  obtain ⟨hg, hs⟩ := guard_ok.mp hs
  obtain ⟨hi, hs⟩ := unless_ok.mp hs
  obtain ⟨hw, hs⟩ := guard_ok.mp hs
  cases hs
  exact .exit p status hg.1 hi hg.2 hw

theorem setParent_step (hp : s.pc p = .forkParent q) (hs : s.setParent p q = .ok s') :
    Step s s' := by
  obtain ⟨hg, hs⟩ := guard_ok.mp hs
  cases hs
  exact .setParent p q hp hg.1 hg.2

theorem ready_step (hp : s.pc p = .forkReady q) (hs : s.ready p q = .ok s') : Step s s' := by
  obtain ⟨hg, hs⟩ := guard_ok.mp hs
  cases hs
  exact .ready p q hp hg.1 hg.2

theorem reparent_step {pp : Nat} (hp : s.pc p = .reparent status pp) :
    Step s (s.reparent p status pp) := by
  unfold reparent
  split
  case isFalse hn => exact .handed p status pp hp (not_lt.mp hn)
  case isTrue hn =>
  split
  case isTrue hq => exact .hand p ⟨pp, hn⟩ status hp hq
  case isFalse hq => exact .skip p ⟨pp, hn⟩ status hp hq

theorem wakeAt_ok {chan : Chan} (hs : s.wakeAt p chan q = .ok s') :
    p = q ∧ s' = s ∨ s.lock q = none ∧ s' = s.setProc q fun x => x.woken chan := by
  unfold wakeAt within at hs
  split at hs
  case isTrue hpq =>
    cases hs
    exact .inl ⟨hpq, rfl⟩
  case isFalse =>
  obtain ⟨hl, hs⟩ := guard_ok.mp hs
  cases hs
  exact .inr ⟨hl, rfl⟩

theorem map_go_ok {r : Except Halt Family} {x : Pc} (hs : r.map (fun t => t.go p x) = .ok s') :
    ∃ t, r = .ok t ∧ s' = t.go p x := by
  cases r with
  | error e => cases hs
  | ok t =>
    cases hs
    exact ⟨t, rfl, rfl⟩

theorem reparentWake_step {pp next : Nat} (hp : s.pc p = .reparentWake status pp next)
    (hs : s.reparentWake p status pp next = .ok s') : Step s s' := by
  unfold reparentWake at hs
  split at hs
  case isFalse hn =>
    cases hs
    exact .wokenInit p status pp next hp (not_lt.mp hn)
  case isTrue hn =>
  obtain ⟨t, ht, rfl⟩ := map_go_ok hs
  exact .wakeInit p ⟨next, hn⟩ status pp t hp (wakeAt_ok ht)

theorem exitWake_step {next : Nat} (hp : s.pc p = .exitWake status next)
    (hs : s.exitWake p status next = .ok s') : Step s s' := by
  unfold exitWake at hs
  split at hs
  case isTrue hn =>
    obtain ⟨t, ht, rfl⟩ := map_go_ok hs
    exact .wakeParent p ⟨next, hn⟩ status t hp (wakeAt_ok ht)
  case isFalse hn =>
  obtain ⟨-, hs⟩ := guard_ok.mp hs
  cases hs
  exact .die p status next hp (not_lt.mp hn)

theorem wait_step (hs : s.wait p = .ok s') : Step s s' := by
  obtain ⟨hg, hs⟩ := guard_ok.mp hs
  cases hs
  exact .wait p hg.1 hg.2.1 hg.2.2

theorem waitScan_step {pp : Nat} {havekids copied : Bool} (hp : s.pc p = .waitScan pp havekids)
    (hs : s.waitScan p pp havekids copied = .ok s') : Step s s' := by
  unfold waitScan at hs
  split at hs
  case isTrue hn =>
    split at hs
    case isFalse hq =>
      cases hs
      exact .scanOn p ⟨pp, hn⟩ havekids havekids hp (fun h => absurd h hq)
    case isTrue hq =>
    obtain ⟨hl, hs⟩ := guard_ok.mp hs
    split at hs
    case isFalse hz =>
      cases hs
      exact .scanOn p ⟨pp, hn⟩ havekids true hp (fun _ => hz)
    case isTrue hz =>
    split at hs
    · cases hs
      exact .reap p ⟨pp, hn⟩ havekids hp hq hl hz
    · cases hs
      exact .waitEnd p pp havekids hp
  case isFalse hn =>
    split at hs
    · cases hs
      exact .waitEnd p pp havekids hp
    · obtain ⟨-, hs⟩ := guard_ok.mp hs
      split at hs
      · cases hs
        exact .waitEnd p pp havekids hp
      · cases hs
        exact .waitSleep p pp havekids hp (not_lt.mp hn)

theorem next_step {copied : Bool} (hs : s.next p copied = .ok s') : Step s s' := by
  unfold next at hs
  split at hs
  case h_1 np hp => cases hs; exact .forkRelease p np hp
  case h_2 np hp => exact setParent_step hp hs
  case h_3 np hp => exact ready_step hp hs
  case h_4 status pp hp => cases hs; exact reparent_step hp
  case h_5 status pp next hp => exact reparentWake_step hp hs
  case h_6 status next hp => exact exitWake_step hp hs
  case h_7 hp => cases hs; exact .exitRelease p hp
  case h_8 hp => cases hs; exact .exitSwitch p hp
  case h_9 pp havekids hp => exact waitScan_step hp hs
  case h_10 hp =>
    unfold sleepLock at hs
    split at hs
    · cases hs; exact .sleepLock p hp
    · cases hs
  case h_11 hp => cases hs; exact .sleepFree p hp
  case h_12 hp => cases hs; exact .sleepSet p hp
  case h_13 hp => cases hs; exact .sleepSwitch p hp
  case h_14 => cases hs

theorem act_step {a : FamAct} (hs : s.act a = .ok s') : Step s s' := by
  cases a with
  | schedule p => exact schedule_step hs
  | yield p => exact yield_step hs
  | sleepOther p a => exact sleepOther_step hs
  | wakeupOther q chan => exact within_step (woken_lent ..) hs
  | kill q => exact within_step (hit_lent _) hs
  | setkilled p => exact within_step ⟨same_refl _, .inl ⟨rfl, rfl⟩⟩ hs
  | alloc p q => exact alloc_step hs
  | abandon p => exact abandon_step hs
  | exit p status => exact exit_step hs
  | wait p => exact wait_step hs
  | next p copied => exact next_step hs

end Family

end Xv6Audit.Procs
