import Xv6Audit.Proc.Table

/-! Switching between processes (`scheduler`, `sched`, `yield`, `sleep`, `wakeup` of
`kernel/proc.c`) on several CPUs. A step is a critical section under a `p->lock`, or the part of
one up to a `swtch`, which leaves the lock to the other side.

Some processes share data under a spinlock `lk`: a sleeper looks at its condition under `lk` and
sleeps on `chan` if it is false; who makes a condition true calls `wakeup(chan)` before it
releases `lk`. -/
namespace Xv6Audit.Procs
open Function

inductive Why where
  | forkret
  | yield (child : Option (Fin NPROC))
  | sleep
  | exit
deriving DecidableEq, Repr

/-- Where the kernel thread of a process is. In `run (some q)` it is in `fork`, between the two
critical sections of the child `q`; `dozing` and `drowsy` are in `sleep(chan, lk)`, before and
after `release(lk)`. -/
inductive Thread where
  | out (w : Why)
  | entered (w : Why)
  | run (child : Option (Fin NPROC))
  | setup (child : Fin NPROC)
  | leaving (w : Why)
  | dozing
  | drowsy
deriving DecidableEq, Repr

/-- What a CPU executes: the loop of `scheduler()`, the thread of a process, or `scheduler()`
right after the `swtch` back. -/
inductive Ctx where
  | scan
  | thread (p : Fin NPROC)
  | back (p : Fin NPROC)
deriving DecidableEq, Repr

inductive Lk (k : Nat) where
  | free
  | held (c : Fin k) (owes : Bool)
  | waking (c : Fin k) (next : Nat)
deriving DecidableEq, Repr

def Lk.cpu {k : Nat} : Lk k → Option (Fin k)
  | .free => none
  | .held c _ => some c
  | .waking c _ => some c

structure Kernel (k : Nat) (D : Type) where
  proc : Fin NPROC → Proc
  nextpid : BitVec 32
  lock : Fin NPROC → Option (Fin k)
  cproc : Fin k → Option (Fin NPROC)
  ctx : Fin k → Ctx
  thread : Fin NPROC → Thread
  lk : Lk k
  data : D

inductive ThreadAct where
  | enter
  | yield
  | sleepOn (ch : Chan)
  | exit (status : BitVec 32)
  | sched
  | setkilled
  | alloc (q : Fin NPROC)
  | abandon
  | setUp
  | ready
  | reap (q : Fin NPROC)
  | doze
  | dropLk
  | nod
deriving DecidableEq, Repr

inductive LkAct (D : Type) where
  | acquire
  | change (d : D)
  | wakeup
  | wakeNext
  | release
deriving DecidableEq, Repr

inductive CpuAct (D : Type) where
  | pick (p : Fin NPROC)
  | unpick
  | wakeup (q : Fin NPROC) (ch : Chan)
  | kill (q : Fin NPROC)
  | lk (a : LkAct D)
  | thread (a : ThreadAct)
deriving DecidableEq, Repr

namespace Kernel
variable {k : Nat} {D : Type} (chan : Chan) (cond : Fin NPROC → D → Bool)

def setProc (s : Kernel k D) (q : Fin NPROC) (f : Proc → Proc) : Kernel k D :=
  { s with proc := update s.proc q (f (s.proc q)) }

def setLock (s : Kernel k D) (q : Fin NPROC) (l : Option (Fin k)) : Kernel k D :=
  { s with lock := update s.lock q l }

def go (s : Kernel k D) (p : Fin NPROC) (x : Thread) : Kernel k D :=
  { s with thread := update s.thread p x }

def setCpu (s : Kernel k D) (c : Fin k) (x : Ctx) (p : Option (Fin NPROC)) : Kernel k D :=
  { s with ctx := update s.ctx c x, cproc := update s.cproc c p }

def noff (s : Kernel k D) (c : Fin k) : Nat :=
  (Finset.univ.filter fun q => s.lock q = some c).card + if s.lk.cpu = some c then 1 else 0

/-- The CPU runs code outside the critical sections of the process table: in `scheduler()`, where
only an interrupt does something, or in the thread of a process. -/
def atEase (s : Kernel k D) (c : Fin k) : Bool :=
  match s.ctx c with
  | .scan => true
  | .thread p =>
    match s.thread p with
    | .run _ => true
    | _ => false
  | .back _ => false

def pick (s : Kernel k D) (c : Fin k) (p : Fin NPROC) : Except Halt (Kernel k D) :=
  match s.ctx c, s.thread p with
  | .scan, .out w =>
    if s.lk.cpu ≠ some c ∧ s.lock p = none ∧ (s.proc p).state = .runnable then
      .ok ((((s.setProc p fun x => { x with state := .running }).setLock p (some c)).setCpu c
        (.thread p) (some p)).go p (.entered w))
    else .error .blocked
  | _, _ => .error .blocked

def unpick (s : Kernel k D) (c : Fin k) : Except Halt (Kernel k D) :=
  match s.ctx c with
  | .back p => .ok ((s.setCpu c .scan none).setLock p none)
  | _ => .error .blocked

/-- Behind the `swtch` in `sched()`, or in `forkret()`: `release(&p->lock)`. A sleeper clears
`p->chan` first. -/
def enter (s : Kernel k D) (p : Fin NPROC) : Why → Except Halt (Kernel k D)
  | .forkret => .ok ((s.setLock p none).go p (.run none))
  | .yield child => .ok ((s.setLock p none).go p (.run child))
  | .sleep =>
    .ok (((s.setProc p fun x => { x with chan := .null }).setLock p none).go p (.run none))
  | .exit => .error (.panic "zombie exit")

/-- `acquire(&p->lock)` of the process's own lock, and the change of its state; `sched()` is
next. The holder of `lk` does not come here. -/
def leave (s : Kernel k D) (c : Fin k) (p : Fin NPROC) (w : Why) (f : Proc → Proc) :
    Except Halt (Kernel k D) :=
  if s.lk.cpu ≠ some c ∧ s.lock p = none then
    .ok (((s.setProc p f).setLock p (some c)).go p (.leaving w))
  else .error .blocked

def sched (s : Kernel k D) (c : Fin k) (p : Fin NPROC) (w : Why) : Except Halt (Kernel k D) :=
  if s.lock p ≠ some c then .error (.panic "sched p->lock")
  else if s.noff c ≠ 1 then .error (.panic "sched locks")
  else if (s.proc p).state = .running then .error (.panic "sched running")
  else .ok ((s.go p (.out w)).setCpu c (.back p) (s.cproc c))

def within (s : Kernel k D) (q : Fin NPROC) (f : Proc → Proc) : Except Halt (Kernel k D) :=
  if s.lock q = none then .ok (s.setProc q f) else .error .blocked

def wakeup (s : Kernel k D) (c : Fin k) (q : Fin NPROC) (ch : Chan) : Except Halt (Kernel k D) :=
  if s.cproc c = some q then .ok s else s.within q fun x => x.woken ch

def alloc (s : Kernel k D) (c : Fin k) (p q : Fin NPROC) : Except Halt (Kernel k D) :=
  if s.lk.cpu ≠ some c ∧ s.lock q = none ∧ (s.proc q).state = .unused then
    .ok { (((s.setProc q fun x => x.found s.nextpid).setLock q (some c)).go q
        (.out .forkret)).go p (.setup q) with nextpid := s.nextpid + 1 }
  else .error .blocked

def ready (s : Kernel k D) (p q : Fin NPROC) : Except Halt (Kernel k D) :=
  if s.lock q = none then
    .ok ((s.setProc q fun x => { x with state := .runnable }).go p (.run none))
  else .error .blocked

def reap (s : Kernel k D) (q : Fin NPROC) : Except Halt (Kernel k D) :=
  if (s.proc q).state = .zombie then s.within q Proc.freeproc else .error .blocked

def sleepOn (s : Kernel k D) (c : Fin k) (p : Fin NPROC) (ch : Chan) : Except Halt (Kernel k D) :=
  if ch = chan then .error .blocked
  else s.leave c p .sleep fun x => { x with chan := ch, state := .sleeping }

def doze (s : Kernel k D) (c : Fin k) (p : Fin NPROC) : Except Halt (Kernel k D) :=
  if s.lk = .held c false ∧ cond p s.data = false ∧ s.lock p = none then
    .ok ((s.setLock p (some c)).go p .dozing)
  else .error .blocked

def threadAct (s : Kernel k D) (c : Fin k) (p : Fin NPROC) :
    ThreadAct → Thread → Except Halt (Kernel k D)
  | .enter, .entered w => s.enter p w
  | .yield, .run child => s.leave c p (.yield child) fun x => { x with state := .runnable }
  | .sleepOn ch, .run none => s.sleepOn chan c p ch
  | .exit status, .run none =>
    s.leave c p .exit fun x => { x with xstate := status, state := .zombie }
  | .sched, .leaving w => s.sched c p w
  | .setkilled, .run _ => s.within p fun x => { x with killed := true }
  | .alloc q, .run none => s.alloc c p q
  -- the two ends of `fork` with the child's lock: out of memory, and all set up
  | .abandon, .setup q => .ok (((s.setProc q Proc.freeproc).setLock q none).go p (.run none))
  | .setUp, .setup q => .ok ((s.setLock q none).go p (.run (some q)))
  | .ready, .run (some q) => s.ready p q
  | .reap q, .run none => s.reap q
  | .doze, .run none => s.doze cond c p
  | .dropLk, .dozing => .ok ({ s with lk := .free }.go p .drowsy)
  | .nod, .drowsy => .ok ((s.setProc p fun x =>
      { x with chan := chan, state := .sleeping }).go p (.leaving .sleep))
  | _, _ => .error .blocked

def raises (s : Kernel k D) (d : D) : Bool :=
  decide (∃ q, cond q d = true ∧ cond q s.data = false)

def wakeNext (s : Kernel k D) (c : Fin k) (next : Nat) : Except Halt (Kernel k D) :=
  if h : next < NPROC then
    (s.wakeup c ⟨next, h⟩ chan).map fun s => { s with lk := .waking c (next + 1) }
  else .ok { s with lk := .held c false }

def lkAct (s : Kernel k D) (c : Fin k) : LkAct D → Lk k → Except Halt (Kernel k D)
  | .acquire, .free => .ok { s with lk := .held c false }
  | .change d, .held c' owes =>
    if c' = c then .ok { s with data := d, lk := .held c (owes || s.raises cond d) }
    else .error .blocked
  | .wakeup, .held c' _ =>
    if c' = c then .ok { s with lk := .waking c 0 } else .error .blocked
  | .wakeNext, .waking c' next =>
    if c' = c then s.wakeNext chan c next else .error .blocked
  | .release, .held c' false =>
    if c' = c then .ok { s with lk := .free } else .error .blocked
  | _, _ => .error .blocked

def act (s : Kernel k D) : Fin k × CpuAct D → Except Halt (Kernel k D)
  | (c, .pick p) => s.pick c p
  | (c, .unpick) => s.unpick c
  | (c, .wakeup q ch) => if s.atEase c then s.wakeup c q ch else .error .blocked
  | (c, .kill q) => if s.atEase c then s.within q Proc.hit else .error .blocked
  | (c, .lk a) => if s.atEase c then s.lkAct chan cond c a s.lk else .error .blocked
  | (c, .thread a) =>
    match s.ctx c with
    | .thread p => s.threadAct chan cond c p a (s.thread p)
    | _ => .error .blocked

def boot (k : Nat) (d : D) : Kernel k D where
  proc := Table.boot.proc
  nextpid := Table.boot.nextpid
  lock := fun _ => none
  cproc := fun _ => none
  ctx := fun _ => .scan
  thread := fun _ => .out .forkret
  lk := .free
  data := d

/-! What a step can be. -/

def Lent (x x' : Proc) : Prop :=
  x'.state = x.state ∧ x'.chan = x.chan ∨ x.state = .sleeping ∧ x'.state = .runnable ∨
    x.state = .zombie ∧ x'.state = .unused

inductive Step (s : Kernel k D) (c : Fin k) : Kernel k D → Prop
  | idle : Step s c s
  | pick (p : Fin NPROC) (w : Why) (hc : s.ctx c = .scan) (ht : s.thread p = .out w)
      (hlk : s.lk.cpu ≠ some c) (hl : s.lock p = none) (hr : (s.proc p).state = .runnable) :
      Step s c ((((s.setProc p fun x => { x with state := .running }).setLock p (some c)).setCpu c
        (.thread p) (some p)).go p (.entered w))
  | unpick (p : Fin NPROC) (hc : s.ctx c = .back p) :
      Step s c ((s.setCpu c .scan none).setLock p none)
  | within (q : Fin NPROC) (f : Proc → Proc) (hl : s.lock q = none)
      (hf : Lent (s.proc q) (f (s.proc q))) : Step s c (s.setProc q f)
  | enter (p : Fin NPROC) (w : Why) (child : Option (Fin NPROC)) (f : Proc → Proc)
      (hc : s.ctx c = .thread p) (ht : s.thread p = .entered w)
      (hw : w ≠ .exit ∧ (child = none ∨ w = .yield child))
      (hf : (f (s.proc p)).state = (s.proc p).state) :
      Step s c (((s.setProc p f).setLock p none).go p (.run child))
  | leave (p : Fin NPROC) (w : Why) (child : Option (Fin NPROC)) (f : Proc → Proc)
      (hc : s.ctx c = .thread p) (ht : s.thread p = .run child)
      (hlk : s.lk.cpu ≠ some c) (hl : s.lock p = none)
      (hf : w = .yield child ∧ (f (s.proc p)).state = .runnable ∨
        w = .sleep ∧ (f (s.proc p)).state = .sleeping ∧ (f (s.proc p)).chan ≠ chan ∨
        w = .exit ∧ (f (s.proc p)).state = .zombie) :
      Step s c (((s.setProc p f).setLock p (some c)).go p (.leaving w))
  | sched (p : Fin NPROC) (w : Why) (hc : s.ctx c = .thread p) (ht : s.thread p = .leaving w) :
      Step s c ((s.go p (.out w)).setCpu c (.back p) (s.cproc c))
  | alloc (p q : Fin NPROC) (hc : s.ctx c = .thread p) (ht : s.thread p = .run none)
      (hlk : s.lk.cpu ≠ some c) (hl : s.lock q = none) (hu : (s.proc q).state = .unused) :
      Step s c { (((s.setProc q fun x => x.found s.nextpid).setLock q (some c)).go q
        (.out .forkret)).go p (.setup q) with nextpid := s.nextpid + 1 }
  | endSetup (p q : Fin NPROC) (child : Option (Fin NPROC)) (f : Proc → Proc)
      (hc : s.ctx c = .thread p) (ht : s.thread p = .setup q)
      (hf : f (s.proc q) = s.proc q ∧ child = some q ∨
        (f (s.proc q)).state = .unused ∧ child = none) :
      Step s c (((s.setProc q f).setLock q none).go p (.run child))
  | ready (p q : Fin NPROC) (hc : s.ctx c = .thread p) (ht : s.thread p = .run (some q))
      (hl : s.lock q = none) :
      Step s c ((s.setProc q fun x => { x with state := .runnable }).go p (.run none))
  | doze (p : Fin NPROC) (hc : s.ctx c = .thread p) (ht : s.thread p = .run none)
      (hlk : s.lk = .held c false) (hcond : cond p s.data = false) (hl : s.lock p = none) :
      Step s c ((s.setLock p (some c)).go p .dozing)
  | dropLk (p : Fin NPROC) (hc : s.ctx c = .thread p) (ht : s.thread p = .dozing) :
      Step s c ({ s with lk := .free }.go p .drowsy)
  | nod (p : Fin NPROC) (hc : s.ctx c = .thread p) (ht : s.thread p = .drowsy) :
      Step s c ((s.setProc p fun x => { x with chan := chan, state := .sleeping }).go p
        (.leaving .sleep))
  | acquire (hc : s.atEase c = true) (hlk : s.lk = .free) : Step s c { s with lk := .held c false }
  | change (d : D) (owes : Bool) (hc : s.atEase c = true) (hlk : s.lk = .held c owes) :
      Step s c { s with data := d, lk := .held c (owes || s.raises cond d) }
  | wakeupLk (owes : Bool) (hc : s.atEase c = true) (hlk : s.lk = .held c owes) :
      Step s c { s with lk := .waking c 0 }
  | wakeNext (n : Fin NPROC) (t : Kernel k D) (hc : s.atEase c = true) (hlk : s.lk = .waking c n)
      (ht : s.cproc c = some n ∧ t = s ∨
        s.lock n = none ∧ t = s.setProc n fun x => x.woken chan) :
      Step s c { t with lk := .waking c (n + 1) }
  | wakeLast (n : Nat) (hc : s.atEase c = true) (hlk : s.lk = .waking c n) (hn : NPROC ≤ n) :
      Step s c { s with lk := .held c false }
  | release (hc : s.atEase c = true) (hlk : s.lk = .held c false) : Step s c { s with lk := .free }

variable {chan cond} {s s' : Kernel k D} {c : Fin k} {p q : Fin NPROC}

theorem of_atEase (h : s.atEase c = true) :
    s.ctx c = .scan ∨ ∃ p child, s.ctx c = .thread p ∧ s.thread p = .run child := by
  unfold atEase at h
  split at h
  case h_1 hc => exact .inl hc
  case h_2 p hc =>
    split at h
    case h_1 child ht => exact .inr ⟨p, child, hc, ht⟩
    case h_2 => cases h
  case h_3 => cases h

theorem woken_lent (x : Proc) (ch : Chan) : Lent x (x.woken ch) := by
  unfold Proc.woken
  split
  case isTrue hx => exact .inr (.inl ⟨hx.1, rfl⟩)
  case isFalse => exact .inl ⟨rfl, rfl⟩

theorem hit_lent (x : Proc) : Lent x x.hit := by
  by_cases hx : x.state = .sleeping
  · exact .inr (.inl ⟨hx, if_pos hx⟩)
  · exact .inl ⟨if_neg hx, rfl⟩

theorem within_step {f : Proc → Proc} (hf : Lent (s.proc q) (f (s.proc q)))
    (hs : s.within q f = .ok s') : Step chan cond s c s' := by
  obtain ⟨hl, hs⟩ := guard_ok.mp hs
  cases hs
  exact .within q f hl hf

theorem wakeup_step {ch : Chan} (hs : s.wakeup c q ch = .ok s') : Step chan cond s c s' := by
  unfold wakeup at hs
  split at hs
  · cases hs
    exact .idle
  · exact within_step (woken_lent ..) hs

theorem pick_step (hs : s.pick c p = .ok s') : Step chan cond s c s' := by
  unfold pick at hs
  split at hs
  case h_2 => cases hs
  case h_1 w hc ht =>
  obtain ⟨hg, hs⟩ := guard_ok.mp hs
  cases hs
  exact .pick p w hc ht hg.1 hg.2.1 hg.2.2

theorem unpick_step (hs : s.unpick c = .ok s') : Step chan cond s c s' := by
  unfold unpick at hs
  split at hs
  case h_2 => cases hs
  case h_1 p hc =>
  cases hs
  exact .unpick p hc

theorem setProc_id (s : Kernel k D) (q : Fin NPROC) : s.setProc q id = s := by
  simp [setProc]

section
variable (hc : s.ctx c = .thread p)
include hc

theorem enter_step {w : Why} (ht : s.thread p = .entered w) (hs : s.enter p w = .ok s') :
    Step chan cond s c s' := by
  have hid {child : Option (Fin NPROC)} (hw : w ≠ .exit ∧ (child = none ∨ w = .yield child)) :
      Step chan cond s c ((s.setLock p none).go p (.run child)) := by
    have hstep : Step chan cond s c (((s.setProc p id).setLock p none).go p (.run child)) :=
      .enter p w child id hc ht hw rfl
    rwa [setProc_id] at hstep
  cases w with
  | exit => cases hs
  | forkret | yield child => cases hs; exact hid (by simp)
  | sleep => cases hs; exact .enter p .sleep none _ hc ht (by simp) rfl

theorem leave_step {w : Why} {child : Option (Fin NPROC)} {f : Proc → Proc}
    (ht : s.thread p = .run child)
    (hf : w = .yield child ∧ (f (s.proc p)).state = .runnable ∨
      w = .sleep ∧ (f (s.proc p)).state = .sleeping ∧ (f (s.proc p)).chan ≠ chan ∨
      w = .exit ∧ (f (s.proc p)).state = .zombie) (hs : s.leave c p w f = .ok s') :
    Step chan cond s c s' := by
  obtain ⟨hg, hs⟩ := guard_ok.mp hs
  cases hs
  exact .leave p w child f hc ht hg.1 hg.2 hf

theorem sched_step {w : Why} (ht : s.thread p = .leaving w) (hs : s.sched c p w = .ok s') :
    Step chan cond s c s' := by
  unfold sched at hs
  split at hs
  · cases hs
  split at hs
  · cases hs
  split at hs
  · cases hs
  cases hs
  exact .sched p w hc ht

theorem sleepOn_step {ch : Chan} (ht : s.thread p = .run none) (hs : s.sleepOn chan c p ch = .ok s')
    : Step chan cond s c s' := by
  obtain ⟨hch, hs⟩ := unless_ok.mp hs
  exact leave_step hc ht (.inr (.inl ⟨rfl, rfl, hch⟩)) hs

theorem alloc_step (ht : s.thread p = .run none) (hs : s.alloc c p q = .ok s') :
    Step chan cond s c s' := by
  obtain ⟨hg, hs⟩ := guard_ok.mp hs
  cases hs
  exact .alloc p q hc ht hg.1 hg.2.1 hg.2.2

theorem ready_step (ht : s.thread p = .run (some q)) (hs : s.ready p q = .ok s') :
    Step chan cond s c s' := by
  obtain ⟨hl, hs⟩ := guard_ok.mp hs
  cases hs
  exact .ready p q hc ht hl

end

theorem reap_step (hs : s.reap q = .ok s') : Step chan cond s c s' := by
  obtain ⟨hz, hs⟩ := guard_ok.mp hs
  exact within_step (.inr (.inr ⟨hz, rfl⟩)) hs

theorem doze_step (hc : s.ctx c = .thread p) (ht : s.thread p = .run none)
    (hs : s.doze cond c p = .ok s') : Step chan cond s c s' := by
  obtain ⟨hg, hs⟩ := guard_ok.mp hs
  cases hs
  exact .doze p hc ht hg.1 hg.2.1 hg.2.2

theorem threadAct_step {a : ThreadAct} (hc : s.ctx c = .thread p)
    (hs : s.threadAct chan cond c p a (s.thread p) = .ok s') : Step chan cond s c s' := by
  generalize ht : s.thread p = t at hs
  match a, t, hs with
  | .enter, .entered w, hs => exact enter_step hc ht hs
  | .yield, .run child, hs => exact leave_step hc ht (.inl ⟨rfl, rfl⟩) hs
  | .sleepOn ch, .run none, hs => exact sleepOn_step hc ht hs
  | .exit status, .run none, hs => exact leave_step hc ht (.inr (.inr ⟨rfl, rfl⟩)) hs
  | .sched, .leaving w, hs => exact sched_step hc ht hs
  | .setkilled, .run child, hs => exact within_step (.inl ⟨rfl, rfl⟩) hs
  | .alloc q, .run none, hs => exact alloc_step hc ht hs
  | .abandon, .setup q, hs =>
    cases hs
    exact .endSetup p q none _ hc ht (.inr ⟨rfl, rfl⟩)
  | .setUp, .setup q, hs =>
    cases hs
    have hstep : Step chan cond s c (((s.setProc q id).setLock q none).go p (.run (some q))) :=
      .endSetup p q (some q) id hc ht (.inl ⟨rfl, rfl⟩)
    rwa [setProc_id] at hstep
  | .ready, .run (some q), hs => exact ready_step hc ht hs
  | .reap q, .run none, hs => exact reap_step hs
  | .doze, .run none, hs => exact doze_step hc ht hs
  | .dropLk, .dozing, hs =>
    cases hs
    exact .dropLk p hc ht
  | .nod, .drowsy, hs =>
    cases hs
    exact .nod p hc ht

theorem wakeNext_step {next : Nat} (hc : s.atEase c = true) (hlk : s.lk = .waking c next)
    (hs : s.wakeNext chan c next = .ok s') : Step chan cond s c s' := by
  unfold wakeNext at hs
  split at hs
  case isFalse hn =>
    cases hs
    exact .wakeLast next hc hlk (not_lt.mp hn)
  case isTrue hn =>
  obtain ⟨t, ht, rfl⟩ := map_ok.mp hs
  unfold wakeup at ht
  split at ht
  case isTrue hq =>
    cases ht
    exact .wakeNext ⟨next, hn⟩ s hc hlk (.inl ⟨hq, rfl⟩)
  case isFalse =>
    obtain ⟨hl, ht⟩ := guard_ok.mp ht
    cases ht
    exact .wakeNext ⟨next, hn⟩ _ hc hlk (.inr ⟨hl, rfl⟩)

theorem lkAct_step {a : LkAct D} (hc : s.atEase c = true)
    (hs : s.lkAct chan cond c a s.lk = .ok s') : Step chan cond s c s' := by
  generalize hlk : s.lk = l at hs
  match a, l, hs with
  | .acquire, .free, hs =>
    cases hs
    exact .acquire hc hlk
  | .change d, .held c' owes, hs =>
    obtain ⟨he, hs⟩ := guard_ok.mp hs
    cases hs
    exact .change d owes hc (he ▸ hlk)
  | .wakeup, .held c' owes, hs =>
    obtain ⟨he, hs⟩ := guard_ok.mp hs
    cases hs
    exact .wakeupLk owes hc (he ▸ hlk)
  | .wakeNext, .waking c' next, hs =>
    obtain ⟨he, hs⟩ := guard_ok.mp hs
    exact wakeNext_step hc (he ▸ hlk) hs
  | .release, .held c' false, hs =>
    obtain ⟨he, hs⟩ := guard_ok.mp hs
    cases hs
    exact .release hc (he ▸ hlk)

theorem act_step {a : CpuAct D} (hs : s.act chan cond (c, a) = .ok s') :
    Step chan cond s c s' := by
  cases a with
  | pick p => exact pick_step hs
  | unpick => exact unpick_step hs
  | wakeup q ch =>
    simp only [act] at hs
    split at hs
    · exact wakeup_step hs
    · cases hs
  | kill q =>
    simp only [act] at hs
    split at hs
    · exact within_step (hit_lent _) hs
    · cases hs
  | lk a =>
    simp only [act] at hs
    split at hs
    case isTrue hc => exact lkAct_step hc hs
    case isFalse => cases hs
  | thread a =>
    simp only [act] at hs
    split at hs
    case h_1 p hc => exact threadAct_step hc hs
    case h_2 => cases hs

end Kernel

end Xv6Audit.Procs
