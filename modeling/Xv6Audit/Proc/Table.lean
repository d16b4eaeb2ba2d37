import Xv6Audit.Param
import Xv6Audit.Lib.Shared

/-! The process table of `kernel/proc.c`: what its critical sections do to one slot, and the
calls that work on the whole table. -/
namespace Xv6Audit.Procs
open Function

inductive ProcState where
  | unused
  | used
  | sleeping
  | runnable
  | running
  | zombie
deriving DecidableEq, Repr

inductive Chan where
  | null
  | slot (p : Fin NPROC)
  | other (a : Nat)
deriving DecidableEq, Repr

structure Proc where
  state : ProcState
  chan : Chan
  killed : Bool
  xstate : BitVec 32
  pid : BitVec 32
  parent : Option (Fin NPROC)
deriving DecidableEq, Repr

namespace Proc

def zero : Proc := ⟨.unused, .null, false, 0, 0, none⟩

def found (p : Proc) (pid : BitVec 32) : Proc := { p with pid := pid, state := .used }

def freeproc (p : Proc) : Proc :=
  { p with pid := 0, parent := none, chan := .null, killed := false, xstate := 0, state := .unused }

def woken (p : Proc) (chan : Chan) : Proc :=
  if p.state = .sleeping ∧ p.chan = chan then { p with state := .runnable } else p

def hit (p : Proc) : Proc :=
  { p with killed := true, state := if p.state = .sleeping then .runnable else p.state }

end Proc

structure Table where
  proc : Fin NPROC → Proc
  nextpid : BitVec 32
  initproc : Fin NPROC

namespace Table

def upd (t : Table) (q : Fin NPROC) (f : Proc → Proc) : Table :=
  { t with proc := update t.proc q (f (t.proc q)) }

def take (t : Table) (q : Fin NPROC) : Table :=
  { t.upd q (fun p => p.found t.nextpid) with nextpid := t.nextpid + 1 }

def allocproc (t : Table) (memory : Bool) : Option (Fin NPROC) × Table :=
  match (List.finRange NPROC).find? fun q => (t.proc q).state = .unused with
  | none => (none, t)
  | some q => if memory then (some q, t.take q) else (none, (t.take q).upd q Proc.freeproc)

def fork (t : Table) (p : Fin NPROC) (memory copied : Bool) : BitVec 32 × Table :=
  match t.allocproc memory with
  | (none, t') => (-1, t')
  | (some np, t') =>
    if copied then
      ((t'.proc np).pid, (t'.upd np fun x => { x with parent := some p }).upd np fun x =>
        { x with state := .runnable })
    else (-1, t'.upd np Proc.freeproc)

def wakeup (t : Table) (me : Fin NPROC) (chan : Chan) : Table :=
  { t with proc := fun q => if q = me then t.proc q else (t.proc q).woken chan }

def reparentOne (p : Fin NPROC) (t : Table) (pp : Fin NPROC) : Table :=
  if (t.proc pp).parent = some p then
    (t.upd pp fun x => { x with parent := some t.initproc }).wakeup p (.slot t.initproc)
  else t

def reparent (t : Table) (p : Fin NPROC) : Table := (List.finRange NPROC).foldl (reparentOne p) t

def parentChan (t : Table) (p : Fin NPROC) : Chan :=
  match (t.proc p).parent with
  | some q => .slot q
  | none => .null

def exit (t : Table) (p : Fin NPROC) (status : BitVec 32) : Except Halt Table :=
  if p = t.initproc then .error (.panic "init exiting")
  else
    let t := t.reparent p
    let t := t.wakeup p (t.parentChan p)
    .ok (t.upd p fun x => { x with xstate := status, state := .zombie })

def wait (t : Table) (p : Fin NPROC) (copied : Bool) : BitVec 32 × Table :=
  match (List.finRange NPROC).find? fun q =>
      (t.proc q).parent = some p ∧ (t.proc q).state = .zombie with
  | some q => if copied then ((t.proc q).pid, t.upd q Proc.freeproc) else (-1, t)
  | none =>
    if (∀ q, (t.proc q).parent ≠ some p) ∨ (t.proc p).killed then (-1, t)
    else (0, t.upd p fun x => { x with chan := .slot p, state := .sleeping })

def kill (t : Table) (pid : BitVec 32) : BitVec 32 × Table :=
  match (List.finRange NPROC).find? fun q => (t.proc q).pid = pid with
  | some q => (0, t.upd q Proc.hit)
  | none => (-1, t)

def setkilled (t : Table) (q : Fin NPROC) : Table := t.upd q fun x => { x with killed := true }

def boot : Table where
  proc := update (fun _ => Proc.zero) 0 { Proc.zero with state := .runnable, pid := 1 }
  nextpid := 2
  initproc := 0

/-! What a slot is afterwards. -/

theorem upd_self (t : Table) (q : Fin NPROC) (f : Proc → Proc) :
    (t.upd q f).proc q = f (t.proc q) := update_self ..

theorem upd_other (t : Table) {q r : Fin NPROC} (f : Proc → Proc) (h : r ≠ q) :
    (t.upd q f).proc r = t.proc r := update_of_ne h _ _

theorem take_self (t : Table) (q : Fin NPROC) :
    (t.take q).proc q = (t.proc q).found t.nextpid := update_self ..

theorem take_other (t : Table) {q r : Fin NPROC} (h : r ≠ q) : (t.take q).proc r = t.proc r :=
  update_of_ne h _ _

theorem allocproc_cases (t : Table) (memory : Bool) :
    t.allocproc memory = (none, t) ∨ ∃ q, (t.proc q).state = .unused ∧
      (t.allocproc memory = (some q, t.take q) ∨
        t.allocproc memory = (none, (t.take q).upd q Proc.freeproc)) := by
  unfold allocproc
  cases hf : (List.finRange NPROC).find? fun q => (t.proc q).state = .unused with
  | none => exact .inl rfl
  | some q =>
    have hu : (t.proc q).state = .unused := by simpa using List.find?_some hf
    cases memory with
    | true => exact .inr ⟨q, hu, .inl rfl⟩
    | false => exact .inr ⟨q, hu, .inr rfl⟩

end Table

end Xv6Audit.Procs
