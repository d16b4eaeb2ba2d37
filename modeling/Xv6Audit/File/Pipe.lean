import Xv6Audit.Lib.Shared
import Xv6Audit.Lib.Ring

/-! Pipes (`kernel/pipe.c`) with several readers and writers. `pi->lock` is given up only in
`sleep` and at the end of a call, but the turns of the loops are steps of their own. -/
namespace Xv6Audit.Pipes

def PIPESIZE : Nat := 512

/-- Where a process is in `pipewrite` (`n` bytes wanted, `i` done) or `piperead`. Asleep it
waits for `&pi->nwrite` or `&pi->nread`, woken for `pi->lock`. -/
inductive Place where
  | outside (ret : Int)
  | writing (n : Int) (i : Nat)
  | writeAsleep (n : Int) (i : Nat)
  | writeWoken (n : Int) (i : Nat)
  | testing (n : Int)
  | readAsleep (n : Int)
  | readWoken (n : Int)
  | reading (n : Int) (i : Nat)
deriving DecidableEq, Repr

/-- `struct pipe` and its users. The last two fields are history: the bytes writers stored and
the bytes readers took, in order. -/
structure Pipe (n : Nat) where
  lock : Option (Fin n)
  ring : Ring UInt8 32
  readopen : Bool
  writeopen : Bool
  place : Fin n → Place
  stored : List UInt8
  taken : List UInt8

/-- What a process does next. What `killed` says and what `copyin` and `copyout` make of the
user's address is not decided here. -/
inductive PipeAct (n : Nat) where
  | pipewrite (p : Fin n) (count : Int)
  | piperead (p : Fin n) (count : Int)
  | write (p : Fin n) (killed : Bool) (ch : Option UInt8)
  | test (p : Fin n) (killed : Bool)
  | read (p : Fin n) (copied : Bool)
  | resume (p : Fin n)
  | kill (p : Fin n)
  | close (writable : Bool)
deriving DecidableEq, Repr

namespace Pipe
variable {n : Nat}

def move (s : Pipe n) (p : Fin n) (x : Place) : Pipe n :=
  { s with place := Function.update s.place p x }

def leave (s : Pipe n) (p : Fin n) (ret : Int) : Pipe n :=
  { s.move p (.outside ret) with lock := none }

def wakeReaders (s : Pipe n) : Pipe n :=
  { s with place := fun q =>
      match s.place q with
      | .readAsleep m => .readWoken m
      | x => x }

def wakeWriters (s : Pipe n) : Pipe n :=
  { s with place := fun q =>
      match s.place q with
      | .writeAsleep m i => .writeWoken m i
      | x => x }

def write (s : Pipe n) (p : Fin n) (m : Int) (i : Nat) (killed : Bool) (ch : Option UInt8) :
    Pipe n :=
  if i < m then
    if s.readopen = false ∨ killed then s.leave p (-1)
    else if s.ring.nwrite = s.ring.nread + BitVec.ofNat 32 PIPESIZE then
      { s.wakeReaders.move p (.writeAsleep m i) with lock := none }
    else
      match ch with
      | none => s.wakeReaders.leave p i
      | some c => { s.move p (.writing m (i + 1)) with
          ring := s.ring.put PIPESIZE c
          stored := s.stored ++ [c] }
  else s.wakeReaders.leave p i

def test (s : Pipe n) (p : Fin n) (m : Int) (killed : Bool) : Pipe n :=
  if s.ring.nread = s.ring.nwrite ∧ s.writeopen then
    if killed then s.leave p (-1)
    else { s.move p (.readAsleep m) with lock := none }
  else s.move p (.reading m 0)

def read (s : Pipe n) (p : Fin n) (m : Int) (i : Nat) (copied : Bool) : Pipe n :=
  if i < m ∧ s.ring.nread ≠ s.ring.nwrite then
    let t := { s with
      ring := s.ring.drop
      taken := s.taken ++ [s.ring.front PIPESIZE] }
    if copied then t.move p (.reading m (i + 1)) else t.wakeWriters.leave p i
  else s.wakeWriters.leave p i

def close (s : Pipe n) (writable : Bool) : Pipe n :=
  if writable then { s with writeopen := false }.wakeReaders
  else { s with readopen := false }.wakeWriters

def act (s : Pipe n) (a : PipeAct n) : Except Halt (Pipe n) :=
  if s.readopen = false ∧ s.writeopen = false then .error .blocked
  else match a with
  | .pipewrite p m =>
    match s.place p, s.lock with
    | .outside _, none => .ok { s.move p (.writing m 0) with lock := some p }
    | _, _ => .error .blocked
  | .piperead p m =>
    match s.place p, s.lock with
    | .outside _, none => .ok { s.move p (.testing m) with lock := some p }
    | _, _ => .error .blocked
  | .write p killed ch =>
    match s.place p with
    | .writing m i => .ok (s.write p m i killed ch)
    | _ => .error .blocked
  | .test p killed =>
    match s.place p with
    | .testing m => .ok (s.test p m killed)
    | _ => .error .blocked
  | .read p copied =>
    match s.place p with
    | .reading m i => .ok (s.read p m i copied)
    | _ => .error .blocked
  | .resume p =>
    match s.place p, s.lock with
    | .writeWoken m i, none => .ok { s.move p (.writing m i) with lock := some p }
    | .readWoken m, none => .ok { s.move p (.testing m) with lock := some p }
    | _, _ => .error .blocked
  | .kill p =>
    match s.place p with
    | .writeAsleep m i => .ok (s.move p (.writeWoken m i))
    | .readAsleep m => .ok (s.move p (.readWoken m))
    | _ => .error .blocked
  | .close writable =>
    match s.lock with
    | none => .ok (s.close writable)
    | some _ => .error .blocked

def alloc (n : Nat) (data : Nat → UInt8) : Pipe n where
  lock := none
  ring := ⟨data, 0, 0⟩
  readopen := true
  writeopen := true
  place := fun _ => .outside 0
  stored := []
  taken := []

/-! First in, first out. -/

structure Fifo (s : Pipe n) : Prop where
  nwrite : s.ring.nwrite = BitVec.ofNat 32 s.stored.length
  nread : s.ring.nread = BitVec.ofNat 32 s.taken.length
  bound : s.ring.used ≤ PIPESIZE
  order : s.taken ++ s.ring.contents PIPESIZE = s.stored

section Fifo
variable {s : Pipe n} {p : Fin n}

theorem alloc_fifo (n : Nat) (data : Nat → UInt8) : Fifo (alloc n data) := by
  have hused : (alloc n data).ring.used = 0 := Ring.used_eq_zero_iff.mpr rfl
  refine ⟨rfl, rfl, by rw [hused]; exact Nat.zero_le _, ?_⟩
  unfold Ring.contents
  rw [hused]
  rfl

theorem Fifo.of_eq (h : Fifo s) {t : Pipe n} (hr : t.ring = s.ring) (hs : t.stored = s.stored)
    (ht : t.taken = s.taken) : Fifo t :=
  ⟨by rw [hr, hs]; exact h.nwrite, by rw [hr, ht]; exact h.nread, by rw [hr]; exact h.bound,
    by rw [hr, hs, ht]; exact h.order⟩

theorem Fifo.write (h : Fifo s) (m : Int) (i : Nat) (killed : Bool) (ch : Option UInt8) :
    Fifo (s.write p m i killed ch) := by
  unfold Pipe.write
  split
  · split
    · exact h.of_eq rfl rfl rfl
    · split
      · exact h.of_eq rfl rfl rfl
      · rename_i hfull
        cases ch with
        | none => exact h.of_eq rfl rfl rfl
        | some c =>
          have hne : s.ring.used ≠ PIPESIZE := fun hu =>
            hfull ((Ring.used_eq_size_iff (by decide)).mp hu)
          have hroom : s.ring.used < PIPESIZE := Nat.lt_of_le_of_ne h.bound hne
          obtain ⟨hused, hcont⟩ := Ring.contents_put (by decide) (by decide) hroom c
          refine ⟨?_, h.nread, ?_, ?_⟩
          · change s.ring.nwrite + 1 = _
            rw [h.nwrite, List.length_append, BitVec.ofNat_add]
            rfl
          · change (s.ring.put PIPESIZE c).used ≤ PIPESIZE
            omega
          · change s.taken ++ (s.ring.put PIPESIZE c).contents PIPESIZE = s.stored ++ [c]
            rw [hcont, ← List.append_assoc, h.order]
  · exact h.of_eq rfl rfl rfl

theorem Fifo.test (h : Fifo s) (m : Int) (killed : Bool) : Fifo (s.test p m killed) := by
  unfold Pipe.test
  split
  · split
    · exact h.of_eq rfl rfl rfl
    · exact h.of_eq rfl rfl rfl
  · exact h.of_eq rfl rfl rfl

theorem Fifo.read (h : Fifo s) (m : Int) (i : Nat) (copied : Bool) :
    Fifo (s.read p m i copied) := by
  unfold Pipe.read
  split
  · rename_i hc
    have htake : Fifo { s with
        ring := s.ring.drop, taken := s.taken ++ [s.ring.front PIPESIZE] } := by
      obtain ⟨hused, hcont⟩ : s.ring.used = s.ring.drop.used + 1 ∧ s.ring.contents PIPESIZE = _ :=
        Ring.contents_drop (by decide) (by decide) (by decide) hc.2
      refine ⟨h.nwrite, ?_, ?_, ?_⟩
      · change s.ring.nread + 1 = _
        rw [h.nread, List.length_append, BitVec.ofNat_add]
        rfl
      · have := h.bound
        change s.ring.drop.used ≤ PIPESIZE
        omega
      · change (s.taken ++ [s.ring.front PIPESIZE]) ++ s.ring.drop.contents PIPESIZE = s.stored
        rw [List.append_assoc, List.singleton_append, ← hcont, h.order]
    dsimp only
    split
    · exact htake.of_eq rfl rfl rfl
    · exact htake.of_eq rfl rfl rfl
  · exact h.of_eq rfl rfl rfl

theorem Fifo.act (h : Fifo s) {a : PipeAct n} {s' : Pipe n} (hs : s.act a = .ok s') :
    Fifo s' := by
  unfold Pipe.act at hs
  split at hs
  · cases hs
  · cases a with
    | write p killed ch =>
      dsimp only at hs
      split at hs
      · cases hs
        exact h.write _ _ _ _
      · cases hs
    | test p killed =>
      dsimp only at hs
      split at hs
      · cases hs
        exact h.test _ _
      · cases hs
    | read p copied =>
      dsimp only at hs
      split at hs
      · cases hs
        exact h.read _ _ _
      · cases hs
    | close writable =>
      dsimp only at hs
      split at hs
      · cases hs
        unfold Pipe.close
        split
        · exact h.of_eq rfl rfl rfl
        · exact h.of_eq rfl rfl rfl
      · cases hs
    | pipewrite p m | piperead p m | resume p | kill p =>
      dsimp only at hs
      split at hs
      all_goals
        cases hs
        try exact h.of_eq rfl rfl rfl

end Fifo

/-- In every interleaving of readers and writers: the counters are the numbers of bytes stored
and taken, modulo `2^32`; at most `PIPESIZE` bytes lie between them; these are the bytes stored
and not yet taken, in order; and the bytes taken are the first ones stored. -/
theorem pipe_is_fifo (n : Nat) (data : Nat → UInt8) (s : Pipe n)
    (h : Shared.Reaches Pipe.act (alloc n data) s) :
    s.ring.nwrite = BitVec.ofNat 32 s.stored.length ∧
    s.ring.nread = BitVec.ofNat 32 s.taken.length ∧
    (s.ring.nwrite - s.ring.nread).toNat ≤ PIPESIZE ∧
    s.taken ++ s.ring.contents PIPESIZE = s.stored ∧ s.taken <+: s.stored := by
  have hf : Fifo s := h.inv (alloc_fifo n data) fun hi hs => hi.act hs
  exact ⟨hf.nwrite, hf.nread, hf.bound, hf.order, _, hf.order⟩

def threeBytes : List (PipeAct 2) :=
  [.piperead 1 2, .test 1 false, .pipewrite 0 3, .write 0 false (some 7), .write 0 false (some 8),
   .write 0 false (some 9), .write 0 false none, .resume 1, .test 1 false, .read 1 true,
   .read 1 false]

theorem pipe_is_fifo_threeBytes : ∃ s : Pipe 2,
    Shared.Reaches Pipe.act (alloc 2 fun _ => 0) s ∧ s.place 0 = .outside 3 ∧
    s.place 1 = .outside 1 ∧ s.stored = [7, 8, 9] ∧ s.taken = [7, 8] ∧
    (s.ring.nwrite - s.ring.nread).toNat ≤ PIPESIZE ∧
    s.taken ++ s.ring.contents PIPESIZE = s.stored := by
  have hrun : (Run.exec (Shared.step Pipe.act) (alloc 2 fun _ => 0) threeBytes).map (fun s =>
      (s.place 0, s.place 1, s.stored, s.taken)) =
      some (.outside 3, .outside 1, [7, 8, 9], [7, 8]) := by decide +kernel
  obtain ⟨s, hs, hst⟩ := Option.map_eq_some_iff.mp hrun
  simp only [Prod.mk.injEq] at hst
  have hall := pipe_is_fifo 2 _ s ⟨_, hs⟩
  exact ⟨s, ⟨_, hs⟩, hst.1, hst.2.1, hst.2.2.1, hst.2.2.2, hall.2.2.1, hall.2.2.2.1⟩

end Pipe

end Xv6Audit.Pipes
