import Xv6Audit.File.Pipe

/-! Who sleeps in a pipe, and whether somebody still has to wake them. `killed` is now a flag of
the process, which `kill()` sets at any time. -/
namespace Xv6Audit.Pipes
open Function

/-- A pipe and the `killed` flags of its users. `fresh` is history: how many bytes the holder of
`pi->lock` has stored since it took the lock. -/
structure Users (n : Nat) where
  pipe : Pipe n
  killed : Fin n → Bool
  fresh : Nat

/-- As `PipeAct`, but what `killed` says is in the state. With `renew` a process that is not in
the pipe is another one. -/
inductive UserAct (n : Nat) where
  | pipewrite (p : Fin n) (count : Int)
  | piperead (p : Fin n) (count : Int)
  | write (p : Fin n) (ch : Option UInt8)
  | test (p : Fin n)
  | read (p : Fin n) (copied : Bool)
  | resume (p : Fin n)
  | kill (p : Fin n)
  | renew (p : Fin n)
  | close (writable : Bool)
deriving DecidableEq, Repr

namespace Users
variable {n : Nat}

def after (s : Users n) (t : Pipe n) : Users n :=
  { s with
    pipe := t
    fresh := if t.lock = none then 0 else s.fresh + (t.stored.length - s.pipe.stored.length) }

def onPipe (s : Users n) (a : PipeAct n) : Except Halt (Users n) := (s.pipe.act a).map s.after

def kill (s : Users n) (p : Fin n) : Users n :=
  { s with
    killed := update s.killed p true
    pipe := match s.pipe.place p with
      | .writeAsleep m i => s.pipe.move p (.writeWoken m i)
      | .readAsleep m => s.pipe.move p (.readWoken m)
      | _ => s.pipe }

def act (s : Users n) : UserAct n → Except Halt (Users n)
  | .pipewrite p m => s.onPipe (.pipewrite p m)
  | .piperead p m => s.onPipe (.piperead p m)
  | .write p ch => s.onPipe (.write p (s.killed p) ch)
  | .test p => s.onPipe (.test p (s.killed p))
  | .read p copied => s.onPipe (.read p copied)
  | .resume p => s.onPipe (.resume p)
  | .kill p => .ok (s.kill p)
  | .renew p =>
    match s.pipe.place p with
    | .outside _ => .ok { s with killed := update s.killed p false }
    | _ => .error .blocked
  | .close writable => s.onPipe (.close writable)

def alloc (n : Nat) (data : Nat → UInt8) : Users n := ⟨Pipe.alloc n data, fun _ => false, 0⟩

/-- `kill()` does not hit a process that has stored bytes and still holds `pi->lock`. -/
def Spares (s : Users n) : UserAct n → Prop
  | .kill p => s.pipe.lock = some p → s.fresh = 0
  | .pipewrite _ _ | .piperead _ _ | .write _ _ | .test _ | .read _ _ | .resume _ | .renew _
  | .close _ => True

instance (s : Users n) (a : UserAct n) : Decidable (s.Spares a) := by
  cases a <;> unfold Spares <;> infer_instance

end Users

def Place.busy : Place → Bool
  | .writing _ _ | .testing _ | .reading _ _ => true
  | .outside _ | .writeAsleep _ _ | .writeWoken _ _ | .readAsleep _ | .readWoken _ => false

namespace Users
variable {n : Nat}

def Empty (s : Users n) : Prop := s.pipe.ring.nread = s.pipe.ring.nwrite ∧ s.pipe.writeopen = true

def Full (s : Users n) : Prop :=
  s.pipe.ring.nwrite = s.pipe.ring.nread + BitVec.ofNat 32 PIPESIZE ∧ s.pipe.readopen = true

structure Roused (s : Users n) : Prop where
  owner : ∀ p, (s.pipe.place p).busy = true → s.pipe.lock = some p
  readers : ∀ q m, s.pipe.place q = .readAsleep m → s.Empty ∨ 0 < s.fresh
  writers : ∀ q m i, s.pipe.place q = .writeAsleep m i →
    s.Full ∨ ∃ p k j, s.pipe.place p = .reading k j
  fresh : 0 < s.fresh → ∃ p m i, s.pipe.place p = .writing m i ∧ s.pipe.readopen = true ∧
    s.killed p = false

section Roused
variable {s s' : Users n} {p : Fin n}

theorem Roused.alloc (n : Nat) (data : Nat → UInt8) : Roused (alloc n data) := by
  constructor <;> simp [Users.alloc, Pipe.alloc, Place.busy]

theorem Roused.only (h : Roused s) {q : Fin n} (hp : (s.pipe.place p).busy = true)
    (hq : (s.pipe.place q).busy = true) : q = p :=
  Option.some.inj ((h.owner q hq).symm.trans (h.owner p hp))

theorem Roused.idle (h : Roused s) (hl : s.pipe.lock = none) :
    (∀ q, (s.pipe.place q).busy = false) ∧ s.fresh = 0 := by
  have hq : ∀ q, (s.pipe.place q).busy = false := fun q => by
    cases hb : (s.pipe.place q).busy with
    | false => rfl
    | true =>
      rw [h.owner q hb] at hl
      cases hl
  refine ⟨hq, ?_⟩
  by_contra hf
  obtain ⟨p, m, i, hp, -⟩ := h.fresh (Nat.pos_of_ne_zero hf)
  have hb := hq p
  rw [hp] at hb
  cases hb

@[simp] theorem after_pipe (s : Users n) (t : Pipe n) : (s.after t).pipe = t := rfl

theorem after_fresh_none {t : Pipe n} (hl : t.lock = none) : (s.after t).fresh = 0 := if_pos hl

theorem after_fresh_same {t : Pipe n} (hl : t.lock ≠ none) (hst : t.stored = s.pipe.stored) :
    (s.after t).fresh = s.fresh := by
  simp [Users.after, hl, hst]

theorem move_self (t : Pipe n) (p : Fin n) (x : Place) : (t.move p x).place p = x :=
  update_self ..

theorem move_other (t : Pipe n) {p q : Fin n} (x : Place) (h : q ≠ p) :
    (t.move p x).place q = t.place q := update_of_ne h ..

theorem of_move {t : Pipe n} {q : Fin n} {x y : Place} (hne : x ≠ y)
    (h : (t.move p x).place q = y) : t.place q = y := by
  by_cases hqp : q = p
  · subst hqp
    exact absurd ((move_self t q x).symm.trans h) hne
  · rwa [move_other _ _ hqp] at h

theorem wakeReaders_place (t : Pipe n) (q : Fin n) :
    (∃ m, t.place q = .readAsleep m ∧ t.wakeReaders.place q = .readWoken m) ∨
      (∀ m, t.place q ≠ .readAsleep m) ∧ t.wakeReaders.place q = t.place q := by
  simp only [Pipe.wakeReaders]
  split
  · rename_i m hq
    exact .inl ⟨m, hq, rfl⟩
  · rename_i hq
    exact .inr ⟨hq, rfl⟩

theorem wakeWriters_place (t : Pipe n) (q : Fin n) :
    (∃ m i, t.place q = .writeAsleep m i ∧ t.wakeWriters.place q = .writeWoken m i) ∨
      (∀ m i, t.place q ≠ .writeAsleep m i) ∧ t.wakeWriters.place q = t.place q := by
  simp only [Pipe.wakeWriters]
  split
  · rename_i m i hq
    exact .inl ⟨m, i, hq, rfl⟩
  · rename_i hq
    exact .inr ⟨hq, rfl⟩

section
variable (h : Roused s)
include h

theorem Roused.release {t : Pipe n} (hp : (s.pipe.place p).busy = true) (hl : t.lock = none)
    (hpb : (t.place p).busy = false)
    (hother : ∀ q, q ≠ p → (t.place q).busy = true → (s.pipe.place q).busy = true)
    (hread : ∀ q m, t.place q = .readAsleep m → (s.after t).Empty)
    (hwrite : ∀ q m i, t.place q = .writeAsleep m i → (s.after t).Full) : Roused (s.after t) := by
  have hf := after_fresh_none (s := s) hl
  refine ⟨fun q hq => ?_, fun q m hq => .inl (hread q m hq), fun q m i hq => .inl (hwrite q m i hq),
    fun h0 => by omega⟩
  by_cases hqp : q = p
  · subst hqp
    rw [after_pipe, hpb] at hq
    cases hq
  · exact absurd (h.only hp (hother q hqp hq)) hqp

theorem Roused.enter {x : Place} (hl : s.pipe.lock = none) (hx : x.busy = true) :
    Roused (s.after { s.pipe.move p x with lock := some p }) := by
  obtain ⟨hidle, hf⟩ := h.idle hl
  have hfresh := after_fresh_same (s := s) (t := { s.pipe.move p x with lock := some p }) (by simp) rfl
  have hq' : ∀ q y, y.busy = false → (s.pipe.move p x).place q = y → s.pipe.place q = y := by
    intro q y hy hq
    refine of_move (fun he => ?_) hq
    rw [he, hy] at hx
    cases hx
  refine ⟨fun q hq => ?_, fun q m hq => .inl ?_, fun q m i hq => .inl ?_, fun h0 => by omega⟩
  · by_cases hqp : q = p
    · rw [hqp]
      rfl
    · have hb : ((s.pipe.move p x).place q).busy = true := hq
      rw [move_other _ _ hqp, hidle q] at hb
      cases hb
  · exact (h.readers q m (hq' q _ rfl hq)).resolve_right (by omega)
  · refine (h.writers q m i (hq' q _ rfl hq)).resolve_right ?_
    rintro ⟨r, k, j, hr⟩
    have hb := hidle r
    rw [hr] at hb
    cases hb

theorem Roused.write {m : Int} {i : Nat} (hp : s.pipe.place p = .writing m i) (ch : Option UInt8) :
    Roused (s.after (s.pipe.write p m i (s.killed p) ch)) := by
  have hbusy : (s.pipe.place p).busy = true := by rw [hp]; rfl
  have hlock := h.owner p hbusy
  -- no writer sleeps while a process is in `pipewrite` and the pipe is not full
  have hwriters : ∀ q m i, s.pipe.place q = .writeAsleep m i → s.Full := fun q m i hq =>
    (h.writers q m i hq).resolve_right fun ⟨r, k, j, hr⟩ => by
      have he := h.only hbusy (q := r) (by rw [hr]; rfl)
      rw [he, hp] at hr
      cases hr
  have hwake : ∀ x, x.busy = false → (∀ m, x ≠ .readAsleep m) →
      (∀ m i, x = .writeAsleep m i → s.Full) →
      Roused (s.after { s.pipe.wakeReaders.move p x with lock := none }) := by
    intro x hx hxr hxw
    refine h.release hbusy rfl ?_ (fun q hqp hq => ?_) (fun q k hq => ?_) fun q k j hq => ?_
    · exact (congrArg Place.busy (move_self _ p x)).trans hx
    · have hq : ((s.pipe.wakeReaders.move p x).place q).busy = true := hq
      rw [move_other _ _ hqp] at hq
      rcases wakeReaders_place s.pipe q with ⟨k, -, hk⟩ | ⟨-, hk⟩
      · rw [hk] at hq
        cases hq
      · rwa [hk] at hq
    · have hq : (s.pipe.wakeReaders.move p x).place q = .readAsleep k := hq
      by_cases hqp : q = p
      · rw [hqp, move_self] at hq
        exact absurd hq (hxr k)
      · rw [move_other _ _ hqp] at hq
        rcases wakeReaders_place s.pipe q with ⟨k', -, hk⟩ | ⟨hne, hk⟩
        · rw [hk] at hq
          cases hq
        · rw [hk] at hq
          exact absurd hq (hne k)
    · have hq : (s.pipe.wakeReaders.move p x).place q = .writeAsleep k j := hq
      by_cases hqp : q = p
      · rw [hqp, move_self] at hq
        exact hxw k j hq
      · rw [move_other _ _ hqp] at hq
        rcases wakeReaders_place s.pipe q with ⟨k', -, hk⟩ | ⟨-, hk⟩
        · rw [hk] at hq
          cases hq
        · rw [hk] at hq
          exact hwriters q k j hq
  unfold Pipe.write
  split
  · split
    · -- the early exit: it is taken before the first byte is stored
      rename_i hout
      have hf : s.fresh = 0 := by
        by_contra hf
        obtain ⟨r, k, j, hr, hopen, hk⟩ := h.fresh (Nat.pos_of_ne_zero hf)
        have hrp := h.only hbusy (q := r) (by rw [hr]; rfl)
        rw [hrp] at hk
        simp [hopen, hk] at hout
      refine h.release hbusy rfl ?_ (fun q hqp hq => ?_) (fun q k hq => ?_) fun q k j hq => ?_
      · exact congrArg Place.busy (move_self s.pipe p (.outside (-1)))
      · have hq : ((s.pipe.move p (.outside (-1))).place q).busy = true := hq
        rwa [move_other _ _ hqp] at hq
      · exact (h.readers q k (of_move (by simp) hq)).resolve_right (by omega)
      · exact hwriters q k j (of_move (by simp) hq)
    · rename_i hout
      split
      · rename_i hfull
        refine hwake (.writeAsleep m i) rfl (by simp) fun _ _ _ => ⟨hfull, ?_⟩
        simpa using fun hf => hout (.inl hf)
      · rename_i hfull
        cases ch with
        | none => exact hwake (.outside i) rfl (by simp) (by simp)
        | some c =>
          rw [not_or, Bool.not_eq_false, Bool.not_eq_true] at hout
          have hfresh : 0 < (s.after { s.pipe.move p (.writing m (i + 1)) with
              ring := s.pipe.ring.put PIPESIZE c, stored := s.pipe.stored ++ [c] }).fresh := by
            have hl : ¬ s.pipe.lock = none := by simp [hlock]
            simp [Users.after, Pipe.move, hl]
          refine ⟨fun q hq => ?_, fun _ _ _ => .inr hfresh, fun q k j hq => ?_, fun _ => ?_⟩
          · by_cases hqp : q = p
            · rw [hqp]
              exact hlock
            · have hq : ((s.pipe.move p (.writing m (i + 1))).place q).busy = true := hq
              rw [move_other _ _ hqp] at hq
              exact h.owner q hq
          · exact absurd (hwriters q k j (of_move (by simp) hq)).1 hfull
          · exact ⟨p, m, i + 1, move_self .., hout⟩
  · exact hwake (.outside i) rfl (by simp) (by simp)

theorem Roused.test {m : Int} (hp : s.pipe.place p = .testing m) (killed : Bool) :
    Roused (s.after (s.pipe.test p m killed)) := by
  have hbusy : (s.pipe.place p).busy = true := by rw [hp]; rfl
  have hlock := h.owner p hbusy
  have halone : ∀ r x, s.pipe.place r = x → x.busy = true → x = .testing m := fun r x hr hx => by
    have he := h.only hbusy (q := r) (by rw [hr]; exact hx)
    rw [← hr, he, hp]
  have hf : s.fresh = 0 := by
    by_contra hf
    obtain ⟨r, k, j, hr, -⟩ := h.fresh (Nat.pos_of_ne_zero hf)
    cases halone r _ hr rfl
  have hreaders : ∀ q m, s.pipe.place q = .readAsleep m → s.Empty := fun q m hq =>
    (h.readers q m hq).resolve_right (by omega)
  have hwriters : ∀ q m i, s.pipe.place q = .writeAsleep m i → s.Full := fun q m i hq =>
    (h.writers q m i hq).resolve_right fun ⟨r, k, j, hr⟩ => by cases halone r _ hr rfl
  unfold Pipe.test
  split
  · rename_i hempty
    have hleave : ∀ x, x.busy = false → (∀ k j, x ≠ .writeAsleep k j) →
        Roused (s.after { s.pipe.move p x with lock := none }) := by
      intro x hx hxw
      refine h.release hbusy rfl ?_ (fun q hqp hq => ?_) (fun _ _ _ => hempty) fun q k j hq => ?_
      · exact (congrArg Place.busy (move_self _ p x)).trans hx
      · have hq : ((s.pipe.move p x).place q).busy = true := hq
        rwa [move_other _ _ hqp] at hq
      · exact hwriters q k j (of_move (hxw k j) hq)
    split
    · exact hleave (.outside (-1)) rfl (by simp)
    · exact hleave (.readAsleep m) rfl (by simp)
  · have hfresh := after_fresh_same (s := s) (t := s.pipe.move p (.reading m 0))
      (by simp [Pipe.move, hlock]) rfl
    refine ⟨fun q hq => ?_, fun q k hq => .inl (hreaders q k (of_move (by simp) hq)),
      fun _ _ _ _ => .inr ⟨p, m, 0, move_self ..⟩, fun h0 => by omega⟩
    by_cases hqp : q = p
    · rw [hqp]
      exact hlock
    · have hq : ((s.pipe.move p (.reading m 0)).place q).busy = true := hq
      rw [move_other _ _ hqp] at hq
      exact h.owner q hq

theorem Roused.read {m : Int} {i : Nat} (hp : s.pipe.place p = .reading m i) (copied : Bool) :
    Roused (s.after (s.pipe.read p m i copied)) := by
  have hbusy : (s.pipe.place p).busy = true := by rw [hp]; rfl
  have hlock := h.owner p hbusy
  have hf : s.fresh = 0 := by
    by_contra hf
    obtain ⟨r, k, j, hr, -⟩ := h.fresh (Nat.pos_of_ne_zero hf)
    have he := h.only hbusy (q := r) (by rw [hr]; rfl)
    rw [he, hp] at hr
    cases hr
  have hreaders : ∀ q m, s.pipe.place q = .readAsleep m → s.Empty := fun q m hq =>
    (h.readers q m hq).resolve_right (by omega)
  -- on the way out all writers are woken; readers sleep only if the pipe is as it was
  have hleave : ∀ t : Pipe n, t.place = s.pipe.place →
      (∀ q k, s.pipe.place q = .readAsleep k →
        t.ring.nread = t.ring.nwrite ∧ t.writeopen = true) →
      Roused (s.after (t.wakeWriters.leave p i)) := by
    intro t ht hread
    refine h.release hbusy rfl ?_ (fun q hqp hq => ?_) (fun q k hq => ?_) fun q k j hq => ?_
    · exact congrArg Place.busy (move_self t.wakeWriters p (.outside i))
    · have hq : ((t.wakeWriters.move p (.outside i)).place q).busy = true := hq
      rw [move_other _ _ hqp] at hq
      rcases wakeWriters_place t q with ⟨k, j, -, hk⟩ | ⟨-, hk⟩
      · rw [hk] at hq
        cases hq
      · rwa [hk, ht] at hq
    · have hq : t.wakeWriters.place q = .readAsleep k := of_move (by simp) hq
      rcases wakeWriters_place t q with ⟨k', j, -, hk⟩ | ⟨-, hk⟩
      · rw [hk] at hq
        cases hq
      · rw [hk, ht] at hq
        exact hread q k hq
    · have hq : t.wakeWriters.place q = .writeAsleep k j := of_move (by simp) hq
      rcases wakeWriters_place t q with ⟨k', j', -, hk⟩ | ⟨hne, hk⟩
      · rw [hk] at hq
        cases hq
      · rw [hk] at hq
        exact absurd hq (hne k j)
  unfold Pipe.read
  split
  · rename_i hc
    have hnone : ∀ q k, s.pipe.place q ≠ .readAsleep k := fun q k hq => hc.2 (hreaders q k hq).1
    dsimp only
    split
    · have hfresh : (s.after (Pipe.move { s.pipe with
          ring := s.pipe.ring.drop
          taken := s.pipe.taken ++ [s.pipe.ring.front PIPESIZE] } p (.reading m (i + 1)))).fresh =
          s.fresh := after_fresh_same (by simp [Pipe.move, hlock]) rfl
      refine ⟨fun q hq => ?_, fun q k hq => ?_, fun _ _ _ _ => .inr ⟨p, m, i + 1, move_self ..⟩,
        fun h0 => absurd (lt_of_lt_of_eq h0 (hfresh.trans hf)) (lt_irrefl 0)⟩
      · by_cases hqp : q = p
        · rw [hqp]
          exact hlock
        · have hq : ((s.pipe.move p (.reading m (i + 1))).place q).busy = true := hq
          rw [move_other _ _ hqp] at hq
          exact h.owner q hq
      · exact absurd (of_move (t := s.pipe) (by simp) hq) (hnone q k)
    · exact hleave _ rfl fun q k hq => absurd hq (hnone q k)
  · exact hleave _ rfl hreaders

theorem Roused.close (hl : s.pipe.lock = none) (writable : Bool) :
    Roused (s.after (s.pipe.close writable)) := by
  obtain ⟨hidle, hf⟩ := h.idle hl
  have hwriters : ∀ q m i, s.pipe.place q = .writeAsleep m i → s.Full := fun q m i hq =>
    (h.writers q m i hq).resolve_right fun ⟨r, k, j, hr⟩ => by
      have hb := hidle r
      rw [hr] at hb
      cases hb
  unfold Pipe.close
  split
  · refine ⟨fun q hq => ?_, fun q k hq => ?_, fun q k j hq => ?_, fun h0 => ?_⟩
    · rcases wakeReaders_place { s.pipe with writeopen := false } q with ⟨k, -, hk⟩ | ⟨-, hk⟩
      · rw [after_pipe, hk] at hq
        cases hq
      · rw [after_pipe, hk] at hq
        exact h.owner q hq
    · rcases wakeReaders_place { s.pipe with writeopen := false } q with ⟨k', -, hk⟩ | ⟨hne, hk⟩
      · rw [after_pipe, hk] at hq
        cases hq
      · rw [after_pipe, hk] at hq
        exact absurd hq (hne k)
    · rcases wakeReaders_place { s.pipe with writeopen := false } q with ⟨k', -, hk⟩ | ⟨-, hk⟩
      · rw [after_pipe, hk] at hq
        cases hq
      · rw [after_pipe, hk] at hq
        exact .inl (hwriters q k j hq)
    · exact absurd (lt_of_lt_of_eq h0 (after_fresh_none hl)) (lt_irrefl 0)
  · refine ⟨fun q hq => ?_, fun q k hq => ?_, fun q k j hq => ?_, fun h0 => ?_⟩
    · rcases wakeWriters_place { s.pipe with readopen := false } q with ⟨k, j, -, hk⟩ | ⟨-, hk⟩
      · rw [after_pipe, hk] at hq
        cases hq
      · rw [after_pipe, hk] at hq
        exact h.owner q hq
    · rcases wakeWriters_place { s.pipe with readopen := false } q with ⟨k', j, -, hk⟩ | ⟨-, hk⟩
      · rw [after_pipe, hk] at hq
        cases hq
      · rw [after_pipe, hk] at hq
        exact .inl ((h.readers q k hq).resolve_right (by omega))
    · rcases wakeWriters_place { s.pipe with readopen := false } q with ⟨k', j', -, hk⟩ | ⟨hne, hk⟩
      · rw [after_pipe, hk] at hq
        cases hq
      · rw [after_pipe, hk] at hq
        exact absurd hq (hne k j)
    · exact absurd (lt_of_lt_of_eq h0 (after_fresh_none hl)) (lt_irrefl 0)

theorem Roused.kill (hf : s.pipe.lock = some p → s.fresh = 0) : Roused (s.kill p) := by
  have hplace : ∀ q, (s.kill p).pipe.place q = s.pipe.place q ∨
      (∃ m i, (s.kill p).pipe.place q = .writeWoken m i) ∨
      ∃ m, (s.kill p).pipe.place q = .readWoken m := by
    intro q
    unfold Users.kill
    dsimp only
    by_cases hqp : q = p
    · subst hqp
      split
      · exact .inr (.inl ⟨_, _, move_self ..⟩)
      · exact .inr (.inr ⟨_, move_self ..⟩)
      · exact .inl rfl
    · split
      · exact .inl (move_other _ _ hqp)
      · exact .inl (move_other _ _ hqp)
      · exact .inl rfl
  have hrest : (s.kill p).pipe.lock = s.pipe.lock ∧ (s.kill p).pipe.ring = s.pipe.ring ∧
      (s.kill p).pipe.readopen = s.pipe.readopen ∧ (s.kill p).pipe.writeopen = s.pipe.writeopen := by
    unfold Users.kill
    dsimp only
    split <;> exact ⟨rfl, rfl, rfl, rfl⟩
  -- a process that does something at the moment of `kill()` stays where it is
  have hbusy : ∀ q, (s.pipe.place q).busy = true → (s.kill p).pipe.place q = s.pipe.place q := by
    intro q hq
    unfold Users.kill
    dsimp only
    by_cases hqp : q = p
    · subst hqp
      split
      · rename_i hp
        rw [hp] at hq
        cases hq
      · rename_i hp
        rw [hp] at hq
        cases hq
      · rfl
    · split
      · exact move_other _ _ hqp
      · exact move_other _ _ hqp
      · rfl
  have hback : ∀ q x, (s.kill p).pipe.place q = x → (∀ m i, x ≠ .writeWoken m i) →
      (∀ m, x ≠ .readWoken m) → s.pipe.place q = x := by
    intro q x hq hw hr
    rcases hplace q with hk | ⟨m, i, hk⟩ | ⟨m, hk⟩
    · exact hk.symm.trans hq
    · exact absurd (hq.symm.trans hk) (hw m i)
    · exact absurd (hq.symm.trans hk) (hr m)
  refine ⟨fun q hq => ?_, fun q m hq => ?_, fun q m i hq => ?_, fun h0 => ?_⟩
  · rw [hrest.1]
    rcases hplace q with hk | ⟨m, i, hk⟩ | ⟨m, hk⟩
    · exact h.owner q (hk ▸ hq)
    · rw [hk] at hq
      cases hq
    · rw [hk] at hq
      cases hq
  · refine (h.readers q m (hback q _ hq (by simp) (by simp))).imp (fun he => ?_) id
    unfold Empty
    rw [hrest.2.1, hrest.2.2.2]
    exact he
  · refine (h.writers q m i (hback q _ hq (by simp) (by simp))).imp (fun he => ?_) ?_
    · unfold Full
      rw [hrest.2.1, hrest.2.2.1]
      exact he
    · rintro ⟨r, k, j, hr⟩
      exact ⟨r, k, j, (hbusy r (by rw [hr]; rfl)).trans hr⟩
  · obtain ⟨r, m, i, hr, hopen, hk⟩ := h.fresh h0
    have hown := h.owner r (by rw [hr]; rfl)
    have hrp : r ≠ p := by
      rintro rfl
      have hz := hf hown
      have h0 : 0 < s.fresh := h0
      omega
    refine ⟨r, m, i, (hbusy r (by rw [hr]; rfl)).trans hr, hrest.2.2.1.trans hopen, ?_⟩
    exact (update_of_ne hrp _ _).trans hk

end

theorem Roused.act (h : Roused s) {a : UserAct n} (hk : s.Spares a) (hs : s.act a = .ok s') :
    Roused s' := by
  cases a with
  | kill p =>
    cases hs
    exact h.kill hk
  | renew p =>
    simp only [Users.act] at hs
    split at hs
    case h_2 => cases hs
    rename_i ret hp
    cases hs
    refine ⟨h.owner, h.readers, h.writers, fun h0 => ?_⟩
    obtain ⟨r, m, i, hr, hopen, hk⟩ := h.fresh h0
    have hrp : r ≠ p := by
      rintro rfl
      rw [hp] at hr
      cases hr
    exact ⟨r, m, i, hr, hopen, (update_of_ne hrp _ _).trans hk⟩
  | pipewrite p m | piperead p m =>
    obtain ⟨t, ht, rfl⟩ := map_ok.mp hs
    obtain ⟨-, ht⟩ := unless_ok.mp ht
    dsimp only at ht
    split at ht
    case h_2 => cases ht
    rename_i hl
    cases ht
    exact h.enter hl rfl
  | write p ch =>
    obtain ⟨t, ht, rfl⟩ := map_ok.mp hs
    obtain ⟨-, ht⟩ := unless_ok.mp ht
    dsimp only at ht
    split at ht
    case h_2 => cases ht
    rename_i m i hp
    cases ht
    exact h.write hp ch
  | test p =>
    obtain ⟨t, ht, rfl⟩ := map_ok.mp hs
    obtain ⟨-, ht⟩ := unless_ok.mp ht
    dsimp only at ht
    split at ht
    case h_2 => cases ht
    rename_i m hp
    cases ht
    exact h.test hp _
  | read p copied =>
    obtain ⟨t, ht, rfl⟩ := map_ok.mp hs
    obtain ⟨-, ht⟩ := unless_ok.mp ht
    dsimp only at ht
    split at ht
    case h_2 => cases ht
    rename_i m i hp
    cases ht
    exact h.read hp _
  | resume p =>
    obtain ⟨t, ht, rfl⟩ := map_ok.mp hs
    obtain ⟨-, ht⟩ := unless_ok.mp ht
    dsimp only at ht
    split at ht
    case h_3 => cases ht
    all_goals
      rename_i hl
      cases ht
      exact h.enter hl rfl
  | close writable =>
    obtain ⟨t, ht, rfl⟩ := map_ok.mp hs
    obtain ⟨-, ht⟩ := unless_ok.mp ht
    dsimp only at ht
    split at ht
    case h_2 => cases ht
    rename_i hl
    cases ht
    exact h.close hl writable

end Roused

/-- If no `kill()` hits a process that has stored bytes and still holds `pi->lock`: whenever
`pi->lock` is free, who sleeps on `&pi->nread` sleeps at an empty pipe that can be written, and
who sleeps on `&pi->nwrite` at a full pipe that can be read. -/
theorem no_sleeper_left_behind (n : Nat) (data : Nat → UInt8) (acts : List (UserAct n))
    (s : Users n) (hal : Run.Along (Shared.step act) Spares (alloc n data) acts)
    (hrun : Run.exec (Shared.step act) (alloc n data) acts = some s)
    (hlock : s.pipe.lock = none) (q : Fin n) :
    (∀ m, s.pipe.place q = .readAsleep m →
      s.pipe.ring.nread = s.pipe.ring.nwrite ∧ s.pipe.writeopen = true) ∧
    ∀ m i, s.pipe.place q = .writeAsleep m i →
      s.pipe.ring.nwrite = s.pipe.ring.nread + BitVec.ofNat 32 PIPESIZE ∧
        s.pipe.readopen = true := by
  have h : Roused s := Run.exec_inv
    (fun hi hk hs => hi.act hk (Shared.step_eq_some.mp hs)) (Roused.alloc n data) hal hrun
  obtain ⟨hidle, hf⟩ := h.idle hlock
  refine ⟨fun m hq => (h.readers q m hq).resolve_right (by omega),
    fun m i hq => (h.writers q m i hq).resolve_right ?_⟩
  rintro ⟨r, k, j, hr⟩
  have hb := hidle r
  rw [hr] at hb
  cases hb

def killedAsleep {n : Nat} (p q : Fin n) : List (UserAct n) :=
  [.piperead q 5, .test q, .pipewrite p 2, .write p (some 7), .write p none, .resume q, .test q,
   .read q true, .read q true, .piperead q 5, .test q, .kill p]

theorem no_sleeper_left_behind_killedAsleep :
    ∃ s : Users 2, Run.exec (Shared.step act) (alloc 2 fun _ => 0) (killedAsleep 0 1) = some s ∧
      s.pipe.lock = none ∧ s.killed 0 = true ∧ s.pipe.place 1 = .readAsleep 5 ∧
      s.pipe.ring.nread = s.pipe.ring.nwrite ∧ s.pipe.writeopen = true := by
  have hrun : (Run.exec (Shared.step act) (alloc 2 fun _ => 0) (killedAsleep 0 1)).map
      (fun s => (s.pipe.lock, s.killed 0, s.pipe.place 1)) =
      some (none, true, .readAsleep 5) := by decide +kernel
  have hal : Run.Along (Shared.step act) Spares (alloc 2 fun _ => 0) (killedAsleep 0 1) := by
    decide +kernel
  obtain ⟨s, hs, hst⟩ := Option.map_eq_some_iff.mp hrun
  simp only [Prod.mk.injEq] at hst
  exact ⟨s, hs, hst.1, hst.2.1, hst.2.2,
    (no_sleeper_left_behind 2 _ _ s hal hs hst.1 1).1 5 hst.2.2⟩

def killedWriting {n : Nat} (p q : Fin n) : List (UserAct n) :=
  [.piperead q 5, .test q, .pipewrite p 2, .write p (some 7), .kill p, .write p (some 8)]

theorem reader_sleeps_at_byte :
    ∃ s : Users 2, Run.exec (Shared.step act) (alloc 2 fun _ => 0) (killedWriting 0 1) = some s ∧
      s.pipe.lock = none ∧ s.pipe.place 0 = .outside (-1) ∧ s.pipe.place 1 = .readAsleep 5 ∧
      s.pipe.ring.nread ≠ s.pipe.ring.nwrite := by
  have hrun : (Run.exec (Shared.step act) (alloc 2 fun _ => 0) (killedWriting 0 1)).map
      (fun s => (s.pipe.lock, s.pipe.place 0, s.pipe.place 1, s.pipe.ring.nread,
        s.pipe.ring.nwrite)) = some (none, .outside (-1), .readAsleep 5, 0, 1) := by decide +kernel
  obtain ⟨s, hs, hst⟩ := Option.map_eq_some_iff.mp hrun
  simp only [Prod.mk.injEq] at hst
  refine ⟨s, hs, hst.1, hst.2.1, hst.2.2.1, fun he => ?_⟩
  rw [hst.2.2.2.1, hst.2.2.2.2] at he
  exact absurd he (by decide)

end Users

end Xv6Audit.Pipes
