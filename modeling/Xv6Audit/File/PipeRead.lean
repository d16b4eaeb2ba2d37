import Xv6Audit.File.Pipe
import Xv6Audit.Vm.Copy

/-! `piperead` with the reader's address space (`kernel/pipe.c`, `copyout` of `kernel/vm.c`):
what is taken from the pipe against what arrives. -/
namespace Xv6Audit.Pipes
open Function

open Vm

structure Reading where
  ring : Ring UInt8 32
  user : User

def copyBytes (addr : UInt64) : Nat → Nat → Reading → Nat × Reading
  | 0, i, s => (i, s)
  | k+1, i, s =>
    if s.ring.nread = s.ring.nwrite then (i, s)
    else
      let ch := s.ring.front PIPESIZE
      let ring := s.ring.drop
      match s.user.copyout (addr + UInt64.ofNat i) [ch] with
      | (false, user) => (i, ⟨ring, user⟩)
      | (true, user) => copyBytes addr k (i+1) ⟨ring, user⟩

def piperead (writeopen killed : Bool) (s : Reading) (addr : UInt64) (n : Int) :
    Option Int × Reading :=
  if s.ring.nread = s.ring.nwrite ∧ writeopen then
    if killed then (some (-1), s) else (none, s)
  else
    let r := copyBytes addr n.toNat 0 s
    (some r.1, r.2)

/-- If `i` bytes are reported, `nread` has moved by `i` and the bytes at `addr` are the next `i`
of the pipe. -/
def Exact (addr : UInt64) (s : Reading) (r : Option Int × Reading) : Prop :=
  ∀ i : Nat, r.1 = some (i : Int) →
    r.2.ring.nread = s.ring.nread + BitVec.ofNat 32 i ∧
      (List.range i).map (fun j => r.2.user.byte (addr + UInt64.ofNat j)) =
        ((s.ring.contents PIPESIZE).take i).map some

section CopyBytes
variable {addr : UInt64}

theorem drop_contents {r : Ring UInt8 32} (h : r.nread ≠ r.nwrite) :
    r.used = r.drop.used + 1 ∧
      r.contents PIPESIZE = r.front PIPESIZE :: r.drop.contents PIPESIZE :=
  Ring.contents_drop (by decide) (by decide) (by decide) h

theorem used_lt (r : Ring UInt8 32) : r.used < 2 ^ 32 := (r.nwrite - r.nread).isLt

theorem address_ne {i j : Nat} (hij : i ≠ j) (hi : i < 2 ^ 64) (hj : j < 2 ^ 64) :
    addr + UInt64.ofNat i ≠ addr + UInt64.ofNat j := by
  intro h
  have hnat := congrArg UInt64.toNat ((UInt64.add_right_inj addr).mp h)
  rw [UInt64.toNat_ofNat_of_lt' (by simpa using hi), UInt64.toNat_ofNat_of_lt' (by simpa using hj)]
    at hnat
  exact hij hnat

theorem counter_succ (c : BitVec 32) (m : Nat) :
    c + 1 + BitVec.ofNat 32 m = c + BitVec.ofNat 32 (m + 1) := by
  rw [BitVec.add_assoc, Nat.add_comm m 1, BitVec.ofNat_add]
  rfl

/-- Every byte that is there to be read has a page to go to. The loop then reports what it has
taken, and has stored it; nothing else of the user's changes. -/
theorem copyBytes_mapped (k i : Nat) (s : Reading) (hroom : i + s.ring.used < 2 ^ 64)
    (hmap : ∀ j, j < k → j < s.ring.used → s.user.Mapped (addr + UInt64.ofNat (i + j))) :
    ∃ m, m = min k s.ring.used ∧ (copyBytes addr k i s).1 = i + m ∧
      (copyBytes addr k i s).2.ring.nread = s.ring.nread + BitVec.ofNat 32 m ∧
      (∀ j, j < m → (copyBytes addr k i s).2.user.byte (addr + UInt64.ofNat (i + j)) =
        (s.ring.contents PIPESIZE)[j]?) ∧
      ∀ j, j < i → (copyBytes addr k i s).2.user.byte (addr + UInt64.ofNat j) =
        s.user.byte (addr + UInt64.ofNat j) := by
  induction k generalizing i s with
  | zero => exact ⟨0, by simp, rfl, by simp [copyBytes], fun j hj => by omega, fun _ _ => rfl⟩
  | succ k ih =>
    unfold copyBytes
    by_cases he : s.ring.nread = s.ring.nwrite
    · have hz : s.ring.used = 0 := Ring.used_eq_zero_iff.mpr he
      rw [if_pos he]
      exact ⟨0, by omega, rfl, by simp, fun j hj => by omega, fun _ _ => rfl⟩
    · obtain ⟨hused, hcont⟩ := drop_contents he
      have hm0 := hmap 0 (by omega) (by omega)
      rw [Nat.add_zero] at hm0
      obtain ⟨pa, hpa⟩ := Option.isSome_iff_exists.mp hm0
      have hloc : s.user.locate (addr + UInt64.ofNat i) = some
          (pa + (addr + UInt64.ofNat i - pgRoundDown (addr + UInt64.ofNat i)).toNat) := by
        rw [User.locate, hpa]
        rfl
      rw [if_neg he]
      simp only [User.copyout_one, hloc]
      obtain ⟨m, hm, hcount, hread, hbytes, hframe⟩ := ih (i + 1)
        ⟨s.ring.drop, s.user.store _ [s.ring.front PIPESIZE]⟩ (by simp only; omega) (fun j hj hju => by
          have := hmap (j + 1) (by omega) (by simp only at hju; omega)
          rwa [show i + (j + 1) = i + 1 + j by omega] at this)
      simp only at hm
      refine ⟨m + 1, by omega, by rw [hcount]; omega, ?_, ?_, ?_⟩
      · rw [hread]
        exact counter_succ s.ring.nread m
      · intro j hj
        rw [hcont]
        cases j with
        | zero =>
          have hlast := hframe i (by omega)
          rw [User.byte_store_self hloc] at hlast
          exact hlast
        | succ j =>
          rw [show i + (j + 1) = i + 1 + j by omega, hbytes j (by omega)]
          rfl
      · intro j hj
        rw [hframe j (by omega)]
        exact User.byte_store_other hloc (address_ne (by omega) (by omega) (by omega)) _

theorem copyBytes_unmapped (k i : Nat) (s : Reading)
    (hbad : ∃ j, j < k ∧ j < s.ring.used ∧ ¬ s.user.Mapped (addr + UInt64.ofNat (i + j))) :
    ∃ m, (copyBytes addr k i s).1 = i + m ∧
      (copyBytes addr k i s).2.ring.nread = s.ring.nread + BitVec.ofNat 32 (m + 1) := by
  induction k generalizing i s with
  | zero =>
    obtain ⟨j, hj, -⟩ := hbad
    omega
  | succ k ih =>
    obtain ⟨j, hjk, hju, hj⟩ := hbad
    have he : s.ring.nread ≠ s.ring.nwrite := fun he => by
      rw [Ring.used_eq_zero_iff.mpr he] at hju
      omega
    obtain ⟨hused, -⟩ := drop_contents he
    unfold copyBytes
    rw [if_neg he]
    simp only [User.copyout_one]
    cases hloc : s.user.locate (addr + UInt64.ofNat i) with
    | none => exact ⟨0, rfl, rfl⟩
    | some a =>
      have hj0 : j ≠ 0 := by
        rintro rfl
        apply hj
        obtain ⟨pa, hpa, -⟩ := Option.map_eq_some_iff.mp hloc
        rw [Nat.add_zero, User.Mapped, hpa]
        rfl
      obtain ⟨m, hcount, hread⟩ := ih (i + 1) ⟨s.ring.drop, s.user.store a [s.ring.front PIPESIZE]⟩
        ⟨j - 1, by omega, by simp only; omega, by rwa [show i + 1 + (j - 1) = i + j by omega]⟩
      refine ⟨m + 1, by rw [hcount]; omega, ?_⟩
      rw [hread]
      exact counter_succ s.ring.nread (m + 1)

end CopyBytes

/-! The loops are steps of the machine with several readers and writers. -/

section Machine
variable {n : Nat} {s t : Pipe n} {p : Fin n} {m : Int} {addr : UInt64}

def Pipe.Reads (p : Fin n) (s t : Pipe n) : Prop :=
  ∃ as, (∀ a ∈ as, ∃ copied, a = PipeAct.read p copied) ∧
    Run.exec (Shared.step Pipe.act) s as = some t

theorem Pipe.Reads.head {i : Nat} (copied : Bool)
    (hopen : ¬ (s.readopen = false ∧ s.writeopen = false)) (hp : s.place p = .reading m i)
    (h : Reads p (s.read p m i copied) t) : Reads p s t := by
  obtain ⟨as, hall, hrun⟩ := h
  have hact : s.act (.read p copied) = .ok (s.read p m i copied) := by
    simp [Pipe.act, hopen, hp]
  refine ⟨.read p copied :: as, ?_, ?_⟩
  · rintro a ha
    rcases List.mem_cons.mp ha with rfl | ha
    · exact ⟨copied, rfl⟩
    · exact hall a ha
  · simp only [Run.exec, Shared.step_eq_some.mpr hact, Option.bind_some, hrun]

theorem Pipe.Reads.last {i : Nat} (hopen : ¬ (s.readopen = false ∧ s.writeopen = false))
    (hp : s.place p = .reading m i) (hover : ¬ ((i : Int) < m ∧ s.ring.nread ≠ s.ring.nwrite)) :
    ∃ t, Pipe.Reads p s t ∧ t.ring = s.ring ∧ t.place p = .outside i := by
  have hread : s.read p m i true = s.wakeWriters.leave p i := if_neg hover
  refine ⟨_, .head true hopen hp ⟨[], by simp, rfl⟩, ?_, ?_⟩
  · rw [hread]
    rfl
  · rw [hread]
    exact update_self ..

theorem Pipe.copies_as {i k : Nat} {u : User}
    (hopen : ¬ (s.readopen = false ∧ s.writeopen = false)) (hp : s.place p = .reading m i)
    (hk : k = (m - i).toNat) :
    ∃ t, Pipe.Reads p s t ∧ t.ring = (copyBytes addr k i ⟨s.ring, u⟩).2.ring ∧
      t.place p = .outside (copyBytes addr k i ⟨s.ring, u⟩).1 := by
  induction k generalizing i s u with
  | zero =>
    have hover : ¬ ((i : Int) < m ∧ s.ring.nread ≠ s.ring.nwrite) := fun h => by omega
    exact Pipe.Reads.last hopen hp hover
  | succ k ih =>
    unfold copyBytes
    by_cases he : s.ring.nread = s.ring.nwrite
    · rw [if_pos he]
      exact Pipe.Reads.last hopen hp fun h => h.2 he
    · have hturn : (i : Int) < m ∧ s.ring.nread ≠ s.ring.nwrite := ⟨by omega, he⟩
      rw [if_neg he]
      simp only
      split
      · refine ⟨_, .head false hopen hp ⟨[], by simp, rfl⟩, ?_, ?_⟩
        · rw [Pipe.read, if_pos hturn]
          rfl
        · rw [Pipe.read, if_pos hturn]
          exact update_self ..
      · rename_i user _
        have hread : s.read p m i true = { s with
            ring := s.ring.drop
            taken := s.taken ++ [s.ring.front PIPESIZE] }.move p (.reading m (i + 1)) :=
          (if_pos hturn).trans (if_pos rfl)
        obtain ⟨t, ht, hring, hplace⟩ := ih (s := s.read p m i true) (i := i + 1) (u := user)
          (by rw [hread]; exact hopen) (by rw [hread]; exact update_self ..) (by omega)
        rw [show (s.read p m i true).ring = s.ring.drop by rw [hread]; rfl] at hring hplace
        exact ⟨t, .head true hopen hp ht, hring, hplace⟩

/-- A call that has the lock does in the machine what `piperead` does here. -/
theorem Pipe.reads_as {u : User} (killed : Bool)
    (hopen : ¬ (s.readopen = false ∧ s.writeopen = false)) (hp : s.place p = .testing m) :
    s.act (.test p killed) = .ok (s.test p m killed) ∧ ∃ t, Pipe.Reads p (s.test p m killed) t ∧
      t.ring = (piperead s.writeopen killed ⟨s.ring, u⟩ addr m).2.ring ∧
      t.place p = match (piperead s.writeopen killed ⟨s.ring, u⟩ addr m).1 with
        | some ret => .outside ret
        | none => .readAsleep m := by
  refine ⟨by simp [Pipe.act, hopen, hp], ?_⟩
  unfold Pipe.test piperead
  simp only
  split
  · cases killed with
    | true | false => exact ⟨_, ⟨[], by simp, rfl⟩, rfl, update_self ..⟩
  · exact Pipe.copies_as (s := s.move p (.reading m 0)) hopen (update_self ..) (by simp)

end Machine

/-- `piperead` reports exactly what it takes and delivers what it reports, if and only if the
bytes it can get have pages to go to. -/
theorem piperead_exact_iff (writeopen killed : Bool) (s : Reading) (addr : UInt64) (n : Int) :
    Exact addr s (piperead writeopen killed s addr n) ↔
      ∀ j : Nat, (j : Int) < n → j < s.ring.used → s.user.Mapped (addr + UInt64.ofNat j) := by
  unfold piperead
  split
  case isTrue hwait =>
    -- nothing is there to be read, and nothing is returned but -1
    have hz : s.ring.used = 0 := Ring.used_eq_zero_iff.mpr hwait.1
    refine iff_of_true (fun i hi => ?_) fun j _ hj => by omega
    split at hi
    · have := Option.some.inj hi
      omega
    · cases hi
  case isFalse =>
    have hlt := used_lt s.ring
    constructor
    · intro hexact
      by_contra hbad
      push Not at hbad
      obtain ⟨j, hjn, hju, hj⟩ := hbad
      obtain ⟨m, hcount, hread⟩ := copyBytes_unmapped n.toNat 0 s
        ⟨j, by omega, hju, (Nat.zero_add j).symm ▸ hj⟩
      have hmoved := (hexact m (by simp [hcount])).1
      simp only [hread] at hmoved
      have hsame := (BitVec.add_right_inj s.ring.nread).mp hmoved
      rw [BitVec.ofNat_add] at hsame
      have hone := (BitVec.add_right_inj _).mp (hsame.trans (BitVec.add_zero _).symm)
      exact absurd hone (by decide)
    · intro hmap i hi
      obtain ⟨m, hm, hcount, hread, hbytes, -⟩ := copyBytes_mapped n.toNat 0 s
        (by omega) fun j hj hju => (Nat.zero_add j).symm ▸ hmap j (by omega) hju
      obtain rfl : i = m := by
        simp only [hcount, Option.some.injEq] at hi
        omega
      refine ⟨hread, ?_⟩
      apply List.ext_getElem?
      intro j
      have hlen := Ring.contents_length PIPESIZE s.ring
      by_cases hj : j < i
      · have hb := hbytes j hj
        rw [Nat.zero_add] at hb
        have hin : j < (s.ring.contents PIPESIZE).length := by omega
        rw [List.getElem?_map, List.getElem?_range hj, List.getElem?_map,
          List.getElem?_take_of_lt hj]
        simp only [Option.map_some, hb, List.getElem?_eq_getElem hin]
      · rw [List.getElem?_eq_none (by simp; omega), List.getElem?_eq_none (by simp; omega)]

def noPages : User where
  walkaddr := fun _ => none
  mem := fun _ => 0
  aligned := fun _ _ h => by cases h
  apart := fun _ _ _ h => by cases h

def oneByte : Reading := ⟨⟨fun _ => 7, 0, 1⟩, noPages⟩

/-- A read to a bad address returns 0, and the byte is gone. -/
theorem bad_address_loses_byte :
    ¬ Exact 0 oneByte (piperead true false oneByte 0 1) ∧
      (piperead true false oneByte 0 1).1 = some 0 ∧
      (piperead true false oneByte 0 1).2.ring.nread = 1 ∧
      oneByte.ring.contents PIPESIZE = [7] ∧
      (piperead true false oneByte 0 1).2.ring.contents PIPESIZE = [] := by
  have hret : (piperead true false oneByte 0 1).1 = some 0 := by decide
  have hmoved : (piperead true false oneByte 0 1).2.ring.nread = 1 := by decide
  refine ⟨fun hexact => ?_, hret, hmoved, by decide, by decide⟩
  have h := (hexact 0 hret).1
  rw [hmoved] at h
  exact absurd h (by decide)

end Xv6Audit.Pipes
