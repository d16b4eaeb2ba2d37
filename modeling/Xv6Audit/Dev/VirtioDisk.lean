import Xv6Audit.Disk.Block
import Xv6Audit.Lib.Ring
import Xv6Audit.Lib.Shared

/-! The disk driver of `kernel/virtio_disk.c` with the device. A step is a critical section
under `vdisk_lock` up to a `sleep` or the `release`, one round of the loop of
`virtio_disk_intr`, or a step of the device. A sleeping process may be woken at any time; it
tests again. -/
namespace Xv6Audit.Virtio
open Function

open Disk (BSIZE)

def NUM : Nat := 8

def VRING_DESC_F_NEXT : BitVec 16 := 1
def VRING_DESC_F_WRITE : BitVec 16 := 2

inductive Addr (m : Nat) where
  | null
  | op (i : Nat)
  | data (b : Fin m)
  | status (i : Nat)
deriving DecidableEq, Repr

structure Desc (m : Nat) where
  addr : Addr m
  len : Nat
  flags : BitVec 16
  next : Nat
deriving DecidableEq, Repr

structure Op where
  write : Bool
  sector : Nat
deriving DecidableEq, Repr

structure Info (m : Nat) where
  b : Option (Fin m)
  status : UInt8
deriving DecidableEq, Repr

structure Req (m : Nat) where
  b : Fin m
  i0 : Nat
  i1 : Nat
  i2 : Nat
  id : Nat
deriving DecidableEq, Repr

inductive Phase (m : Nat) where
  | idle
  | wait (b : Fin m) (write : Bool)
  | flight (r : Req m)
deriving DecidableEq, Repr

/-- `struct disk`, the buffers and `n` processes. In `avail`, `nwrite` is `avail->idx` and
`nread` how far the device has read; in `used`, they are `used->idx` and `used_idx`. The device
has read and not completed the chains `pending`. `owner` is the holder of `b->lock`. History:
`req` is the number of the last request of a head, `served` are the requests the device has
completed and `returned` those whose `virtio_disk_rw` has returned. -/
structure VDisk (n m : Nat) where
  free : Nat → Bool
  desc : Nat → Desc m
  ops : Nat → Op
  info : Nat → Info m
  avail : Ring Nat 16
  used : Ring Nat 16
  pending : List Nat
  blockno : Fin m → Nat
  disk : Fin m → Bool
  owner : Fin m → Option (Fin n)
  phase : Fin n → Phase m
  count : Nat
  req : Nat → Nat
  served : List Nat
  returned : List Nat

inductive VAct (n m : Nat) where
  | acquiresleep (p : Fin n) (b : Fin m)
  | releasesleep (p : Fin n) (b : Fin m)
  | rw (p : Fin n) (b : Fin m) (write : Bool)
  | resume (p : Fin n)
  | intr
  | fetch
  | complete (head : Nat)
deriving DecidableEq, Repr

namespace VDisk
variable {n m : Nat}

def move (s : VDisk n m) (p : Fin n) (x : Phase m) : VDisk n m :=
  { s with phase := update s.phase p x }

def allocDesc (s : VDisk n m) : Option Nat × VDisk n m :=
  match (List.range NUM).find? fun i => s.free i with
  | some i => (some i, { s with free := update s.free i false })
  | none => (none, s)

def freeDesc (s : VDisk n m) (i : Nat) : Except Halt (VDisk n m) :=
  if NUM ≤ i then .error (.panic "free_desc 1")
  else if s.free i then .error (.panic "free_desc 2")
  else .ok { s with
    desc := update s.desc i ⟨.null, 0, 0, 0⟩
    free := update s.free i true }

def freeAll : List Nat → VDisk n m → Except Halt (VDisk n m)
  | [], s => .ok s
  | i :: is, s => (s.freeDesc i).bind (freeAll is)

/-- The loop of `free_chain`; every round frees a descriptor, so more than `NUM` rounds are not
made. -/
def freeChain : Nat → Nat → VDisk n m → Except Halt (VDisk n m)
  | 0, _, _ => .error .blocked
  | k+1, i, s =>
    let flag := (s.desc i).flags
    let nxt := (s.desc i).next
    (s.freeDesc i).bind fun s =>
      if flag &&& VRING_DESC_F_NEXT ≠ 0 then freeChain k nxt s else .ok s

def allocLoop : Nat → List Nat → VDisk n m → Except Halt (Option (List Nat) × VDisk n m)
  | 0, idx, s => .ok (some idx, s)
  | k+1, idx, s =>
    match s.allocDesc with
    | (some i, s) => allocLoop k (idx ++ [i]) s
    | (none, s) => (freeAll idx s).map fun s => (none, s)

def alloc3Desc (s : VDisk n m) : Except Halt (Option (List Nat) × VDisk n m) := allocLoop 3 [] s

def submit (s : VDisk n m) (p : Fin n) (b : Fin m) (write : Bool) (i0 i1 i2 : Nat) : VDisk n m :=
  { s with
    ops := update s.ops i0 ⟨write, s.blockno b * (BSIZE / 512) % 2 ^ 32⟩
    desc := update (update (update s.desc
      i0 ⟨.op i0, 16, VRING_DESC_F_NEXT, i1⟩)
      i1 ⟨.data b, BSIZE, (if write then 0 else VRING_DESC_F_WRITE) ||| VRING_DESC_F_NEXT, i2⟩)
      i2 ⟨.status i0, 1, VRING_DESC_F_WRITE, 0⟩
    info := update s.info i0 ⟨some b, 0xff⟩
    disk := update s.disk b true
    avail := s.avail.put NUM i0
    phase := update s.phase p (.flight ⟨b, i0, i1, i2, s.count⟩)
    count := s.count + 1
    req := update s.req i0 s.count }

def start (s : VDisk n m) (p : Fin n) (b : Fin m) (write : Bool) : Except Halt (VDisk n m) :=
  match s.alloc3Desc with
  | .ok (some [i0, i1, i2], s) => .ok (s.submit p b write i0 i1 i2)
  | .ok (some _, _) => .error .blocked
  | .ok (none, s) => .ok (s.move p (.wait b write))
  | .error e => .error e

def finish (s : VDisk n m) (p : Fin n) (r : Req m) : Except Halt (VDisk n m) :=
  let s := { s with info := update s.info r.i0 { s.info r.i0 with b := none } }
  (freeChain (NUM + 1) r.i0 s).map fun s =>
    { s.move p .idle with returned := s.returned ++ [r.id] }

def resume (s : VDisk n m) (p : Fin n) : Except Halt (VDisk n m) :=
  match s.phase p with
  | .idle => .error .blocked
  | .wait b write => s.start p b write
  | .flight r => if s.disk r.b then .ok s else s.finish p r

def intr (s : VDisk n m) : Except Halt (VDisk n m) :=
  if s.used.nread = s.used.nwrite then .error .blocked
  else
    let id := s.used.front NUM
    if (s.info id).status ≠ 0 then .error (.panic "virtio_disk_intr status")
    else match (s.info id).b with
      | none => .error (.panic "kerneltrap")
      | some b => .ok { s with disk := update s.disk b false, used := s.used.drop }

def fetch (s : VDisk n m) : Except Halt (VDisk n m) :=
  if s.avail.nread = s.avail.nwrite then .error .blocked
  else .ok { s with pending := s.avail.front NUM :: s.pending, avail := s.avail.drop }

def complete (s : VDisk n m) (h : Nat) : Except Halt (VDisk n m) :=
  if h ∈ s.pending then
    let last := (s.desc (s.desc h).next).next
    match (s.desc last).addr with
    | .status i => .ok { s with
        info := update s.info i { s.info i with status := 0 }
        used := s.used.put NUM h
        pending := s.pending.erase h
        served := s.served ++ [s.req h] }
    | .null | .op _ | .data _ => .error .blocked
  else .error .blocked

def act (s : VDisk n m) : VAct n m → Except Halt (VDisk n m)
  | .acquiresleep p b =>
    if s.phase p = .idle ∧ s.owner b = none then
      .ok { s with owner := update s.owner b (some p) }
    else .error .blocked
  | .releasesleep p b =>
    if s.phase p = .idle ∧ s.owner b = some p then
      .ok { s with owner := update s.owner b none }
    else .error .blocked
  | .rw p b write =>
    if s.phase p = .idle ∧ s.owner b = some p then s.start p b write else .error .blocked
  | .resume p => s.resume p
  | .intr => s.intr
  | .fetch => s.fetch
  | .complete h => s.complete h

def boot (n m : Nat) (blockno : Fin m → Nat) (i j : BitVec 16) : VDisk n m where
  free := fun i => decide (i < NUM)
  desc := fun _ => ⟨.null, 0, 0, 0⟩
  ops := fun _ => ⟨false, 0⟩
  info := fun _ => ⟨none, 0⟩
  avail := ⟨fun _ => 0, i, i⟩
  used := ⟨fun _ => 0, j, j⟩
  pending := []
  blockno := blockno
  disk := fun _ => false
  owner := fun _ => none
  phase := fun _ => .idle
  count := 0
  req := fun _ => 0
  served := []
  returned := []

end VDisk

def Req.idx {m : Nat} (r : Req m) : List Nat := [r.i0, r.i1, r.i2]

def Phase.buf {m : Nat} : Phase m → Option (Fin m)
  | .idle => none
  | .wait b _ => some b
  | .flight r => some r.b

namespace VDisk
variable {n m : Nat}

def queued (s : VDisk n m) : List Nat := s.avail.contents NUM

def finished (s : VDisk n m) : List Nat := s.used.contents NUM

def heads (s : VDisk n m) : List Nat := s.queued ++ s.pending ++ s.finished

structure Linked (desc : Nat → Desc m) (r : Req m) : Prop where
  first : (desc r.i0).flags &&& VRING_DESC_F_NEXT ≠ 0 ∧ (desc r.i0).next = r.i1
  second : (desc r.i1).flags &&& VRING_DESC_F_NEXT ≠ 0 ∧ (desc r.i1).next = r.i2
  third : (desc r.i2).flags &&& VRING_DESC_F_NEXT = 0 ∧ (desc r.i2).addr = .status r.i0

variable {r : Req m} {i : Nat}

theorem Linked.congr {desc desc' : Nat → Desc m} (h : Linked desc r)
    (hs : ∀ i ∈ r.idx, desc' i = desc i) : Linked desc' r := by
  have h0 := hs r.i0 (by simp [Req.idx])
  have h1 := hs r.i1 (by simp [Req.idx])
  have h2 := hs r.i2 (by simp [Req.idx])
  exact ⟨h0 ▸ h.first, h1 ▸ h.second, h2 ▸ h.third⟩

structure Matched (s : VDisk n m) : Prop where
  lock : ∀ p b, (s.phase p).buf = some b → s.owner b = some p
  bound : ∀ p r, s.phase p = .flight r → ∀ i ∈ r.idx, i < NUM
  three : ∀ p r, s.phase p = .flight r → r.idx.Nodup
  apart : ∀ p q r r' i, s.phase p = .flight r → s.phase q = .flight r' → i ∈ r.idx → i ∈ r'.idx →
    p = q
  free : ∀ i, i < NUM → (s.free i = false ↔ ∃ p r, s.phase p = .flight r ∧ i ∈ r.idx)
  linked : ∀ p r, s.phase p = .flight r → Linked s.desc r
  info : ∀ p r, s.phase p = .flight r → (s.info r.i0).b = some r.b ∧ s.req r.i0 = r.id
  flow : ∀ h, h ∈ s.heads ↔ ∃ p r, s.phase p = .flight r ∧ r.i0 = h ∧ s.disk r.b = true
  once : s.heads.Nodup
  status : ∀ h ∈ s.finished, (s.info h).status = 0 ∧ s.req h ∈ s.served
  handled : ∀ p r, s.phase p = .flight r → s.disk r.b = false → r.id ∈ s.served
  returned : ∀ id ∈ s.returned, id ∈ s.served
  fresh : (∀ p r, s.phase p = .flight r → r.id < s.count) ∧ ∀ id ∈ s.served, id < s.count

/-! Descriptors. -/

section Descs
variable {s t : VDisk n m}

theorem allocDesc_some (h : s.allocDesc = (some i, t)) :
    i < NUM ∧ s.free i = true ∧ t = { s with free := update s.free i false } := by
  unfold allocDesc at h
  cases hf : (List.range NUM).find? fun i => s.free i with
  | none => simp [hf] at h
  | some j =>
    simp only [hf, Prod.mk.injEq, Option.some.injEq] at h
    obtain ⟨rfl, rfl⟩ := h
    exact ⟨List.mem_range.mp (List.mem_of_find?_eq_some hf), by simpa using List.find?_some hf, rfl⟩

theorem allocDesc_none (h : s.allocDesc = (none, t)) : t = s := by
  unfold allocDesc at h
  cases hf : (List.range NUM).find? fun i => s.free i with
  | none =>
    simp only [hf, Prod.mk.injEq] at h
    exact h.2.symm
  | some j => simp [hf] at h

theorem freeDesc_ok (hi : i < NUM) (hf : s.free i = false) :
    s.freeDesc i = .ok { s with
      desc := update s.desc i ⟨.null, 0, 0, 0⟩
      free := update s.free i true } := by
  unfold freeDesc
  rw [if_neg (by omega), if_neg (by simp [hf])]

structure Freed (is : List Nat) (s t : VDisk n m) : Prop where
  free : ∀ i, t.free i = (s.free i || decide (i ∈ is))
  desc : ∀ i, i ∉ is → s.free i = false → t.desc i = s.desc i
  rest : t = { s with free := t.free, desc := t.desc }

variable {is : List Nat}

theorem Freed.eq (h : Freed is s t) : ∃ free desc, t = { s with free := free, desc := desc } ∧
    (∀ i, free i = (s.free i || decide (i ∈ is))) ∧
    ∀ i, i ∉ is → s.free i = false → desc i = s.desc i :=
  ⟨t.free, t.desc, h.rest, h.free, h.desc⟩

theorem freed_cons
    (h : Freed is { s with
      desc := update s.desc i ⟨.null, 0, 0, 0⟩
      free := update s.free i true } t) : Freed (i :: is) s t := by
  refine ⟨fun j => ?_, fun j hj hf => ?_, h.rest⟩
  · rw [h.free]
    by_cases hj : j = i
    · simp [hj]
    · simp [hj]
  · rw [List.mem_cons, not_or] at hj
    rw [h.desc j hj.2 ((update_of_ne hj.1 _ _).trans hf)]
    exact update_of_ne hj.1 _ _

theorem freeAll_ok (hd : is.Nodup) (h : ∀ i ∈ is, i < NUM ∧ s.free i = false) :
    ∃ t, freeAll is s = .ok t ∧ Freed is s t := by
  induction is generalizing s with
  | nil => exact ⟨s, rfl, fun i => by simp, fun _ _ _ => rfl, rfl⟩
  | cons i is ih =>
    obtain ⟨hi, hd⟩ := List.nodup_cons.mp hd
    obtain ⟨hlt, hf⟩ := h i (by simp)
    obtain ⟨t, ht, hfreed⟩ := ih (s := { s with
      desc := update s.desc i ⟨.null, 0, 0, 0⟩
      free := update s.free i true }) hd fun j hj => by
        have hji : j ≠ i := fun he => hi (he ▸ hj)
        refine ⟨(h j (by simp [hj])).1, ?_⟩
        exact (update_of_ne hji _ _).trans (h j (by simp [hj])).2
    refine ⟨t, ?_, freed_cons hfreed⟩
    rw [freeAll, freeDesc_ok hlt hf]
    exact ht

theorem allocLoop_spec (k : Nat) {idx : List Nat} (hd : idx.Nodup)
    (h : ∀ i ∈ idx, i < NUM ∧ s.free i = false) :
    (∃ t, allocLoop k idx s = .ok (none, t) ∧ Freed idx s t) ∨
    ∃ js t, allocLoop k idx s = .ok (some (idx ++ js), t) ∧ js.length = k ∧ (idx ++ js).Nodup ∧
      (∀ j ∈ js, j < NUM ∧ s.free j = true) ∧
      t = { s with free := fun i => s.free i && !decide (i ∈ js) } := by
  induction k generalizing s idx with
  | zero => exact .inr ⟨[], s, by rw [List.append_nil]; rfl, rfl, by simpa using hd, by simp, by simp⟩
  | succ k ih =>
    rw [allocLoop]
    rcases ha : s.allocDesc with ⟨_ | j, u⟩
    · rw [allocDesc_none ha]
      obtain ⟨t, ht, hfreed⟩ := freeAll_ok hd h
      refine .inl ⟨t, ?_, hfreed⟩
      simp only [ht]
      rfl
    · obtain ⟨hj, hfree, rfl⟩ := allocDesc_some ha
      have hnew : j ∉ idx := fun hm => by
        have hf := (h j hm).2
        rw [hfree] at hf
        cases hf
      have hd' : (idx ++ [j]).Nodup := List.nodup_append.mpr ⟨hd, by simp, fun a ha b hb => by
        rw [List.mem_singleton.mp hb]
        exact fun he => hnew (he ▸ ha)⟩
      have hidx : ∀ i ∈ idx ++ [j], i < NUM ∧ update s.free j false i = false :=
        fun i hi => by
        rcases List.mem_append.mp hi with hi | hi
        · have hij : i ≠ j := fun he => hnew (he ▸ hi)
          exact ⟨(h i hi).1, (update_of_ne hij _ _).trans (h i hi).2⟩
        · rw [List.mem_singleton.mp hi]
          exact ⟨hj, update_self ..⟩
      simp only
      rcases ih (s := { s with free := update s.free j false }) hd' hidx with ⟨t, ht, hfreed⟩ |
        ⟨js, t, ht, hlen, hnd, hjs, heq⟩
      · refine .inl ⟨t, ht, fun i => ?_, fun i hi hf => ?_, hfreed.rest⟩
        · rw [hfreed.free]
          by_cases hij : i = j
          · simp [hij, hfree]
          · simp [hij]
        · have hij : i ≠ j := fun he => by simp [he, hfree] at hf
          exact hfreed.desc i (by simp [hi, hij]) ((update_of_ne hij _ _).trans hf)
      · refine .inr ⟨j :: js, t, ?_, by simp [hlen], by simpa using hnd, fun i hi => ?_, ?_⟩
        · rw [ht, List.append_assoc]
          rfl
        · rcases List.mem_cons.mp hi with rfl | hi
          · exact ⟨hj, hfree⟩
          · have hdis := (List.nodup_append.mp hnd).2.2
            have hij : i ≠ j := fun he => hdis j (by simp) i hi he.symm
            exact ⟨(hjs i hi).1, by simpa [hij] using (hjs i hi).2⟩
        · rw [heq]
          congr 1
          funext i
          by_cases hij : i = j
          · simp [hij]
          · simp [hij]

theorem freeChain_ok {k : Nat} (hl : Linked s.desc r) (hd : r.idx.Nodup)
    (h : ∀ i ∈ r.idx, i < NUM ∧ s.free i = false) :
    ∃ t, freeChain (k + 3) r.i0 s = .ok t ∧ Freed r.idx s t := by
  obtain ⟨t, ht, hfreed⟩ := freeAll_ok hd h
  refine ⟨t, ?_, hfreed⟩
  have h01 : r.i1 ≠ r.i0 := fun he => by simp [Req.idx, he] at hd
  have h02 : r.i2 ≠ r.i0 := fun he => by simp [Req.idx, he] at hd
  have h12 : r.i2 ≠ r.i1 := fun he => by simp [Req.idx, he] at hd
  obtain ⟨b0, f0⟩ := h r.i0 (by simp [Req.idx])
  obtain ⟨b1, f1⟩ := h r.i1 (by simp [Req.idx])
  obtain ⟨b2, f2⟩ := h r.i2 (by simp [Req.idx])
  rw [← ht, freeChain, freeDesc_ok b0 f0]
  simp only [Except.bind, hl.first.1, hl.first.2, ne_eq, not_false_eq_true, if_true, Req.idx, freeAll]
  rw [freeDesc_ok b0 f0]
  simp only
  rw [freeChain, freeDesc_ok b1 (by simpa [h01] using f1)]
  simp only [Except.bind, update_of_ne h01, hl.second.1, hl.second.2, ne_eq,
    not_false_eq_true, if_true]
  rw [freeChain, freeDesc_ok b2 (by simpa [h02, h12] using f2)]
  simp only [Except.bind, update_of_ne h02, update_of_ne h12, hl.third.1,
    ne_eq, not_true_eq_false, if_false]

end Descs

/-! Steps. -/

section Steps
variable {s t : VDisk n m} {p : Fin n} {b : Fin m}

theorem num_dvd : NUM ∣ 2 ^ 16 := by decide

theorem num_lt : NUM < 2 ^ 16 := by decide

theorem short {l : List Nat} (hd : l.Nodup) (hb : ∀ x ∈ l, x < NUM) (hi : i < NUM) (hn : i ∉ l) :
    l.length < NUM := by
  have hsub : (i :: l) ⊆ List.range NUM := by
    intro x hx
    rcases List.mem_cons.mp hx with rfl | hx
    · exact List.mem_range.mpr hi
    · exact List.mem_range.mpr (hb x hx)
  have hle := (List.subperm_of_subset (List.nodup_cons.mpr ⟨hn, hd⟩) hsub).length_le
  rw [List.length_cons, List.length_range] at hle
  omega

section
variable (h : s.Matched)
include h

theorem Matched.head_lt (hi : i ∈ s.heads) : i < NUM := by
  obtain ⟨p, r, hp, rfl, -⟩ := (h.flow i).mp hi
  exact h.bound p r hp r.i0 (by simp [Req.idx])

theorem Matched.head_busy (hi : i ∈ s.heads) : s.free i = false := by
  have hlt := h.head_lt hi
  obtain ⟨p, r, hp, rfl, -⟩ := (h.flow i).mp hi
  exact (h.free _ hlt).mpr ⟨p, r, hp, by simp [Req.idx]⟩

theorem Matched.buf_ne {q : Fin n} (hb : s.owner b = some p) (hq : s.phase q = .flight r)
    (hne : q ≠ p) : r.b ≠ b := fun he => by
  have hown := h.lock q r.b (by rw [hq]; rfl)
  rw [he, hb] at hown
  exact hne (Option.some.inj hown).symm

theorem Matched.acquiresleep (hb : s.owner b = none) :
    Matched { s with owner := update s.owner b (some p) } :=
  { h with
    lock := fun q c hc => by
      have hq := h.lock q c hc
      have hcb : c ≠ b := fun he => by
        rw [he, hb] at hq
        cases hq
      exact (update_of_ne hcb _ _).trans hq }

theorem Matched.releasesleep (hp : s.phase p = .idle) (hb : s.owner b = some p) :
    Matched { s with owner := update s.owner b none } :=
  { h with
    lock := fun q c hc => by
      have hq := h.lock q c hc
      have hcb : c ≠ b := fun he => by
        rw [he, hb] at hq
        obtain rfl := Option.some.inj hq
        have hc : (s.phase p).buf = some c := hc
        rw [hp] at hc
        cases hc
      exact (update_of_ne hcb _ _).trans hq }

theorem Matched.wait (hp : ∀ r, s.phase p ≠ .flight r) (hb : s.owner b = some p) {write : Bool}
    (ht : Freed [] s t) : (t.move p (.wait b write)).Matched := by
  obtain ⟨free, desc, rfl, hfree, hdesc⟩ := ht.eq
  obtain rfl : free = s.free := funext fun i => by simp [hfree]
  have hphase : ∀ q r, update s.phase p (.wait b write) q = .flight r ↔
      s.phase q = .flight r := fun q r => by
    by_cases hq : q = p
    · rw [hq, update_self]
      exact ⟨fun he => (by cases he), fun he => absurd he (hp r)⟩
    · rw [update_of_ne hq]
  refine { h with
    lock := fun q c hc => ?_
    bound := fun q r hq => h.bound q r ((hphase q r).mp hq)
    three := fun q r hq => h.three q r ((hphase q r).mp hq)
    apart := fun q q' r r' i hq hq' => h.apart q q' r r' i ((hphase q r).mp hq) ((hphase q' r').mp hq')
    free := fun i hi => by simpa only [move, hphase] using h.free i hi
    linked := fun q r hq => ?_
    info := fun q r hq => h.info q r ((hphase q r).mp hq)
    flow := fun i => (h.flow i).trans (by simp only [move, hphase])
    handled := fun q r hq => h.handled q r ((hphase q r).mp hq)
    fresh := ⟨fun q r hq => h.fresh.1 q r ((hphase q r).mp hq), h.fresh.2⟩ }
  · by_cases hqp : q = p
    · rw [hqp] at hc ⊢
      simp only [move, update_self] at hc
      cases hc
      exact hb
    · simp only [move, update_of_ne hqp] at hc
      exact h.lock q c hc
  · have hq := (hphase q r).mp hq
    refine (h.linked q r hq).congr fun i hi => hdesc i (by simp) ?_
    exact (h.free i (h.bound q r hq i hi)).mpr ⟨q, r, hq, hi⟩

theorem Matched.not_mem {q : Fin n} (hq : s.phase q = .flight r) (hi : s.free i = true) :
    i ∉ r.idx := fun hm => by
  rw [(h.free i (h.bound q r hq i hm)).mpr ⟨q, r, hq, hm⟩] at hi
  cases hi

theorem Matched.submit (hp : ∀ r, s.phase p ≠ .flight r) (hb : s.owner b = some p) {write : Bool}
    {i0 i1 i2 : Nat} (hd : [i0, i1, i2].Nodup) (hi : ∀ i ∈ [i0, i1, i2], i < NUM ∧ s.free i = true) :
    (submit { s with free := fun i => s.free i && !decide (i ∈ [i0, i1, i2]) } p b write
      i0 i1 i2).Matched := by
  have hnot := fun {q : Fin n} {r : Req m} (hq : s.phase q = .flight r) {i : Nat} (hm : i ∈ r.idx)
      (hx : i ∈ [i0, i1, i2]) => h.not_mem hq (hi i hx).2 hm
  have h0 : i0 ∈ [i0, i1, i2] := by simp
  have hhead : i0 ∉ s.heads := fun hm => by
    have hf := h.head_busy hm
    rw [(hi i0 h0).2] at hf
    cases hf
  have hne0 : ∀ q r, s.phase q = .flight r → r.i0 ≠ i0 := fun q r hq he =>
    hnot hq (i := i0) (by simp [Req.idx, he]) h0
  have hflight : ∀ q r, update s.phase p (.flight ⟨b, i0, i1, i2, s.count⟩) q = .flight r ↔
      (q = p ∧ r = ⟨b, i0, i1, i2, s.count⟩) ∨ s.phase q = .flight r := by
    intro q r
    by_cases hq : q = p
    · subst hq
      rw [update_self, Phase.flight.injEq]
      exact ⟨fun he => .inl ⟨rfl, he.symm⟩, fun he => he.elim (fun x => x.2.symm)
        fun x => absurd x (hp r)⟩
    · rw [update_of_ne hq]
      simp [hq]
  have hdisk : ∀ q r, s.phase q = .flight r → update s.disk b true r.b = s.disk r.b := by
    intro q r hq
    have hqp : q ≠ p := fun he => hp r (he ▸ hq)
    exact update_of_ne (h.buf_ne hb hq hqp) _ _
  have hroom : s.avail.used < NUM := by
    rw [← Ring.contents_length NUM]
    refine short (List.Nodup.of_append_left (List.Nodup.of_append_left h.once)) (fun x hx => ?_)
      (hi i0 h0).1 fun hx => hhead ?_
    · exact h.head_lt (List.mem_append_left _ (List.mem_append_left _ hx))
    · exact List.mem_append_left _ (List.mem_append_left _ hx)
  have hput := (Ring.contents_put num_dvd num_lt hroom i0).2
  have hheads : (s.avail.put NUM i0).contents NUM ++ s.pending ++ s.finished =
      s.queued ++ i0 :: (s.pending ++ s.finished) := by
    rw [hput]
    simp [queued]
  have hperm : (s.queued ++ i0 :: (s.pending ++ s.finished)).Perm (i0 :: s.heads) := by
    refine List.perm_middle.trans ?_
    rw [heads, List.append_assoc]
  have hmem : ∀ x, x ∈ (s.avail.put NUM i0).contents NUM ++ s.pending ++ s.finished ↔
      x = i0 ∨ x ∈ s.heads := fun x => by rw [hheads, hperm.mem_iff, List.mem_cons]
  refine ⟨fun q c hc => ?_, fun q r hq => ?_, fun q r hq => ?_, fun q q' r r' i hq hq' hm hm' => ?_,
    fun i hlt => ?_, fun q r hq => ?_, fun q r hq => ?_, fun x => ?_, ?_, fun x hx => ?_,
    fun q r hq hf => ?_, h.returned, fun q r hq => ?_, fun id hid => ?_⟩
  · by_cases hqp : q = p
    · subst hqp
      simp only [VDisk.submit, update_self] at hc
      cases hc
      exact hb
    · simp only [VDisk.submit, update_of_ne hqp] at hc
      exact h.lock q c hc
  · rcases (hflight q r).mp hq with ⟨-, rfl⟩ | hq
    · exact fun i hm => (hi i hm).1
    · exact h.bound q r hq
  · rcases (hflight q r).mp hq with ⟨-, rfl⟩ | hq
    · exact hd
    · exact h.three q r hq
  · rcases (hflight q r).mp hq with ⟨rfl, rfl⟩ | hs <;>
      rcases (hflight q' r').mp hq' with ⟨rfl, rfl⟩ | hs'
    · rfl
    · exact absurd hm (hnot hs' hm')
    · exact absurd hm' (hnot hs hm)
    · exact h.apart q q' r r' i hs hs' hm hm'
  · have hfree := h.free i hlt
    change (s.free i && !decide (i ∈ [i0, i1, i2])) = false ↔ _
    rw [Bool.and_eq_false_iff, hfree, Bool.not_eq_false', decide_eq_true_eq]
    constructor
    · rintro (⟨q, r, hq, hm⟩ | hm)
      · exact ⟨q, r, (hflight q r).mpr (.inr hq), hm⟩
      · exact ⟨p, _, (hflight p _).mpr (.inl ⟨rfl, rfl⟩), hm⟩
    · rintro ⟨q, r, hq, hm⟩
      rcases (hflight q r).mp hq with ⟨-, rfl⟩ | hq
      · exact .inr hm
      · exact .inl ⟨q, r, hq, hm⟩
  · rcases (hflight q r).mp hq with ⟨-, rfl⟩ | hq
    · have h01 : i0 ≠ i1 := fun he => by simp [he] at hd
      have h02 : i0 ≠ i2 := fun he => by simp [he] at hd
      have h12 : i1 ≠ i2 := fun he => by simp [he] at hd
      refine ⟨?_, ?_, ?_⟩
      · simp only [VDisk.submit, update_of_ne h02, update_of_ne h01,
          update_self]
        decide
      · simp only [VDisk.submit, update_of_ne h12, update_self]
        cases write <;> decide
      · simp only [VDisk.submit, update_self]
        decide
    · refine (h.linked q r hq).congr fun i hm => ?_
      have hx := fun hx => hnot hq hm hx
      simp only [List.mem_cons, List.not_mem_nil, or_false] at hx
      have hx : i ≠ i0 ∧ i ≠ i1 ∧ i ≠ i2 := ⟨fun he => hx (.inl he), fun he => hx (.inr (.inl he)),
        fun he => hx (.inr (.inr he))⟩
      simp only [VDisk.submit, update_of_ne hx.1, update_of_ne hx.2.1,
        update_of_ne hx.2.2]
  · rcases (hflight q r).mp hq with ⟨-, rfl⟩ | hq
    · simp [VDisk.submit]
    · simpa [VDisk.submit, hne0 q r hq] using h.info q r hq
  · change x ∈ (s.avail.put NUM i0).contents NUM ++ s.pending ++ s.finished ↔ _
    rw [hmem, h.flow]
    constructor
    · rintro (rfl | ⟨q, r, hq, rfl, hx⟩)
      · exact ⟨p, _, (hflight p _).mpr (.inl ⟨rfl, rfl⟩), rfl, update_self ..⟩
      · exact ⟨q, r, (hflight q r).mpr (.inr hq), rfl, (hdisk q r hq).trans hx⟩
    · rintro ⟨q, r, hq, rfl, hx⟩
      rcases (hflight q r).mp hq with ⟨-, rfl⟩ | hq
      · exact .inl rfl
      · exact .inr ⟨q, r, hq, rfl, (hdisk q r hq).symm.trans hx⟩
  · change ((s.avail.put NUM i0).contents NUM ++ s.pending ++ s.finished).Nodup
    rw [hheads]
    exact hperm.nodup_iff.mpr (List.nodup_cons.mpr ⟨hhead, h.once⟩)
  · have hx : x ∈ s.finished := hx
    have hxi : x ≠ i0 := fun he => hhead (he ▸ List.mem_append_right _ hx)
    simpa [VDisk.submit, hxi] using h.status x hx
  · rcases (hflight q r).mp hq with ⟨-, rfl⟩ | hq
    · simp [VDisk.submit] at hf
    · exact h.handled q r hq ((hdisk q r hq).symm.trans hf)
  · rcases (hflight q r).mp hq with ⟨-, rfl⟩ | hq
    · exact Nat.lt_succ_self _
    · exact Nat.lt_succ_of_lt (h.fresh.1 q r hq)
  · exact Nat.lt_succ_of_lt (h.fresh.2 id hid)

theorem Matched.finish (hp : s.phase p = .flight r) (hd : s.disk r.b = false) :
    ∃ t, s.finish p r = .ok t ∧ t.phase p = .idle ∧ t.Matched := by
  have hbusy : ∀ i ∈ r.idx, i < NUM ∧ s.free i = false := fun i hi =>
    ⟨h.bound p r hp i hi, (h.free i (h.bound p r hp i hi)).mpr ⟨p, r, hp, hi⟩⟩
  obtain ⟨t, ht, hfreed⟩ := freeChain_ok (k := NUM - 2) (s := { s with
    info := update s.info r.i0 { s.info r.i0 with b := none } }) (h.linked p r hp)
    (h.three p r hp) hbusy
  refine ⟨{ t.move p .idle with returned := t.returned ++ [r.id] }, ?_, update_self .., ?_⟩
  · unfold VDisk.finish
    simp only
    rw [show NUM + 1 = NUM - 2 + 3 by decide, ht]
    rfl
  obtain ⟨free, desc, rfl, hfree, hdesc⟩ := hfreed.eq
  have hphase : ∀ q r', update s.phase p .idle q = .flight r' ↔
      q ≠ p ∧ s.phase q = .flight r' := by
    intro q r'
    by_cases hq : q = p
    · simp [hq]
    · simp [hq]
  have hother : ∀ q r', q ≠ p → s.phase q = .flight r' → ∀ i ∈ r'.idx, i ∉ r.idx :=
    fun q r' hq hr' i hi hm => hq (h.apart q p r' r i hr' hp hi hm)
  have hmine : ∀ q r', s.phase q = .flight r' → r' ≠ r → q ≠ p := fun q r' hq hr he => by
    rw [he, hp, Phase.flight.injEq] at hq
    exact hr hq.symm
  have hi0 : r.i0 ∉ s.heads := fun hm => by
    obtain ⟨q, r', hq, hi, hx⟩ := (h.flow _).mp hm
    obtain rfl := h.apart q p r' r r.i0 hq hp (by simp [Req.idx, hi]) (by simp [Req.idx])
    rw [hp, Phase.flight.injEq] at hq
    rw [← hq, hd] at hx
    cases hx
  refine { h with
    lock := fun q c hc => ?_
    bound := fun q r' hq => h.bound q r' ((hphase q r').mp hq).2
    three := fun q r' hq => h.three q r' ((hphase q r').mp hq).2
    apart := fun q q' r1 r2 i hq hq' =>
      h.apart q q' r1 r2 i ((hphase q r1).mp hq).2 ((hphase q' r2).mp hq').2
    free := fun i hlt => ?_
    linked := fun q r' hq => ?_
    info := fun q r' hq => ?_
    flow := fun x => (h.flow x).trans ?_
    status := fun x hx => ?_
    handled := fun q r' hq => h.handled q r' ((hphase q r').mp hq).2
    returned := fun id hid => ?_
    fresh := ⟨fun q r' hq => h.fresh.1 q r' ((hphase q r').mp hq).2, h.fresh.2⟩ }
  · have hqp : q ≠ p := fun he => by
      subst he
      simp only [move, update_self] at hc
      cases hc
    simp only [move, update_of_ne hqp] at hc
    exact h.lock q c hc
  · change free i = false ↔ _
    rw [hfree, Bool.or_eq_false_iff]
    change s.free i = false ∧ _ ↔ _
    rw [h.free i hlt, decide_eq_false_iff_not]
    constructor
    · rintro ⟨⟨q, r', hq, hm⟩, hn⟩
      exact ⟨q, r', (hphase q r').mpr ⟨hmine q r' hq fun he => hn (he ▸ hm), hq⟩, hm⟩
    · rintro ⟨q, r', hq, hm⟩
      obtain ⟨hqp, hq⟩ := (hphase q r').mp hq
      exact ⟨⟨q, r', hq, hm⟩, hother q r' hqp hq i hm⟩
  · obtain ⟨hqp, hq⟩ := (hphase q r').mp hq
    refine (h.linked q r' hq).congr fun i hm => hdesc i (hother q r' hqp hq i hm) ?_
    exact (h.free i (h.bound q r' hq i hm)).mpr ⟨q, r', hq, hm⟩
  · obtain ⟨hqp, hq⟩ := (hphase q r').mp hq
    have hne : r'.i0 ≠ r.i0 := fun he =>
      hother q r' hqp hq r'.i0 (by simp [Req.idx]) (by simp [Req.idx, he])
    simpa [move, update_of_ne hne] using h.info q r' hq
  · constructor
    · rintro ⟨q, r', hq, rfl, hx⟩
      refine ⟨q, r', (hphase q r').mpr ⟨hmine q r' hq fun he => ?_, hq⟩, rfl, hx⟩
      rw [he, hd] at hx
      cases hx
    · rintro ⟨q, r', hq, rfl, hx⟩
      exact ⟨q, r', ((hphase q r').mp hq).2, rfl, hx⟩
  · have hne : x ≠ r.i0 := fun he => hi0 (he ▸ List.mem_append_right _ hx)
    simpa [move, update_of_ne hne] using h.status x hx
  · rcases List.mem_append.mp hid with hid | hid
    · exact h.returned id hid
    · rw [List.mem_singleton.mp hid]
      exact h.handled p r hp hd

theorem Matched.start (hp : ∀ r, s.phase p ≠ .flight r) (hb : s.owner b = some p) (write : Bool) :
    ∃ t, s.start p b write = .ok t ∧ t.Matched := by
  have hloop := allocLoop_spec (s := s) 3 List.nodup_nil (by simp)
  unfold VDisk.start alloc3Desc
  rcases hloop with ⟨t, ht, hfreed⟩ | ⟨js, t, ht, hlen, hd, hjs, rfl⟩
  · rw [ht]
    exact ⟨_, rfl, h.wait hp hb hfreed⟩
  · obtain ⟨i0, i1, i2, rfl⟩ := List.length_eq_three.mp hlen
    rw [ht]
    exact ⟨_, rfl, h.submit hp hb hd hjs⟩

theorem Matched.resume (p : Fin n) :
    s.resume p = .error .blocked ∨ ∃ t, s.resume p = .ok t ∧ t.Matched := by
  unfold VDisk.resume
  cases hp : s.phase p with
  | idle => exact .inl rfl
  | wait b write =>
    exact .inr (h.start (fun r hr => by rw [hp] at hr; cases hr) (h.lock p b (by rw [hp]; rfl)) write)
  | flight r =>
    simp only
    by_cases hd : s.disk r.b = true
    · rw [if_pos hd]
      exact .inr ⟨s, rfl, h⟩
    · rw [if_neg hd]
      obtain ⟨t, ht, -, hm⟩ := h.finish hp (by simpa using hd)
      exact .inr ⟨t, ht, hm⟩

theorem Matched.front_used (hne : s.used.nread ≠ s.used.nwrite) :
    ∃ q r, s.phase q = .flight r ∧ r.i0 = s.used.front NUM ∧ s.disk r.b = true ∧
      (s.info r.i0).status = 0 ∧ (s.info r.i0).b = some r.b ∧ r.id ∈ s.served := by
  have hmem : s.used.front NUM ∈ s.finished := by
    unfold finished
    rw [(Ring.contents_drop num_dvd num_lt (by decide) hne).2]
    exact List.mem_cons_self
  obtain ⟨q, r, hq, hr, hd⟩ := (h.flow _).mp (List.mem_append_right _ hmem)
  obtain ⟨hst, hserved⟩ := h.status _ hmem
  obtain ⟨hb, hid⟩ := h.info q r hq
  rw [← hr] at hst hserved
  exact ⟨q, r, hq, hr, hd, hst, hb, hid ▸ hserved⟩

theorem Matched.intr :
    s.intr = .error .blocked ∨ ∃ t q r, s.intr = .ok t ∧ t.Matched ∧ s.phase q = .flight r ∧
      r.i0 = s.used.front NUM ∧ r.id ∈ s.served ∧
      t.disk = update s.disk r.b false := by
  unfold VDisk.intr
  by_cases hne : s.used.nread = s.used.nwrite
  · exact .inl (if_pos hne)
  refine .inr ?_
  obtain ⟨p, r, hp, hr, hd, hst, hb, hserved⟩ := h.front_used hne
  have hcons := (Ring.contents_drop num_dvd num_lt (by decide) hne).2
  simp only [if_neg hne, ← hr, hst, hb, ne_eq, not_true_eq_false, if_false]
  refine ⟨_, p, r, rfl, ?_, hp, rfl, hserved, rfl⟩
  have hperm : s.heads.Perm (r.i0 ::
      heads { s with disk := update s.disk r.b false, used := s.used.drop }) := by
    unfold heads finished
    rw [hcons, ← hr]
    exact List.perm_middle
  have honce := hperm.nodup_iff.mp h.once
  have hown := h.lock p r.b (by rw [hp]; rfl)
  refine { h with flow := fun x => ?_, once := (List.nodup_cons.mp honce).2, status := fun x hx => ?_,
                  handled := fun q r' hq hf => ?_ }
  · constructor
    · intro hx
      obtain ⟨q, r', hq, rfl, hdq⟩ := (h.flow x).mp (hperm.mem_iff.mpr (List.mem_cons_of_mem _ hx))
      have hqp : q ≠ p := fun he => by
        subst he
        rw [hp, Phase.flight.injEq] at hq
        exact (List.nodup_cons.mp honce).1 (hq ▸ hx)
      exact ⟨q, r', hq, rfl, (update_of_ne (h.buf_ne hown hq hqp) _ _).trans hdq⟩
    · rintro ⟨q, r', hq, rfl, hdq⟩
      have hbne : r'.b ≠ r.b := fun he => by simp [he] at hdq
      have hx := (h.flow r'.i0).mpr ⟨q, r', hq, rfl, (update_of_ne hbne _ _).symm.trans hdq⟩
      rcases List.mem_cons.mp (hperm.mem_iff.mp hx) with he | hx
      · obtain rfl := h.apart q p r' r r.i0 hq hp (by simp [Req.idx, ← he]) (by simp [Req.idx])
        rw [hp, Phase.flight.injEq] at hq
        exact absurd (by rw [hq]) hbne
      · exact hx
  · refine h.status x ?_
    unfold finished
    rw [hcons]
    exact List.mem_cons_of_mem _ hx
  · by_cases hqp : q = p
    · subst hqp
      rw [hp, Phase.flight.injEq] at hq
      exact hq ▸ hserved
    · exact h.handled q r' hq ((update_of_ne (h.buf_ne hown hq hqp) _ _).symm.trans hf)

theorem Matched.fetch : s.fetch = .error .blocked ∨ ∃ t, s.fetch = .ok t ∧ t.Matched := by
  unfold VDisk.fetch
  by_cases hne : s.avail.nread = s.avail.nwrite
  · exact .inl (if_pos hne)
  rw [if_neg hne]
  refine .inr ⟨_, rfl, ?_⟩
  have hperm : s.heads.Perm (heads { s with
      pending := s.avail.front NUM :: s.pending, avail := s.avail.drop }) := by
    unfold heads queued
    rw [(Ring.contents_drop num_dvd num_lt (by decide) hne).2]
    refine List.Perm.append_right _ ?_
    exact List.perm_middle.symm
  exact { h with
    flow := fun x => hperm.mem_iff.symm.trans (h.flow x)
    once := hperm.nodup_iff.mp h.once }

theorem Matched.complete (x : Nat) :
    s.complete x = .error .blocked ∨ ∃ t, s.complete x = .ok t ∧ t.Matched := by
  unfold VDisk.complete
  by_cases hx : x ∈ s.pending
  swap
  · exact .inl (if_neg hx)
  rw [if_pos hx]
  have hxh : x ∈ s.heads := List.mem_append_left _ (List.mem_append_right _ hx)
  have hxf : x ∉ s.finished := fun hm =>
    (List.nodup_append.mp h.once).2.2 x (List.mem_append_right _ hx) x hm rfl
  obtain ⟨p, r, hp, rfl, hd⟩ := (h.flow x).mp hxh
  have hl := h.linked p r hp
  simp only [hl.first.2, hl.second.2, hl.third.2]
  refine .inr ⟨_, rfl, ?_⟩
  have hroom : s.used.used < NUM := by
    rw [← Ring.contents_length NUM]
    exact short (List.nodup_append.mp h.once).2.1
      (fun y hy => h.head_lt (List.mem_append_right _ hy)) (h.head_lt hxh) hxf
  have hput := (Ring.contents_put num_dvd num_lt hroom r.i0).2
  have hperm : s.heads.Perm (heads { s with
      info := update s.info r.i0 { s.info r.i0 with status := 0 }
      used := s.used.put NUM r.i0
      pending := s.pending.erase r.i0
      served := s.served ++ [s.req r.i0] }) := by
    unfold heads finished
    simp only [hput]
    have herase := ((List.perm_cons_erase hx).append_left s.queued).append_right s.finished
    refine herase.trans ((List.perm_middle.append_right _).trans ?_)
    rw [← List.append_assoc]
    exact (List.perm_append_singleton _ _).symm
  have hinfo : ∀ y, (update s.info r.i0 { s.info r.i0 with status := 0 } y).b =
      (s.info y).b := fun y => by
    by_cases hy : y = r.i0
    · simp [hy]
    · simp [hy]
  refine { h with info := fun q r' hq => ?_, flow := fun y => hperm.mem_iff.symm.trans (h.flow y),
                  once := hperm.nodup_iff.mp h.once, status := fun y hy => ?_,
                  handled := fun q r' hq hf => ?_, returned := fun id hid => ?_,
                  fresh := ⟨h.fresh.1, fun id hid => ?_⟩ }
  · exact ⟨(hinfo _).trans (h.info q r' hq).1, (h.info q r' hq).2⟩
  · have hy : y ∈ (s.used.put NUM r.i0).contents NUM := hy
    rw [hput, List.mem_append, List.mem_singleton] at hy
    by_cases hyr : y = r.i0
    · rw [hyr]
      exact ⟨by simp, List.mem_append_right _ List.mem_cons_self⟩
    · obtain ⟨h1, h2⟩ := h.status y (hy.resolve_right hyr)
      exact ⟨by simpa [hyr] using h1, List.mem_append_left _ h2⟩
  · exact List.mem_append_left _ (h.handled q r' hq hf)
  · exact List.mem_append_left _ (h.returned id hid)
  · rcases List.mem_append.mp hid with hid | hid
    · exact h.fresh.2 id hid
    · rw [List.mem_singleton.mp hid, (h.info p r hp).2]
      exact h.fresh.1 p r hp

theorem Matched.act (a : VAct n m) :
    s.act a = .error .blocked ∨ ∃ t, s.act a = .ok t ∧ t.Matched := by
  cases a with
  | acquiresleep p b =>
    unfold VDisk.act
    by_cases hc : s.phase p = .idle ∧ s.owner b = none
    · exact .inr ⟨_, if_pos hc, h.acquiresleep hc.2⟩
    · exact .inl (if_neg hc)
  | releasesleep p b =>
    unfold VDisk.act
    by_cases hc : s.phase p = .idle ∧ s.owner b = some p
    · exact .inr ⟨_, if_pos hc, h.releasesleep hc.1 hc.2⟩
    · exact .inl (if_neg hc)
  | rw p b write =>
    unfold VDisk.act
    by_cases hc : s.phase p = .idle ∧ s.owner b = some p
    · simp only [if_pos hc]
      exact .inr (h.start (fun r hr => by rw [hc.1] at hr; cases hr) hc.2 write)
    · exact .inl (if_neg hc)
  | resume p => exact h.resume p
  | intr =>
    rcases h.intr with hb | ⟨t, q, r, ht, hm, -⟩
    · exact .inl hb
    · exact .inr ⟨t, ht, hm⟩
  | fetch => exact h.fetch
  | complete x => exact h.complete x

end

theorem boot_matched (blockno : Fin m → Nat) (i j : BitVec 16) :
    (boot n m blockno i j).Matched := by
  have hempty : ∀ (k : BitVec 16) (f : Nat → Nat), Ring.contents NUM ⟨f, k, k⟩ = [] := fun k f => by
    simp [Ring.contents, Ring.used]
  have hheads : (boot n m blockno i j).heads = [] := by
    simp [heads, queued, finished, boot, hempty]
  have hidle : ∀ p r, (boot n m blockno i j).phase p ≠ .flight r := fun p r he => by cases he
  exact {
    lock := fun p b hb => by cases hb
    bound := fun p r hp => absurd hp (hidle p r)
    three := fun p r hp => absurd hp (hidle p r)
    apart := fun p _ r _ _ hp => absurd hp (hidle p r)
    free := fun x hx => by
      constructor
      · intro hf
        simp [boot, hx] at hf
      · rintro ⟨p, r, hp, -⟩
        exact absurd hp (hidle p r)
    linked := fun p r hp => absurd hp (hidle p r)
    info := fun p r hp => absurd hp (hidle p r)
    flow := fun x => by
      rw [hheads]
      constructor
      · exact fun hx => absurd hx List.not_mem_nil
      · rintro ⟨p, r, hp, -⟩
        exact absurd hp (hidle p r)
    once := hheads ▸ List.nodup_nil
    status := fun x hx => by
      have hx : x ∈ (boot n m blockno i j).heads := List.mem_append_right _ hx
      rw [hheads] at hx
      cases hx
    handled := fun p r hp => absurd hp (hidle p r)
    returned := fun _ hid => by cases hid
    fresh := ⟨fun p r hp => absurd hp (hidle p r), fun _ hid => by cases hid⟩ }

end Steps

/-- For any interleaving of the calls, the device and the interrupt handler: a descriptor is
free or in one chain; an interrupt clears `b->disk` for the buffer of the request it was raised
for; no call returns before its request was served (a request that is made later has a number
that is not in `served`); a failed `alloc3_desc` changes nothing; and nothing panics. -/
theorem requests_matched (blockno : Fin m → Nat) (i j : BitVec 16) {s : VDisk n m}
    (hs : Shared.Reaches act (boot n m blockno i j) s) :
    (∀ d, d < NUM → (s.free d = true ∧ ∀ p r, s.phase p = .flight r → d ∉ r.idx) ∨
      (s.free d = false ∧ ∃! p, ∃ r, s.phase p = .flight r ∧ d ∈ r.idx)) ∧
    (∀ p r, s.phase p = .flight r → r.idx.Nodup ∧ (∀ d ∈ r.idx, d < NUM) ∧ Linked s.desc r) ∧
    (∀ t b, s.act .intr = .ok t → t.disk b ≠ s.disk b → ∃ p r, s.phase p = .flight r ∧
      r.i0 = s.used.front NUM ∧ r.b = b ∧ r.id ∈ s.served ∧ t.disk b = false) ∧
    (∀ p r, s.phase p = .flight r → s.disk r.b = false → r.id ∈ s.served ∧
      ∃ t, s.act (.resume p) = .ok t ∧ t.phase p = .idle) ∧
    (∀ p r, s.phase p = .flight r → s.disk r.b = true → s.act (.resume p) = .ok s) ∧
    ((∀ id ∈ s.returned, id ∈ s.served) ∧ ∀ id ∈ s.served, id < s.count) ∧
    (∀ t, s.alloc3Desc = .ok (none, t) → t.free = s.free) ∧
    ∀ a msg, s.act a ≠ .error (.panic msg) := by
  have h : s.Matched := hs.inv (boot_matched blockno i j) fun {u u' a} hu hact => by
    rcases hu.act a with hb | ⟨t, ht, hm⟩
    · rw [hb] at hact
      cases hact
    · rw [ht] at hact
      cases hact
      exact hm
  refine ⟨fun d hd => ?_, fun p r hp => ⟨h.three p r hp, h.bound p r hp, h.linked p r hp⟩,
    fun t b ht hne => ?_, fun p r hp hd => ⟨h.handled p r hp hd, ?_⟩, fun p r hp hd => ?_,
    ⟨h.returned, h.fresh.2⟩, fun t ht => ?_, fun a msg ha => ?_⟩
  · cases hf : s.free d with
    | true => exact .inl ⟨rfl, fun p r hp => h.not_mem hp hf⟩
    | false =>
      obtain ⟨p, r, hp, hm⟩ := (h.free d hd).mp hf
      exact .inr ⟨rfl, p, ⟨r, hp, hm⟩, fun q ⟨r', hq, hm'⟩ => h.apart q p r' r d hq hp hm' hm⟩
  · rcases h.intr with hb | ⟨u, p, r, hu, -, hp, hi, hid, hdisk⟩
    · rw [show s.intr = .ok t from ht] at hb
      cases hb
    · obtain rfl : u = t := Except.ok.inj (hu.symm.trans ht)
      rw [hdisk] at hne ⊢
      by_cases hb : b = r.b
      · exact ⟨p, r, hp, hi, hb.symm, hid, by rw [hb, update_self]⟩
      · exact absurd (update_of_ne hb _ _) hne
  · obtain ⟨t, ht, hidle, -⟩ := h.finish hp hd
    refine ⟨t, ?_, hidle⟩
    change s.resume p = _
    unfold VDisk.resume
    simp only [hp, hd, Bool.false_eq_true, if_false]
    exact ht
  · change s.resume p = _
    unfold VDisk.resume
    simp only [hp, hd, if_true]
  · have hspec := allocLoop_spec (s := s) 3 List.nodup_nil (by simp)
    rw [show allocLoop 3 [] s = .ok (none, t) from ht] at hspec
    rcases hspec with ⟨u, hu, hfreed⟩ | ⟨js, u, hu, -⟩
    · cases hu
      exact funext fun d => by simp [hfreed.free]
    · cases hu
  · rcases h.act a with hb | ⟨t, ht, -⟩
    · rw [hb] at ha
      cases ha
    · rw [ht] at ha
      cases ha

/-- Three calls, of which the third waits for descriptors; the device answers the second one
first. The indices of the rings wrap. -/
def outOfOrder (p q r : Fin 3) : List (VAct 3 3) :=
  [.acquiresleep p p, .acquiresleep q q, .acquiresleep r r, .rw p p true, .rw q q false,
    .rw r r true, .fetch, .fetch, .complete 3, .resume p, .intr, .resume q, .resume r, .fetch,
    .complete 0, .intr, .resume p, .complete 3]

theorem requests_matched_outOfOrder : ∃ s,
    Run.exec (Shared.step act) (boot 3 3 (fun b => b.val) 65535 65535) (outOfOrder 0 1 2) = some s ∧
      s.returned = [1, 0] ∧ s.served = [1, 0, 2] ∧
      s.avail.nwrite = 2 ∧ ∀ a msg, s.act a ≠ .error (.panic msg) := by
  have hrun : (Run.exec (Shared.step act) (boot 3 3 (fun b => b.val) 65535 65535)
      (outOfOrder 0 1 2)).map (fun s => (s.returned, s.served, s.avail.nwrite)) =
      some ([1, 0], [1, 0, 2], 2) := by
    decide +kernel
  obtain ⟨s, hs, he⟩ := Option.map_eq_some_iff.mp hrun
  simp only [Prod.mk.injEq] at he
  obtain ⟨-, -, -, -, -, -, -, hpanic⟩ := requests_matched _ _ _ ⟨_, hs⟩
  exact ⟨s, hs, he.1, he.2.1, he.2.2, hpanic⟩

end VDisk

end Xv6Audit.Virtio
