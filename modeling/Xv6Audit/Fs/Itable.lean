import Xv6Audit.Fs.Inode
import Xv6Audit.Lib.Shared

/-! The inode table of `kernel/fs.c`, used by several processes at once. A step is a critical
section under `itable.lock`, a step of the holder of an inode's sleep-lock, or a round of the
loop of `ialloc`, under the lock of the buffer. -/
namespace Xv6Audit.Icache
open Function

open FileSys (Dinode)

structure Slot where
  dev : Nat
  inum : Nat
  ref : Nat
  valid : Bool
  d : Dinode

def Slot.key (e : Slot) : Nat × Nat := (e.dev, e.inum)

/-- Where a process is. `load`: in `ilock`, after `acquiresleep`. In the freeing branch of
`iput`: `trunc`, before `itrunc`; `mark`, before `ip->type = 0` and `iupdate`; `clear`, before
`ip->valid = 0`; `unlock`, before `releasesleep`; `drop`, before `ip->ref--`. In `ialloc`:
`scan`, at inode `inum`; `born`, when it has marked `inum` and calls `iget`. -/
inductive Phase where
  | idle
  | load (i : Fin NINODE)
  | trunc (i : Fin NINODE)
  | mark (i : Fin NINODE)
  | clear (i : Fin NINODE)
  | unlock (i : Fin NINODE)
  | drop (i : Fin NINODE)
  | scan (dev inum : Nat) (type : InodeType)
  | born (dev inum : Nat)
deriving DecidableEq

/-- The dinodes on disk, the table, its sleep-locks, and `n` processes with the number of
references that each has to an entry. History: `newborn` has the type of an inode that `ialloc`
has marked and no `ilock` has read yet. -/
structure Itable (n : Nat) where
  ninodes : Nat
  disk : Nat × Nat → Dinode
  slot : Fin NINODE → Slot
  owner : Fin NINODE → Option (Fin n)
  phase : Fin n → Phase
  refs : Fin n → Fin NINODE → Nat
  newborn : Nat × Nat → Option InodeType

/-- `iget` is a call by `dirlookup` or `namex`. `hand` gives a reference to another process, as
the open files do. `edit` stores to the fields of a locked inode; no caller changes its type. -/
inductive Act (n : Nat) where
  | iget (p : Fin n) (dev inum : Nat)
  | idup (p : Fin n) (i : Fin NINODE)
  | hand (p q : Fin n) (i : Fin NINODE)
  | ilock (p : Fin n) (i : Fin NINODE)
  | edit (p : Fin n) (i : Fin NINODE) (d : Dinode)
  | iupdate (p : Fin n) (i : Fin NINODE)
  | iunlock (p : Fin n) (i : Fin NINODE)
  | iput (p : Fin n) (i : Fin NINODE)
  | ialloc (p : Fin n) (dev : Nat) (type : InodeType)
  | go (p : Fin n)

namespace Itable
variable {n : Nat}

def move (s : Itable n) (p : Fin n) (x : Phase) : Itable n :=
  { s with phase := update s.phase p x }

def setSlot (s : Itable n) (i : Fin NINODE) (e : Slot) : Itable n :=
  { s with slot := update s.slot i e }

def setOwner (s : Itable n) (i : Fin NINODE) (o : Option (Fin n)) : Itable n :=
  { s with owner := update s.owner i o }

def note (s : Itable n) (p : Fin n) (i : Fin NINODE) (k : Nat) : Itable n :=
  { s with refs := update s.refs p (update (s.refs p) i k) }

def inTable? (s : Itable n) (k : Nat × Nat) : Option (Fin NINODE) :=
  (List.finRange NINODE).find? fun i => 0 < (s.slot i).ref ∧ (s.slot i).key = k

def empty? (s : Itable n) : Option (Fin NINODE) :=
  (List.finRange NINODE).find? fun i => (s.slot i).ref = 0

def gain (s : Itable n) (p : Fin n) (i : Fin NINODE) : Itable n :=
  (s.setSlot i { s.slot i with ref := (s.slot i).ref + 1 }).note p i (s.refs p i + 1)

def lose (s : Itable n) (p : Fin n) (i : Fin NINODE) : Itable n :=
  (s.setSlot i { s.slot i with ref := (s.slot i).ref - 1 }).note p i (s.refs p i - 1)

def fill (s : Itable n) (p : Fin n) (i : Fin NINODE) (dev inum : Nat) : Itable n :=
  (s.setSlot i { s.slot i with dev := dev, inum := inum, ref := 1, valid := false }).note p i
    (s.refs p i + 1)

def iget (s : Itable n) (p : Fin n) (dev inum : Nat) : Except Halt (Itable n) :=
  match s.inTable? (dev, inum) with
  | some i => .ok (s.gain p i)
  | none =>
    match s.empty? with
    | some i => .ok (s.fill p i dev inum)
    | none => .error (.panic "iget: no inodes")

def store (s : Itable n) (i : Fin NINODE) (d : Dinode) : Itable n :=
  { s.setSlot i { s.slot i with d := d } with disk := update s.disk (s.slot i).key d }

def read (s : Itable n) (i : Fin NINODE) : Itable n :=
  { s.setSlot i { s.slot i with valid := true, d := s.disk (s.slot i).key } with
    newborn := update s.newborn (s.slot i).key none }

def bear (s : Itable n) (k : Nat × Nat) (type : InodeType) : Itable n :=
  { s with
    disk := update s.disk k (Dinode.fresh type)
    newborn := update s.newborn k (some type) }

def go (s : Itable n) (p : Fin n) : Except Halt (Itable n) :=
  match s.phase p with
  | .idle => .error .blocked
  | .load i =>
    if (s.slot i).valid then .ok (s.move p .idle)
    else if (s.disk (s.slot i).key).type = none then .error (.panic "ilock: no type")
    else .ok ((s.read i).move p .idle)
  | .trunc i =>
    .ok ((s.store i { (s.slot i).d with size := 0, addrs := fun _ => 0 }).move p (.mark i))
  | .mark i => .ok ((s.store i { (s.slot i).d with type := none }).move p (.clear i))
  | .clear i => .ok ((s.setSlot i { s.slot i with valid := false }).move p (.unlock i))
  | .unlock i => .ok ((s.setOwner i none).move p (.drop i))
  | .drop i => .ok ((s.lose p i).move p .idle)
  | .scan dev inum type =>
    if inum < s.ninodes then
      if (s.disk (dev, inum)).type = none then
        .ok ((s.bear (dev, inum) type).move p (.born dev inum))
      else .ok (s.move p (.scan dev (inum + 1) type))
    else .ok (s.move p .idle)
  | .born dev inum => (s.move p .idle).iget p dev inum

/-- The callers of `idup`, `ilock` and `iput` have a reference, and keep one to an inode that
they have locked. -/
def act (s : Itable n) : Act n → Except Halt (Itable n)
  | .iget p dev inum => if s.phase p = .idle then s.iget p dev inum else .error .blocked
  | .idup p i =>
    if s.phase p = .idle ∧ 0 < s.refs p i then .ok (s.gain p i) else .error .blocked
  | .hand p q i =>
    if s.phase p = .idle ∧ 0 < s.refs p i ∧ (s.owner i = some p → 1 < s.refs p i) then
      let s := s.note p i (s.refs p i - 1)
      .ok (s.note q i (s.refs q i + 1))
    else .error .blocked
  | .ilock p i =>
    if s.phase p = .idle ∧ 0 < s.refs p i then
      if (s.slot i).ref < 1 then .error (.panic "ilock")
      else if s.owner i = none then .ok ((s.setOwner i (some p)).move p (.load i))
      else .error .blocked
    else .error .blocked
  | .edit p i d =>
    if s.phase p = .idle ∧ s.owner i = some p ∧ d.type = (s.slot i).d.type then
      .ok (s.setSlot i { s.slot i with d := d })
    else .error .blocked
  | .iupdate p i =>
    if s.phase p = .idle ∧ s.owner i = some p then .ok (s.store i (s.slot i).d)
    else .error .blocked
  | .iunlock p i =>
    if s.phase p = .idle then
      if s.owner i ≠ some p ∨ (s.slot i).ref < 1 then .error (.panic "iunlock")
      else .ok (s.setOwner i none)
    else .error .blocked
  | .iput p i =>
    if s.phase p = .idle ∧ 0 < s.refs p i ∧ (s.owner i = some p → 1 < s.refs p i) then
      if (s.slot i).ref = 1 ∧ (s.slot i).valid = true ∧ (s.slot i).d.nlink = 0 then
        if s.owner i = none then .ok ((s.setOwner i (some p)).move p (.trunc i))
        else .error .blocked
      else .ok (s.lose p i)
    else .error .blocked
  | .ialloc p dev type =>
    if s.phase p = .idle then .ok (s.move p (.scan dev 1 type)) else .error .blocked
  | .go p => s.go p

def boot (n ninodes : Nat) (disk : Nat × Nat → Dinode) : Itable n where
  ninodes := ninodes
  disk := disk
  slot := fun _ => ⟨0, 0, 0, false, ⟨none, 0, 0, 0, 0, fun _ => 0⟩⟩
  owner := fun _ => none
  phase := fun _ => .idle
  refs := fun _ _ => 0
  newborn := fun _ => none

end Itable

def Phase.locked : Phase → Option (Fin NINODE)
  | .load i | .trunc i | .mark i | .clear i | .unlock i => some i
  | .idle | .drop _ | .scan _ _ _ | .born _ _ => none

def Phase.frees : Phase → Option (Fin NINODE)
  | .trunc i | .mark i => some i
  | .idle | .load _ | .clear _ | .unlock _ | .drop _ | .scan _ _ _ | .born _ _ => none

def Phase.leaves : Phase → Option (Fin NINODE)
  | .clear i | .unlock i | .drop i => some i
  | .idle | .load _ | .trunc _ | .mark _ | .scan _ _ _ | .born _ _ => none

namespace Itable
variable {n : Nat}

inductive Step (s : Itable n) : Act n → Itable n → Prop where
  | iget {p dev inum t} (hp : s.phase p = .idle) (ht : s.iget p dev inum = .ok t) :
      Step s (.iget p dev inum) t
  | idup {p i} (hp : s.phase p = .idle) (hr : 0 < s.refs p i) : Step s (.idup p i) (s.gain p i)
  | hand {p q i} (hp : s.phase p = .idle) (hr : 0 < s.refs p i)
      (ho : s.owner i = some p → 1 < s.refs p i) :
      Step s (.hand p q i) ((s.note p i (s.refs p i - 1)).note q i
        ((s.note p i (s.refs p i - 1)).refs q i + 1))
  | ilock {p i} (hp : s.phase p = .idle) (hr : 0 < s.refs p i) (ho : s.owner i = none) :
      Step s (.ilock p i) ((s.setOwner i (some p)).move p (.load i))
  | edit {p i d} (hp : s.phase p = .idle) (ho : s.owner i = some p)
      (hd : d.type = (s.slot i).d.type) : Step s (.edit p i d) (s.setSlot i { s.slot i with d := d })
  | iupdate {p i} (hp : s.phase p = .idle) (ho : s.owner i = some p) :
      Step s (.iupdate p i) (s.store i (s.slot i).d)
  | iunlock {p i} (hp : s.phase p = .idle) (ho : s.owner i = some p) :
      Step s (.iunlock p i) (s.setOwner i none)
  | iput {p i} (hp : s.phase p = .idle) (hr : 0 < s.refs p i)
      (ho : s.owner i = some p → 1 < s.refs p i) : Step s (.iput p i) (s.lose p i)
  | free {p i} (hp : s.phase p = .idle) (hr : 0 < s.refs p i) (ho : s.owner i = none)
      (hc : (s.slot i).ref = 1 ∧ (s.slot i).valid = true ∧ (s.slot i).d.nlink = 0) :
      Step s (.iput p i) ((s.setOwner i (some p)).move p (.trunc i))
  | ialloc {p dev type} (hp : s.phase p = .idle) :
      Step s (.ialloc p dev type) (s.move p (.scan dev 1 type))
  | loaded {p i} (hp : s.phase p = .load i) (hv : (s.slot i).valid = true) :
      Step s (.go p) (s.move p .idle)
  | read {p i} (hp : s.phase p = .load i) (ht : (s.disk (s.slot i).key).type ≠ none) :
      Step s (.go p) ((s.read i).move p .idle)
  | trunc {p i} (hp : s.phase p = .trunc i) : Step s (.go p)
      ((s.store i { (s.slot i).d with size := 0, addrs := fun _ => 0 }).move p (.mark i))
  | mark {p i} (hp : s.phase p = .mark i) :
      Step s (.go p) ((s.store i { (s.slot i).d with type := none }).move p (.clear i))
  | clear {p i} (hp : s.phase p = .clear i) :
      Step s (.go p) ((s.setSlot i { s.slot i with valid := false }).move p (.unlock i))
  | unlock {p i} (hp : s.phase p = .unlock i) :
      Step s (.go p) ((s.setOwner i none).move p (.drop i))
  | drop {p i} (hp : s.phase p = .drop i) : Step s (.go p) ((s.lose p i).move p .idle)
  | bear {p dev inum type} (hp : s.phase p = .scan dev inum type)
      (ht : (s.disk (dev, inum)).type = none) :
      Step s (.go p) ((s.bear (dev, inum) type).move p (.born dev inum))
  | scan {p dev inum type} {x : Phase} (hp : s.phase p = .scan dev inum type)
      (hx : x = .idle ∨ x = .scan dev (inum + 1) type) : Step s (.go p) (s.move p x)
  | born {p dev inum t} (hp : s.phase p = .born dev inum)
      (ht : (s.move p .idle).iget p dev inum = .ok t) : Step s (.go p) t

theorem go_step {p : Fin n} {s t : Itable n} (ht : s.go p = .ok t) : Step s (.go p) t := by
  unfold Itable.go at ht
  cases hx : s.phase p with
  | idle =>
    rw [hx] at ht
    cases ht
  | load i =>
    simp only [hx] at ht
    by_cases hv : (s.slot i).valid = true
    · rw [if_pos hv] at ht
      cases ht
      exact .loaded hx hv
    · rw [if_neg hv, unless_ok] at ht
      obtain ⟨htype, ht⟩ := ht
      cases ht
      exact .read hx htype
  | scan dev inum type =>
    simp only [hx] at ht
    split at ht
    · split at ht <;> cases ht
      · exact .bear hx (by assumption)
      · exact .scan hx (.inr rfl)
    · cases ht
      exact .scan hx (.inl rfl)
  | born dev inum =>
    simp only [hx] at ht
    exact .born hx ht
  | trunc i | mark i | clear i | unlock i | drop i =>
    simp only [hx, Except.ok.injEq] at ht
    subst ht
    constructor
    exact hx

variable {a : Act n} {k : Nat × Nat} {dev inum : Nat}

theorem act_step {s t : Itable n} (ht : s.act a = .ok t) : Step s a t := by
  cases a with
  | iget p dev inum =>
    obtain ⟨hp, ht⟩ := guard_ok.mp ht
    exact .iget hp ht
  | idup p i =>
    obtain ⟨⟨hp, hr⟩, ht⟩ := guard_ok.mp ht
    cases ht
    exact .idup hp hr
  | hand p q i =>
    obtain ⟨⟨hp, hr, ho⟩, ht⟩ := guard_ok.mp ht
    cases ht
    exact .hand hp hr ho
  | ilock p i =>
    obtain ⟨⟨hp, hr⟩, ht⟩ := guard_ok.mp ht
    obtain ⟨ho, ht⟩ := guard_ok.mp (unless_ok.mp ht).2
    cases ht
    exact .ilock hp hr ho
  | edit p i d =>
    obtain ⟨⟨hp, ho, hd⟩, ht⟩ := guard_ok.mp ht
    cases ht
    exact .edit hp ho hd
  | iupdate p i =>
    obtain ⟨⟨hp, ho⟩, ht⟩ := guard_ok.mp ht
    cases ht
    exact .iupdate hp ho
  | iunlock p i =>
    obtain ⟨hp, ht⟩ := guard_ok.mp ht
    obtain ⟨hc, ht⟩ := unless_ok.mp ht
    cases ht
    exact .iunlock hp (not_not.mp fun ho => hc (.inl ho))
  | iput p i =>
    obtain ⟨⟨hp, hr, ho⟩, ht⟩ := guard_ok.mp ht
    split at ht
    · rename_i hc
      obtain ⟨hn, ht⟩ := guard_ok.mp ht
      cases ht
      exact .free hp hr hn hc
    · cases ht
      exact .iput hp hr ho
  | ialloc p dev type =>
    obtain ⟨hp, ht⟩ := guard_ok.mp ht
    cases ht
    exact .ialloc hp
  | go p => exact go_step ht

structure Sane (s : Itable n) : Prop where
  uniq : ∀ i j, 0 < (s.slot i).ref → 0 < (s.slot j).ref → (s.slot i).key = (s.slot j).key → i = j
  sum : ∀ i, ∑ p, (s.refs p i : Int) = (s.slot i).ref
  lock : ∀ i p, s.owner i = some p → 0 < s.refs p i
  locked : ∀ p i, (s.phase p).locked = some i → s.owner i = some p
  held : ∀ i p, s.owner i = some p →
    (s.slot i).valid = true ∨ s.phase p = .load i ∨ s.phase p = .unlock i
  drop : ∀ p i, s.phase p = .drop i → 0 < s.refs p i ∧ s.owner i ≠ some p

/-- A valid entry has the type that is on disk, until it is cleared by the process that has
freed the inode; this needs no condition either. -/
def Typed (s : Itable n) : Prop :=
  ∀ i, 0 < (s.slot i).ref → (s.slot i).valid = true →
    ((s.slot i).d.type ≠ none ∧ (s.slot i).d.type = (s.disk (s.slot i).key).type) ∨
      ∃ p, s.phase p = .clear i

section Sane
variable {s : Itable n} {p q : Fin n} {i j : Fin NINODE}

theorem inTable?_some (h : s.inTable? k = some i) :
    0 < (s.slot i).ref ∧ (s.slot i).key = k := by
  simpa using List.find?_some h

theorem inTable?_none (h : s.inTable? k = none) (hr : 0 < (s.slot i).ref) :
    (s.slot i).key ≠ k := fun hk => by
  have hi := List.find?_eq_none.mp h i (List.mem_finRange i)
  simp [hr, hk] at hi

theorem empty?_some (h : s.empty? = some i) : (s.slot i).ref = 0 := by
  simpa using List.find?_some h

theorem Sane.le_ref (h : s.Sane) (p : Fin n) (i : Fin NINODE) : s.refs p i ≤ (s.slot i).ref := by
  have hle := Finset.single_le_sum (f := fun q => (s.refs q i : Int))
    (fun q _ => Int.natCast_nonneg _) (Finset.mem_univ p)
  rw [h.sum] at hle
  exact_mod_cast hle

theorem Sane.two_le (h : s.Sane) (hp : 0 < s.refs p i) (hq : 0 < s.refs q i) (hne : p ≠ q) :
    2 ≤ (s.slot i).ref := by
  have hle := Finset.sum_le_sum_of_subset_of_nonneg (Finset.subset_univ {p, q})
    (f := fun q => (s.refs q i : Int)) fun q _ _ => Int.natCast_nonneg _
  rw [h.sum, Finset.sum_pair hne] at hle
  omega

theorem Sane.locked_ref (h : s.Sane) (hp : (s.phase p).locked = some i) : 0 < s.refs p i :=
  h.lock i p (h.locked p i hp)

theorem Sane.leaves_ref (h : s.Sane) (hp : (s.phase p).leaves = some i) : 0 < s.refs p i := by
  cases hx : s.phase p <;> rw [hx] at hp <;> cases hp
  · exact h.locked_ref (by rw [hx]; rfl)
  · exact h.locked_ref (by rw [hx]; rfl)
  · exact (h.drop p i hx).1

theorem Sane.frees_ref (h : s.Sane) (hp : (s.phase p).frees = some i) : 0 < s.refs p i := by
  cases hx : s.phase p <;> rw [hx] at hp <;> cases hp
  all_goals exact h.locked_ref (by rw [hx]; rfl)

theorem sum_note (s : Itable n) (p : Fin n) (i j : Fin NINODE) (k : Nat) :
    ∑ q, ((s.note p i k).refs q j : Int) =
      ∑ q, (s.refs q j : Int) - (if j = i then s.refs p i else 0) + (if j = i then k else 0) := by
  have hsum := Shared.sum_update s.refs p (update (s.refs p) i k)
    fun f => (f j : Int)
  refine hsum.trans ?_
  by_cases hj : j = i
  · simp [hj]
  · simp [hj]

theorem note_refs (s : Itable n) (p q : Fin n) (i j : Fin NINODE) (k : Nat) :
    (s.note p i k).refs q j = if q = p ∧ j = i then k else s.refs q j := by
  unfold note
  by_cases hq : q = p
  · subst hq
    by_cases hj : j = i
    · simp [hj]
    · simp [hj]
  · simp [hq]

theorem move_self (hp : s.phase p = .idle) : s.move p .idle = s := by
  unfold move
  rw [← hp, update_eq_self]

variable {x : Phase} {t : Itable n}

section
variable (h : s.Sane)
include h

theorem Sane.move (hx : ∀ i, x.locked = some i → s.owner i = some p)
    (hd : ∀ i, x = .drop i → 0 < s.refs p i ∧ s.owner i ≠ some p)
    (hh : ∀ i, s.owner i = some p → (s.slot i).valid = true ∨ x = .load i ∨ x = .unlock i) :
    (s.move p x).Sane where
  uniq := h.uniq
  sum := h.sum
  lock := h.lock
  locked q j hq := by
    by_cases hqp : q = p
    · subst hqp
      exact hx j (by simpa [Itable.move] using hq)
    · exact h.locked q j (by simpa [Itable.move, hqp] using hq)
  held j q hq := by
    by_cases hqp : q = p
    · subst hqp
      simpa [Itable.move] using hh j hq
    · simpa [Itable.move, hqp] using h.held j q hq
  drop q j hq := by
    by_cases hqp : q = p
    · subst hqp
      exact hd j (by simpa [Itable.move] using hq)
    · exact h.drop q j (by simpa [Itable.move, hqp] using hq)

theorem Sane.quiet (hp : (s.phase p).locked = none) (hx : x.locked = none) (hd : ∀ i, x ≠ .drop i) :
    (s.move p x).Sane := by
  refine h.move (fun i hi => ?_) (fun i hi => absurd hi (hd i)) fun i hi => ?_
  · rw [hx] at hi
    cases hi
  · refine (h.held i p hi).imp_right fun hl => ?_
    rcases hl with hl | hl <;> rw [hl] at hp <;> cases hp

theorem Sane.setSlot {e : Slot} (hk : e.key = (s.slot i).key) (hr : e.ref = (s.slot i).ref)
    (hv : ∀ p, s.owner i = some p → e.valid = true ∨ s.phase p = .load i ∨ s.phase p = .unlock i) :
    (s.setSlot i e).Sane := by
  have hkey : ∀ j, ((s.setSlot i e).slot j).key = (s.slot j).key ∧
      ((s.setSlot i e).slot j).ref = (s.slot j).ref := fun j => by
    by_cases hj : j = i
    · simp [Itable.setSlot, hj, hk, hr]
    · simp [Itable.setSlot, hj]
  refine ⟨fun a b ha hb hab => ?_, fun j => ?_, h.lock, h.locked, fun j q hq => ?_, h.drop⟩
  · rw [(hkey a).2] at ha
    rw [(hkey b).2] at hb
    rw [(hkey a).1, (hkey b).1] at hab
    exact h.uniq a b ha hb hab
  · rw [(hkey j).2]
    exact h.sum j
  · by_cases hj : j = i
    · subst hj
      simpa [Itable.setSlot] using hv q hq
    · simpa [Itable.setSlot, hj] using h.held j q hq

theorem Sane.change {e : Slot} {k : Nat}
    (hu : ∀ j, j ≠ i → 0 < e.ref → 0 < (s.slot j).ref → (s.slot j).key ≠ e.key)
    (hsum : (e.ref : Int) = (s.slot i).ref - s.refs p i + k)
    (hk : s.owner i = some p ∨ s.phase p = .drop i → 0 < k)
    (hv : ∀ q, s.owner i = some q → e.valid = true ∨ s.phase q = .load i ∨ s.phase q = .unlock i) :
    ((s.setSlot i e).note p i k).Sane := by
  have hslot : ∀ j, (j = i ∧ ((s.setSlot i e).note p i k).slot j = e) ∨
      (j ≠ i ∧ ((s.setSlot i e).note p i k).slot j = s.slot j) := fun j => by
    by_cases hj : j = i
    · exact .inl ⟨hj, by rw [hj]; exact update_self ..⟩
    · exact .inr ⟨hj, update_of_ne hj ..⟩
  have hrefs : ∀ q j, (s.owner j = some q ∨ s.phase q = .drop j) → 0 < s.refs q j →
      0 < ((s.setSlot i e).note p i k).refs q j := fun q j hq hr => by
    rw [note_refs]
    split
    · rename_i hc
      rw [hc.1, hc.2] at hq
      exact hk hq
    · exact hr
  refine ⟨fun a b ha hb hab => ?_, fun j => ?_, fun j q hq => hrefs q j (.inl hq) (h.lock j q hq),
    h.locked, fun j q hq => ?_,
    fun q j hq => ⟨hrefs q j (.inr hq) (h.drop q j hq).1, (h.drop q j hq).2⟩⟩
  · rcases hslot a with ⟨rfl, hea⟩ | ⟨hai, hea⟩ <;> rcases hslot b with ⟨rfl, heb⟩ | ⟨hbi, heb⟩
    · rfl
    · rw [hea] at ha hab
      rw [heb] at hb hab
      exact absurd hab.symm (hu b hbi ha hb)
    · rw [hea] at ha hab
      rw [heb] at hb hab
      exact absurd hab (hu a hai hb ha)
    · rw [hea] at ha hab
      rw [heb] at hb hab
      exact h.uniq a b ha hb hab
  · have hj := h.sum j
    rw [sum_note]
    change ∑ q, (s.refs q j : Int) - _ + _ = _
    rcases hslot j with ⟨rfl, he⟩ | ⟨hji, he⟩ <;> rw [he, hj]
    · rw [if_pos rfl, if_pos rfl]
      exact hsum.symm
    · rw [if_neg hji, if_neg hji]
      omega
  · rcases hslot j with ⟨rfl, he⟩ | ⟨-, he⟩ <;> rw [he]
    · exact hv q hq
    · exact h.held j q hq

theorem Sane.gain (p : Fin n) (hr : 0 < (s.slot i).ref) : (s.gain p i).Sane :=
  h.change (fun j hj _ hpos hk => hj (h.uniq j i hpos hr hk)) (by push_cast; omega)
    (fun _ => Nat.succ_pos _) (h.held i)

theorem Sane.lose (hp : 0 < s.refs p i) (ho : s.owner i = some p → 1 < s.refs p i)
    (hd : s.phase p ≠ .drop i) : (s.lose p i).Sane := by
  have hle := h.le_ref p i
  refine h.change (fun j hj _ hpos hk => hj (h.uniq j i hpos (by omega) hk)) ?_ (fun hx => ?_)
    (h.held i)
  · change (((s.slot i).ref - 1 : Nat) : Int) = _
    omega
  · exact Nat.sub_pos_of_lt (ho (hx.resolve_right hd))

theorem Sane.fill (p : Fin n) (hr : (s.slot i).ref = 0)
    (hk : ∀ j, 0 < (s.slot j).ref → (s.slot j).key ≠ (dev, inum)) :
    (s.fill p i dev inum).Sane := by
  have hle := fun q => h.le_ref q i
  refine h.change (fun j _ _ hpos => hk j hpos) ?_ (fun _ => Nat.succ_pos _) fun q hq => ?_
  · have hp := hle p
    simp only [hr]
    omega
  · have hq := (h.lock i q hq).trans_le (hle q)
    omega

end

theorem iget_cases (ht : s.iget p dev inum = .ok t) :
    (∃ i, s.inTable? (dev, inum) = some i ∧ t = s.gain p i) ∨
      ∃ i, s.inTable? (dev, inum) = none ∧ s.empty? = some i ∧ t = s.fill p i dev inum := by
  unfold Itable.iget at ht
  cases hi : s.inTable? (dev, inum) with
  | some i =>
    rw [hi] at ht
    cases ht
    exact .inl ⟨i, rfl, rfl⟩
  | none =>
    rw [hi] at ht
    cases he : s.empty? with
    | some i =>
      rw [he] at ht
      cases ht
      exact .inr ⟨i, rfl, rfl, rfl⟩
    | none =>
      rw [he] at ht
      cases ht

section
variable (h : s.Sane)
include h

theorem Sane.iget (ht : s.iget p dev inum = .ok t) :
    t.Sane := by
  rcases iget_cases ht with ⟨i, hi, rfl⟩ | ⟨i, hi, he, rfl⟩
  · exact h.gain p (inTable?_some hi).1
  · exact h.fill p (empty?_some he) fun j hj => inTable?_none hi hj

theorem Sane.hand (q : Fin n) (hp : 0 < s.refs p i) (ho : s.owner i = some p → 1 < s.refs p i)
    (hi : s.phase p = .idle) :
    ((s.note p i (s.refs p i - 1)).note q i
      ((s.note p i (s.refs p i - 1)).refs q i + 1)).Sane := by
  have hrefs : ∀ r j, ¬(r = p ∧ j = i) → 0 < s.refs r j → 0 < ((s.note p i (s.refs p i - 1)).note
      q i ((s.note p i (s.refs p i - 1)).refs q i + 1)).refs r j := fun r j hne hr => by
    rw [note_refs]
    split
    · exact Nat.succ_pos _
    · rw [note_refs, if_neg hne]
      exact hr
  refine ⟨h.uniq, fun j => ?_, fun j r hr => ?_, h.locked, h.held,
    fun r j hr => ⟨hrefs r j ?_ (h.drop r j hr).1, (h.drop r j hr).2⟩⟩
  · rw [sum_note, sum_note]
    have hsum := h.sum j
    by_cases hj : j = i
    · subst hj
      simp only [if_true]
      change _ = ((s.slot j).ref : Int)
      omega
    · simpa [hj, note] using hsum
  · by_cases hc : r = p ∧ j = i
    · obtain ⟨rfl, rfl⟩ := hc
      rw [note_refs]
      split
      · exact Nat.succ_pos _
      · rw [note_refs, if_pos ⟨rfl, rfl⟩]
        exact Nat.sub_pos_of_lt (ho hr)
    · exact hrefs r j hc (h.lock j r hr)
  · rintro ⟨rfl, rfl⟩
    have hr : s.phase r = .drop j := hr
    rw [hi] at hr
    cases hr

theorem Sane.acquire (hp : 0 < s.refs p i) (ho : s.owner i = none) (hi : s.phase p = .idle)
    (hx : x.locked = some i) (hv : (s.slot i).valid = true ∨ x = .load i) :
    ((s.setOwner i (some p)).move p x).Sane := by
  have howner : ∀ j r, (s.setOwner i (some p)).owner j = some r ↔
      (j = i ∧ r = p) ∨ s.owner j = some r := fun j r => by
    by_cases hj : j = i
    · subst hj
      simp [setOwner, ho, eq_comm]
    · simp [setOwner, hj]
  have hidle : ∀ r j, (s.phase r).locked = some j → r ≠ p := fun r j hr he => by
    rw [he, hi] at hr
    cases hr
  refine ⟨h.uniq, h.sum, fun j r hr => ?_, fun r j hr => ?_, fun j r hr => ?_, fun r j hr => ?_⟩
  · rcases (howner j r).mp hr with ⟨rfl, rfl⟩ | hr
    · exact hp
    · exact h.lock j r hr
  · by_cases hrp : r = p
    · subst hrp
      have hr : x.locked = some j := by simpa [Itable.move] using hr
      rw [hx] at hr
      exact (howner j r).mpr (.inl ⟨(Option.some.inj hr).symm, rfl⟩)
    · exact (howner j r).mpr (.inr (h.locked r j (by simpa [Itable.move, setOwner, hrp] using hr)))
  · rcases (howner j r).mp hr with ⟨rfl, rfl⟩ | hr
    · rcases hv with hv | hv
      · exact .inl hv
      · exact .inr (.inl (by simp [Itable.move, hv]))
    · have hheld := h.held j r hr
      by_cases hrp : r = p
      · subst hrp
        rw [hi] at hheld
        exact .inl (hheld.resolve_right (by simp))
      · simpa [Itable.move, setOwner, hrp] using hheld
  · by_cases hrp : r = p
    · subst hrp
      have hr : x = .drop j := by simpa [Itable.move] using hr
      rw [hr] at hx
      cases hx
    · obtain ⟨hpos, hne⟩ := h.drop r j (by simpa [Itable.move, setOwner, hrp] using hr)
      exact ⟨hpos, fun ho => hne (((howner j r).mp ho).resolve_left fun he => hrp he.2)⟩

theorem Sane.release (ho : s.owner i = some p) (hx : x.locked = none)
    (hd : ∀ j, x = .drop j → j = i) (hp : ∀ j, (s.phase p).locked = some j → j = i) :
    ((s.setOwner i none).move p x).Sane := by
  have howner : ∀ j r, (s.setOwner i none).owner j = some r ↔ j ≠ i ∧ s.owner j = some r :=
    fun j r => by
    by_cases hj : j = i
    · simp [setOwner, hj]
    · simp [setOwner, hj]
  refine ⟨h.uniq, h.sum, fun j r hr => h.lock j r ((howner j r).mp hr).2, fun r j hr => ?_,
    fun j r hr => ?_, fun r j hr => ?_⟩
  · by_cases hrp : r = p
    · subst hrp
      have hr : x.locked = some j := by simpa [Itable.move] using hr
      rw [hx] at hr
      cases hr
    · have hr := h.locked r j (by simpa [Itable.move, setOwner, hrp] using hr)
      refine (howner j r).mpr ⟨fun hj => ?_, hr⟩
      rw [hj, ho] at hr
      exact hrp (Option.some.inj hr).symm
  · obtain ⟨hj, hr⟩ := (howner j r).mp hr
    have hheld := h.held j r hr
    by_cases hrp : r = p
    · subst hrp
      refine .inl (hheld.resolve_right fun hl => hj (hp j ?_))
      rcases hl with hl | hl <;> rw [hl] <;> rfl
    · simpa [Itable.move, setOwner, hrp] using hheld
  · by_cases hrp : r = p
    · subst hrp
      have hr : x = .drop j := by simpa [Itable.move] using hr
      rw [hd j hr]
      exact ⟨h.lock i r ho, fun he => ((howner i r).mp he).1 rfl⟩
    · obtain ⟨hpos, hne⟩ := h.drop r j (by simpa [Itable.move, setOwner, hrp] using hr)
      exact ⟨hpos, fun he => hne ((howner j r).mp he).2⟩

theorem Sane.other (disk : Nat × Nat → Dinode) (newborn : Nat × Nat → Option InodeType) :
    Sane { s with disk := disk, newborn := newborn } :=
  ⟨h.uniq, h.sum, h.lock, h.locked, h.held, h.drop⟩

theorem Sane.next (hp : (s.phase p).locked = some i) (hx : ∀ j, x.locked = some j → j = i)
    (hd : ∀ j, x ≠ .drop j) (hv : (s.slot i).valid = true ∨ x = .load i ∨ x = .unlock i) :
    (s.move p x).Sane := by
  have hown := h.locked p i hp
  refine h.move (fun j hj => hx j hj ▸ hown) (fun j hj => absurd hj (hd j)) fun j hj => ?_
  by_cases hji : j = i
  · rw [hji]
    exact hv
  · refine .inl ((h.held j p hj).resolve_right fun hl => hji ?_)
    rcases hl with hl | hl <;> rw [hl] at hp <;> exact Option.some.inj hp

theorem Sane.store (hv : (s.slot i).valid = true) (d : Dinode) : (s.store i d).Sane :=
  Sane.other (h.setSlot (e := { s.slot i with d := d }) rfl rfl fun _ _ => .inl hv) _ _

end

theorem store_valid (s : Itable n) (i j : Fin NINODE) (d : Dinode) :
    ((s.store i d).slot j).valid = (s.slot j).valid := by
  by_cases hj : j = i
  · simp [Itable.store, Itable.setSlot, hj]
  · simp [Itable.store, Itable.setSlot, hj]

theorem Sane.valid (h : s.Sane) (hp : (s.phase p).locked = some i) (hl : s.phase p ≠ .load i)
    (hu : s.phase p ≠ .unlock i) : (s.slot i).valid = true :=
  (h.held i p (h.locked p i hp)).resolve_right fun hx => hx.elim hl hu

theorem Sane.idle_valid (h : s.Sane) (hp : s.phase p = .idle) (ho : s.owner i = some p) :
    (s.slot i).valid = true :=
  (h.held i p ho).resolve_right fun hl => by
    rw [hp] at hl
    rcases hl with hl | hl <;> cases hl

theorem Sane.act (h : s.Sane) (ht : s.act a = .ok t) : t.Sane := by
  have hlocked : ∀ {p x i}, s.phase p = x → x.locked = some i → (s.phase p).locked = some i :=
    fun hp hx => by rw [hp]; exact hx
  have hquiet : ∀ {p x y}, s.phase p = x → x.locked = none → y.locked = none → (∀ i, y ≠ .drop i) →
      (s.move p y).Sane := fun hp hx hy hd => h.quiet (by rw [hp]; exact hx) hy hd
  cases act_step ht with
  | iget _ ht => exact h.iget ht
  | idup _ hr => exact h.gain _ (hr.trans_le (h.le_ref _ _))
  | hand hp hr ho => exact h.hand _ hr ho hp
  | ilock hp hr ho => exact h.acquire hr ho hp rfl (.inr rfl)
  | edit => exact h.setSlot rfl rfl (h.held _)
  | iupdate hp ho => exact h.store (h.idle_valid hp ho) _
  | iunlock hp ho =>
    have hrel := h.release ho (x := .idle) rfl (fun j hj => (by cases hj)) fun j hj => by
      rw [hp] at hj
      cases hj
    rwa [move_self (by exact hp)] at hrel
  | iput hp hr ho => exact h.lose hr ho (by rw [hp]; simp)
  | free hp hr ho hc => exact h.acquire hr ho hp rfl (.inl hc.2.1)
  | ialloc hp => exact hquiet hp rfl rfl fun i hi => (by cases hi)
  | loaded hp hv =>
    exact h.next (hlocked hp rfl) (fun j hj => (by cases hj)) (fun j hj => (by cases hj)) (.inl hv)
  | @read p i hp =>
    have hread : (s.read i).Sane := Sane.other (h.setSlot (i := i)
      (e := { s.slot i with valid := true, d := s.disk (s.slot i).key }) rfl rfl
      fun _ _ => .inl rfl) _ _
    exact hread.next (hlocked hp rfl) (fun j hj => (by cases hj)) (fun j hj => (by cases hj))
      (.inl (by simp [Itable.read, Itable.setSlot]))
  | trunc hp | mark hp =>
    have hv := h.valid (hlocked hp rfl) (by simp [hp]) (by simp [hp])
    exact (h.store hv _).next (hlocked hp rfl) (fun j hj => (by cases hj; rfl))
      (fun j hj => (by cases hj)) (.inl ((store_valid ..).trans hv))
  | clear hp =>
    -- `valid` is cleared first and the process is at `unlock` only then, so the two go together
    have hmove := h.next (x := .unlock _) (hlocked hp rfl) (fun j hj => (by cases hj; rfl))
      (fun j hj => (by cases hj)) (.inr (.inr rfl))
    refine hmove.setSlot rfl rfl fun q hq => .inr (.inr ?_)
    cases (h.locked _ _ (hlocked hp rfl)).symm.trans hq
    exact update_self ..
  | unlock hp =>
    refine h.release (h.locked _ _ (hlocked hp rfl)) rfl (fun j hj => by cases hj; rfl) fun j hj => ?_
    rw [hp] at hj
    cases hj
    rfl
  | drop hp =>
    exact (hquiet hp rfl rfl fun i hi => (by cases hi)).lose (h.drop _ _ hp).1
      (fun ho => absurd ho (h.drop _ _ hp).2) (by simp [Itable.move])
  | bear hp => exact (h.other _ _).quiet (by rw [hp]; rfl) rfl fun i hi => (by cases hi)
  | scan hp hx =>
    rcases hx with rfl | rfl
    · exact hquiet hp rfl rfl fun i hi => (by cases hi)
    · exact hquiet hp rfl rfl fun i hi => (by cases hi)
  | born hp ht => exact (hquiet hp rfl rfl fun i hi => (by cases hi)).iget ht

end Sane

section Typed
variable {s t : Itable n} {p q : Fin n} {i j : Fin NINODE}

theorem Sane.clear_only (h : s.Sane) (hp : (s.phase p).locked = some i)
    (hq : s.phase q = .clear i) : p = q :=
  Option.some.inj ((h.locked p i hp).symm.trans (h.locked q i (by rw [hq]; rfl)))

theorem Sane.not_clear (h : s.Sane) (hi : s.owner i = some p) (hp : s.phase p ≠ .clear i)
    (q : Fin n) : s.phase q ≠ .clear i := fun hq => by
  have hown := h.locked q i (by rw [hq]; rfl)
  rw [Option.some.inj (hi.symm.trans hown)] at hp
  exact hp hq

section
variable (h : s.Typed)
include h

theorem Typed.type (hs : s.Sane) (hi : s.owner i = some p) (hp : s.phase p ≠ .clear i)
    (hv : (s.slot i).valid = true) :
    (s.slot i).d.type ≠ none ∧ (s.slot i).d.type = (s.disk (s.slot i).key).type :=
  (h i ((hs.lock i p hi).trans_le (hs.le_ref p i)) hv).resolve_right fun ⟨q, hq⟩ =>
    hs.not_clear hi hp q hq

theorem Typed.frame
    (hslot : ∀ j, 0 < (t.slot j).ref → (t.slot j).valid = true →
      0 < (s.slot j).ref ∧ (s.slot j).valid = true ∧ (t.slot j).d.type = (s.slot j).d.type ∧
      (t.disk (t.slot j).key).type = (s.disk (s.slot j).key).type)
    (hclear : ∀ j q, (t.slot j).valid = true → s.phase q = .clear j → t.phase q = .clear j) :
    t.Typed := fun j hj hv => by
  obtain ⟨hr, hv', hd, hk⟩ := hslot j hj hv
  rw [hd, hk]
  exact (h j hr hv').imp_right fun ⟨q, hq⟩ => ⟨q, hclear j q hv hq⟩

theorem Typed.move (hp : ∀ i, s.phase p ≠ .clear i) (x : Phase) : (s.move p x).Typed :=
  h.frame (fun _ hr hv => ⟨hr, hv, rfl, rfl⟩) fun j q _ hq => by
    have hqp : q ≠ p := fun he => hp j (he ▸ hq)
    exact (update_of_ne hqp _ _).trans hq

theorem Typed.gain (p : Fin n) (hr : 0 < (s.slot i).ref) : (s.gain p i).Typed := by
  refine h.frame (fun j hj hv => ?_) fun _ _ _ hq => hq
  by_cases hji : j = i
  · subst hji
    simpa [Itable.gain, setSlot, note, Slot.key, hr] using hv
  · simpa [Itable.gain, setSlot, note, hji] using And.intro hj hv

theorem Typed.iget (ht : s.iget p dev inum = .ok t) : t.Typed := by
  rcases iget_cases ht with ⟨i, hi, rfl⟩ | ⟨i, -, -, rfl⟩
  · exact h.gain p (inTable?_some hi).1
  · refine h.frame (fun j hj hv => ?_) fun _ _ _ hq => hq
    have hji : j ≠ i := fun hji => by simp [hji, Itable.fill, setSlot, note] at hv
    simpa [Itable.fill, setSlot, note, hji] using And.intro hj hv

theorem Typed.store (hs : s.Sane) (hi : s.owner i = some p) (hp : s.phase p ≠ .clear i)
    (hv : (s.slot i).valid = true) {d : Dinode} (hd : d.type = (s.slot i).d.type) :
    (s.store i d).Typed := by
  have hty := h.type hs hi hp hv
  have hr := (hs.lock i p hi).trans_le (hs.le_ref p i)
  refine h.frame (fun j hj hval => ?_) fun _ _ _ hq => hq
  by_cases hji : j = i
  · subst hji
    refine ⟨hr, hv, by simpa [Itable.store, setSlot] using hd, ?_⟩
    simpa [Itable.store, setSlot, Slot.key] using hd.trans hty.2
  · have hj : 0 < (s.slot j).ref := by simpa [Itable.store, setSlot, hji] using hj
    have hk : (s.slot j).key ≠ (s.slot i).key := fun hk => hji (hs.uniq j i hj hr hk)
    refine ⟨hj, by simpa [Itable.store, setSlot, hji] using hval, by
      simp [Itable.store, setSlot, hji], by simp [Itable.store, setSlot, hji, hk]⟩

theorem Typed.lose (p : Fin n) (i : Fin NINODE) : (s.lose p i).Typed := by
  refine h.frame (fun j hj hv => ?_) fun _ _ _ hq => hq
  by_cases hji : j = i
  · subst hji
    have hj : 0 < (s.slot j).ref - 1 := by simpa [Itable.lose, setSlot, note] using hj
    refine ⟨by omega, by simpa [Itable.lose, setSlot, note] using hv, ?_, ?_⟩ <;>
      simp [Itable.lose, setSlot, note, Slot.key]
  · simpa [Itable.lose, setSlot, note, hji] using And.intro hj hv

theorem Typed.read (ht : (s.disk (s.slot i).key).type ≠ none) : (s.read i).Typed :=
  fun j hj hv => by
  by_cases hji : j = i
  · subst hji
    exact .inl (by simpa [Itable.read, setSlot, Slot.key] using ht)
  · simp only [Itable.read, setSlot, update_of_ne hji] at hj hv ⊢
    exact h j hj hv

theorem Typed.mark (hs : s.Sane) (hp : s.phase p = .mark i) (d : Dinode) :
    ((s.store i d).move p (.clear i)).Typed := fun j hj hv => by
  have hr := (hs.locked_ref (p := p) (i := i) (by rw [hp]; rfl)).trans_le (hs.le_ref p i)
  by_cases hji : j = i
  · exact .inr ⟨p, by rw [hji]; exact update_self ..⟩
  · simp only [Itable.store, Itable.move, setSlot, update_of_ne hji] at hj hv ⊢
    have hk : (s.slot j).key ≠ (s.slot i).key := fun hk => hji (hs.uniq j i hj hr hk)
    rw [update_of_ne hk]
    refine (h j hj hv).imp_right fun ⟨q, hq⟩ => ⟨q, ?_⟩
    have hqp : q ≠ p := fun he => by
      rw [he, hp] at hq
      cases hq
    exact (update_of_ne hqp _ _).trans hq

theorem Typed.clear (hp : s.phase p = .clear i) :
    ((s.setSlot i { s.slot i with valid := false }).move p (.unlock i)).Typed := by
  have hval : ∀ j, (((s.setSlot i { s.slot i with valid := false }).move p (.unlock i)).slot
      j).valid = true → j ≠ i := fun j hv hji => by
    simp [hji, Itable.move, setSlot] at hv
  refine h.frame (fun j hj hv => ?_) fun j q hv hq => ?_
  · have hji := hval j hv
    simpa [Itable.move, setSlot, hji] using And.intro hj hv
  · have hqp : q ≠ p := fun he => by
      rw [he, hp, Phase.clear.injEq] at hq
      exact hval j hv hq.symm
    exact (update_of_ne hqp _ _).trans hq

theorem Typed.act (hs : s.Sane) (ht : s.act a = .ok t) : t.Typed := by
  have hnot : ∀ {p x}, s.phase p = x → (∀ j, x ≠ .clear j) → ∀ j, s.phase p ≠ .clear j :=
    fun hp hx j => by rw [hp]; exact hx j
  cases act_step ht with
  | iget _ ht => exact h.iget ht
  | idup _ hr => exact h.gain _ (hr.trans_le (hs.le_ref _ _))
  | hand | iunlock => exact h
  | ilock hp | free hp =>
    exact Typed.move (s := s.setOwner _ _) h (hnot hp fun j => by simp) _
  | @edit p i d hp ho htype =>
    refine h.frame (fun j hj hv => ?_) fun _ _ _ hq => hq
    by_cases hji : j = i
    · subst hji
      refine ⟨by simpa [setSlot] using hj, by simpa [setSlot] using hv, by simpa [setSlot] using htype,
        by simp [setSlot, Slot.key]⟩
    · simpa [setSlot, hji] using And.intro hj hv
  | iupdate hp ho => exact h.store hs ho (by simp [hp]) (hs.idle_valid hp ho) rfl
  | iput => exact h.lose _ _
  | ialloc hp | loaded hp | scan hp => exact h.move (hnot hp fun j => by simp) _
  | read hp htype => exact (h.read htype).move (hnot hp fun j => by simp) _
  | @trunc p i hp =>
    have hv := hs.valid (by rw [hp]; rfl) (by simp [hp]) (by simp [hp] : s.phase p ≠ .unlock i)
    exact (h.store hs (hs.locked p i (by rw [hp]; rfl)) (by simp [hp]) hv
      (d := { (s.slot i).d with size := 0, addrs := fun _ => 0 }) rfl).move
      (hnot hp fun j => by simp) _
  | mark hp => exact h.mark hs hp _
  | clear hp => exact h.clear hp
  | unlock hp => exact Typed.move (s := s.setOwner _ none) h (hnot hp fun j => by simp) _
  | drop hp => exact (h.lose _ _).move (hnot hp fun j => by simp) _
  | @bear p dev inum type hp hfree =>
    refine Typed.move (s := s.bear (dev, inum) type) (fun j hj hv => ?_) (hnot hp fun j => by simp) _
    refine (h j hj hv).imp_left fun hl => ⟨hl.1, hl.2.trans ?_⟩
    have hk : (s.slot j).key ≠ (dev, inum) := fun hk => hl.1 (by rw [hl.2, hk]; exact hfree)
    exact congrArg Dinode.type (update_of_ne hk _ _).symm
  | born hp ht => exact (h.move (hnot hp fun j => by simp) _).iget ht

end

end Typed

theorem boot_sane (n ninodes : Nat) (disk : Nat × Nat → Dinode) : (boot n ninodes disk).Sane where
  uniq _ _ hi := by cases hi
  sum _ := by simp [boot]
  lock _ _ ho := by cases ho
  locked _ _ hl := by cases hl
  held _ _ ho := by cases ho
  drop _ _ hd := by cases hd

theorem boot_typed (n ninodes : Nat) (disk : Nat × Nat → Dinode) : (boot n ninodes disk).Typed :=
  fun _ hr => by cases hr

section Effects
variable {s t : Itable n} {p q : Fin n} {i : Fin NINODE}

theorem iget_disk (ht : s.iget p dev inum = .ok t) :
    t.disk = s.disk ∧ t.newborn = s.newborn ∧
      ∃ i, 0 < t.refs p i ∧ (t.slot i).key = (dev, inum) := by
  rcases iget_cases ht with ⟨i, hi, rfl⟩ | ⟨i, -, -, rfl⟩
  · refine ⟨rfl, rfl, i, by simp [gain, note], ?_⟩
    rw [← (inTable?_some hi).2]
    simp [gain, setSlot, note, Slot.key]
  · exact ⟨rfl, rfl, i, by simp [fill, note], by simp [fill, setSlot, note, Slot.key]⟩

inductive Wrote (s : Itable n) (a : Act n) (t : Itable n) : Prop where
  | nothing (hd : t.disk = s.disk) (hn : t.newborn = s.newborn)
  | read (p : Fin n) (i : Fin NINODE) (ha : a = .go p) (hp : s.phase p = .load i)
      (hd : t.disk = s.disk) (hn : t.newborn = update s.newborn (s.slot i).key none)
  | update (p : Fin n) (i : Fin NINODE) (d : Dinode) (ho : s.owner i = some p)
      (hp : s.phase p = .idle ∨ s.phase p = .trunc i) (ht : d.type = (s.slot i).d.type)
      (hd : t.disk = update s.disk (s.slot i).key d) (hn : t.newborn = s.newborn)
  | mark (p : Fin n) (i : Fin NINODE) (d : Dinode) (ha : a = .go p) (hp : s.phase p = .mark i)
      (ht : d.type = none) (hd : t.disk = update s.disk (s.slot i).key d) (hn : t.newborn = s.newborn)
  | bear (k : Nat × Nat) (type : InodeType) (ht : (s.disk k).type = none)
      (hd : t.disk = update s.disk k (Dinode.fresh type))
      (hn : t.newborn = update s.newborn k (some type))

theorem Sane.wrote (h : s.Sane) (ht : s.act a = .ok t) : Wrote s a t := by
  cases act_step ht with
  | iget _ ht | born _ ht =>
    obtain ⟨hd, hn, -⟩ := iget_disk ht
    exact .nothing hd hn
  | idup | hand | ilock | edit | iunlock | iput | free | ialloc | loaded | clear | unlock | drop
  | scan => exact .nothing rfl rfl
  | iupdate hp ho => exact .update _ _ _ ho (.inl hp) rfl rfl rfl
  | read hp => exact .read _ _ rfl hp rfl rfl
  | @trunc p i hp =>
    exact .update p i { (s.slot i).d with size := 0, addrs := fun _ => 0 }
      (h.locked p i (by rw [hp]; rfl)) (.inr hp) rfl rfl rfl
  | @mark p i hp => exact .mark p i { (s.slot i).d with type := none } rfl hp rfl rfl rfl
  | bear _ htype => exact .bear _ _ htype rfl rfl

theorem Typed.types (h : s.Typed) (hs : s.Sane) (ht : s.act a = .ok t) (k : Nat × Nat) :
    (t.disk k).type = (s.disk k).type ∨ (s.disk k).type = none ∨ ((t.disk k).type = none ∧
      ∃ p i, a = .go p ∧ s.phase p = .mark i ∧ (s.slot i).key = k) := by
  cases hs.wrote ht with
  | nothing hd _ | read _ _ _ _ hd _ =>
    rw [hd]
    exact .inl rfl
  | update p i d ho hp htype hd _ =>
    left
    rw [hd]
    by_cases hki : k = (s.slot i).key
    · subst hki
      have hv : (s.slot i).valid = true := (hs.held i p ho).resolve_right fun hl => by
        rcases hp with hp | hp <;> rw [hp] at hl <;> rcases hl with hl | hl <;> cases hl
      have hnc : s.phase p ≠ .clear i := by rcases hp with hp | hp <;> simp [hp]
      rw [update_self, htype]
      exact (h.type hs ho hnc hv).2
    · rw [update_of_ne hki]
  | mark p i d ha hp htype hd _ =>
    rw [hd]
    by_cases hki : k = (s.slot i).key
    · subst hki
      exact .inr (.inr ⟨by rw [update_self, htype], p, i, ha, hp, rfl⟩)
    · exact .inl (by rw [update_of_ne hki])
  | bear k' type htype hd _ =>
    by_cases hki : k = k'
    · exact .inr (.inl (by rw [hki, htype]))
    · exact .inl (by rw [hd, update_of_ne hki])

theorem Typed.freed (h : s.Typed) (hs : s.Sane) (ht : s.act a = .ok t) (hk : (s.disk k).type ≠ none)
    (hn : (t.disk k).type = none) :
    ∃ p i, a = .go p ∧ s.phase p = .mark i ∧ (s.slot i).key = k := by
  rcases h.types hs ht k with he | he | he
  · exact absurd (he ▸ hn) hk
  · exact absurd he hk
  · exact he.2

end Effects

end Itable

end Xv6Audit.Icache
