import Xv6Audit.Param
import Xv6Audit.Lib.Shared
import Xv6Audit.Log.Ops

/-! The buffer cache of `kernel/bio.c`. A step is a critical section under `bcache.lock`, a
sleep-lock taken or given back, or a transfer of `virtio_disk_rw`, which looks at
`b->blockno` and not at `b->dev`: every device number is the same disk. -/
namespace Xv6Audit.Bio
open Function

def NBUF : Nat := Log.MAXOPBLOCKS * 3

instance NBUF.neZero : NeZero NBUF := ⟨by decide⟩

structure Buf (D : Type) where
  valid : Bool
  dev : Nat
  blockno : Nat
  refcnt : BitVec 32
  lock : Option (Fin NPROC)
  data : D

/-- How far a process is with a buffer: counted in `refcnt` and asleep on the lock, with the
lock but before the test of `valid`, back from `bread()`, back and with `data` modified, or
in `brelse()` with the lock given back. -/
inductive Stage where
  | wait
  | locked
  | ready
  | dirty
  | left
deriving DecidableEq, Repr

structure Hold where
  stage : Stage
  dev : Nat
  blockno : Nat
deriving DecidableEq, Repr

/-- The disk, `struct bcache` with its list from `head.next` on, and what each process has of
each buffer. `latest` is history: what was last put into a block, by whatever name of it. -/
structure Cache (D : Type) where
  disk : Nat → D
  buf : Fin NBUF → Buf D
  lru : List (Fin NBUF)
  hold : Fin NPROC → Fin NBUF → Option Hold
  latest : Nat → D

def Stage.owns : Stage → Bool
  | .locked | .ready | .dirty => true
  | .wait | .left => false

def Stage.reads : Stage → Bool
  | .ready | .dirty => true
  | .wait | .locked | .left => false

def Buf.pinned {D : Type} (x : Buf D) (pins : List Nat) : Int :=
  if x.dev ≠ 0 ∧ x.blockno ∈ pins then 1 else 0

namespace Cache
variable {D : Type}

def setBuf (s : Cache D) (b : Fin NBUF) (f : Buf D → Buf D) : Cache D :=
  { s with buf := update s.buf b (f (s.buf b)) }

def setHold (s : Cache D) (p : Fin NPROC) (b : Fin NBUF) (x : Option Hold) : Cache D :=
  { s with hold := update s.hold p (update (s.hold p) b x) }

def stage (s : Cache D) (p : Fin NPROC) (b : Fin NBUF) : Option Stage :=
  (s.hold p b).map (·.stage)

def restage (s : Cache D) (p : Fin NPROC) (b : Fin NBUF) (st : Stage) : Cache D :=
  s.setHold p b ((s.hold p b).map fun h => { h with stage := st })

def cached? (s : Cache D) (dev blockno : Nat) : Option (Fin NBUF) :=
  s.lru.find? fun b => (s.buf b).dev = dev ∧ (s.buf b).blockno = blockno

def unused? (s : Cache D) : Option (Fin NBUF) :=
  s.lru.reverse.find? fun b => (s.buf b).refcnt = 0

/-- `bget()` up to `acquiresleep()`. A process that has the buffer already would sleep on its
own lock for ever. -/
def bget (s : Cache D) (p : Fin NPROC) (dev blockno : Nat) : Except Halt (Fin NBUF × Cache D) :=
  match s.cached? dev blockno with
  | some b =>
    if (s.hold p b).isSome then .error .blocked
    else .ok (b, (s.setBuf b fun x => { x with refcnt := x.refcnt + 1 }).setHold p b
      (some ⟨.wait, dev, blockno⟩))
  | none =>
    match s.unused? with
    | some b => .ok (b, (s.setBuf b fun x =>
        { x with dev := dev, blockno := blockno, valid := false, refcnt := 1 }).setHold p b
      (some ⟨.wait, dev, blockno⟩))
    | none => .error (.panic "bget: no buffers")

def acquiresleep (s : Cache D) (p : Fin NPROC) (b : Fin NBUF) : Except Halt (Cache D) :=
  if s.stage p b = some .wait ∧ (s.buf b).lock = none then
    .ok ((s.setBuf b fun x => { x with lock := some p }).restage p b .locked)
  else .error .blocked

def load (s : Cache D) (b : Fin NBUF) : Cache D :=
  s.setBuf b fun x => { x with data := s.disk x.blockno, valid := true }

def fill (s : Cache D) (p : Fin NPROC) (b : Fin NBUF) : Except Halt (Cache D) :=
  if s.stage p b = some .locked then
    .ok ((if (s.buf b).valid then s else s.load b).restage p b .ready)
  else .error .blocked

def put (s : Cache D) (b : Fin NBUF) (x : D) : Cache D :=
  s.setBuf b fun y => { y with data := x }

def modify (s : Cache D) (p : Fin NPROC) (b : Fin NBUF) (x : D) : Except Halt (Cache D) :=
  if s.stage p b = some .ready ∨ s.stage p b = some .dirty then
    .ok ({ s.put b x with
      latest := update s.latest (s.buf b).blockno x }.restage p b .dirty)
  else .error .blocked

def bwrite (s : Cache D) (p : Fin NPROC) (b : Fin NBUF) : Except Halt (Cache D) :=
  if (s.buf b).lock ≠ some p then .error (.panic "bwrite")
  else if s.stage p b = some .ready ∨ s.stage p b = some .dirty then
    .ok ({ s with disk := update s.disk (s.buf b).blockno (s.buf b).data }.restage p b
      .ready)
  else .error .blocked

/-- `brelse()` up to `releasesleep()`. What was modified is written or logged before. -/
def brelse (s : Cache D) (p : Fin NPROC) (b : Fin NBUF) : Except Halt (Cache D) :=
  if (s.buf b).lock ≠ some p then .error (.panic "brelse")
  else if s.stage p b = some .ready then
    .ok ((s.setBuf b fun x => { x with lock := none }).restage p b .left)
  else .error .blocked

def unref (s : Cache D) (p : Fin NPROC) (b : Fin NBUF) : Except Halt (Cache D) :=
  if s.stage p b = some .left then
    let t := (s.setBuf b fun x => { x with refcnt := x.refcnt - 1 }).setHold p b none
    .ok (if (t.buf b).refcnt = 0 then { t with lru := b :: s.lru.erase b } else t)
  else .error .blocked

def bpin (s : Cache D) (b : Fin NBUF) : Cache D :=
  s.setBuf b fun x => { x with refcnt := x.refcnt + 1 }

def bunpin (s : Cache D) (b : Fin NBUF) : Cache D :=
  s.setBuf b fun x => { x with refcnt := x.refcnt - 1 }

def boot (disk : Nat → D) [Inhabited D] : Cache D where
  disk := disk
  buf := fun _ => ⟨false, 0, 0, 0, none, default⟩
  lru := (List.finRange NBUF).reverse
  hold := fun _ _ => none
  latest := disk

/-! The invariant. -/

def held (x : Option Hold) : Int := if x.isSome then 1 else 0

def users (s : Cache D) (b : Fin NBUF) : Int := ∑ p, held (s.hold p b)

def Caches (s : Cache D) (b : Fin NBUF) (k : Nat) : Prop :=
  (s.buf b).dev ≠ 0 ∧ (s.buf b).blockno = k

instance (s : Cache D) (b : Fin NBUF) (k : Nat) : Decidable (s.Caches b k) :=
  inferInstanceAs (Decidable (_ ∧ _))

def Dirty (s : Cache D) (k : Nat) : Prop :=
  ∃ p b, s.stage p b = some .dirty ∧ s.Caches b k

/-- The cache hides the disk, when one device number is in use and the blocks `pins` are
pinned. -/
structure Clear (dev : Nat) (pins : List Nat) (s : Cache D) : Prop where
  listed : ∀ b, b ∈ s.lru
  one_dev : ∀ b, (s.buf b).dev = 0 ∨ (s.buf b).dev = dev
  uniq : ∀ b b' k, s.Caches b k → s.Caches b' k → b = b'
  refs : ∀ b, ((s.buf b).refcnt.toNat : Int) = s.users b + (s.buf b).pinned pins
  lock : ∀ p b, (s.buf b).lock = some p ↔ (s.stage p b).any Stage.owns = true
  asked : ∀ p b h, s.hold p b = some h → h.dev = dev ∧ s.Caches b h.blockno
  valid : ∀ p b, (s.stage p b).any Stage.reads = true → (s.buf b).valid = true
  data : ∀ b k, s.Caches b k → (s.buf b).valid = true → (s.buf b).data = s.latest k
  clean : ∀ k, s.disk k = s.latest k ∨ k ∈ pins ∨ s.Dirty k
  kept : ∀ k ∈ pins, ∃ b, s.Caches b k ∧ (s.buf b).valid = true

@[simp] theorem setBuf_self (s : Cache D) (b : Fin NBUF) (f : Buf D → Buf D) :
    (s.setBuf b f).buf b = f (s.buf b) := update_self ..

variable {c : Fin NBUF}

section
variable (s : Cache D)
include s

theorem setBuf_other {b : Fin NBUF} (f : Buf D → Buf D) (h : c ≠ b) :
    (s.setBuf b f).buf c = s.buf c := update_of_ne h ..

@[simp] theorem setHold_self (p : Fin NPROC) (b : Fin NBUF) (x : Option Hold) :
    (s.setHold p b x).hold p b = x := by
  simp [setHold]

theorem setHold_other {p q : Fin NPROC} {b : Fin NBUF} (x : Option Hold) (h : q ≠ p ∨ c ≠ b) :
    (s.setHold p b x).hold q c = s.hold q c := by
  rcases eq_or_ne q p with rfl | hq
  · simp [setHold, h.resolve_left (fun hne => hne rfl)]
  · simp [setHold, hq]

@[simp] theorem setBuf_rest (b : Fin NBUF) (f : Buf D → Buf D) :
    (s.setBuf b f).hold = s.hold ∧ (s.setBuf b f).lru = s.lru ∧
      (s.setBuf b f).disk = s.disk ∧ (s.setBuf b f).latest = s.latest := ⟨rfl, rfl, rfl, rfl⟩

@[simp] theorem setHold_rest (p : Fin NPROC) (b : Fin NBUF) (x : Option Hold) :
    (s.setHold p b x).buf = s.buf ∧ (s.setHold p b x).lru = s.lru ∧
      (s.setHold p b x).disk = s.disk ∧ (s.setHold p b x).latest = s.latest :=
  ⟨rfl, rfl, rfl, rfl⟩

end

section Clear
variable {s s' : Cache D} {p : Fin NPROC} {b : Fin NBUF} {dev k : Nat} {pins : List Nat}

theorem users_change (h : ∀ q, q ≠ p → s'.hold q c = s.hold q c) :
    s'.users c = s.users c - held (s.hold p c) + held (s'.hold p c) := by
  have hfun : (fun q => s'.hold q c) =
      update (fun q => s.hold q c) p (s'.hold p c) := by
    funext q
    by_cases hq : q = p
    · rw [hq, update_self]
    · rw [update_of_ne hq, h q hq]
  have hsum := Shared.sum_update (fun q => s.hold q c) p (s'.hold p c) held
  rw [← hfun] at hsum
  exact hsum

theorem held_nonneg (x : Option Hold) : 0 ≤ held x := by
  unfold held
  split <;> decide

theorem users_le (s : Cache D) (b : Fin NBUF) : s.users b ≤ NPROC := by
  have hle := Finset.sum_le_card_nsmul Finset.univ (fun p => held (s.hold p b)) 1 fun p _ => by
    unfold held
    split <;> decide
  simpa [users] using hle

theorem one_le_users (s : Cache D) (h : (s.hold p b).isSome = true) : 1 ≤ s.users b := by
  have hle : held (s.hold p b) ≤ s.users b :=
    Finset.single_le_sum (fun q _ => held_nonneg (s.hold q b)) (Finset.mem_univ p)
  simpa [held, h] using hle

variable {st : Stage} {d : Nat}

theorem hold_of_stage (h : s.stage p b = some st) :
    ∃ d k, s.hold p b = some ⟨st, d, k⟩ := by
  obtain ⟨⟨st', d, k⟩, hx, rfl⟩ := Option.map_eq_some_iff.mp h
  exact ⟨d, k, hx⟩

theorem reads_owns {x : Option Stage} (h : x.any Stage.reads = true) : x.any Stage.owns = true := by
  match x, h with
  | some .ready, _ | some .dirty, _ => rfl

theorem ident_of (hbuf : ∀ c, c ≠ b → s'.buf c = s.buf c)
    (hb : (s'.buf b).dev = (s.buf b).dev ∧ (s'.buf b).blockno = (s.buf b).blockno) (c : Fin NBUF) :
    (s'.buf c).dev = (s.buf c).dev ∧ (s'.buf c).blockno = (s.buf c).blockno := by
  by_cases hc : c = b
  · rw [hc]
    exact hb
  · rw [hbuf c hc]
    exact ⟨rfl, rfl⟩

theorem Clear.clean_of (h : Clear dev pins s)
    (hid : ∀ c, (s'.buf c).dev = (s.buf c).dev ∧ (s'.buf c).blockno = (s.buf c).blockno)
    (hdisk : ∀ k, s'.disk k = s.disk k) (hlatest : ∀ k, s'.latest k = s.latest k)
    (hdirty : ∀ q c, s.stage q c = some .dirty → s'.stage q c = some .dirty) (k : Nat) :
    s'.disk k = s'.latest k ∨ k ∈ pins ∨ s'.Dirty k := by
  rw [hdisk, hlatest]
  rcases h.clean k with hk | hk | ⟨q, c, hq, hc⟩
  · exact .inl hk
  · exact .inr (.inl hk)
  · refine .inr (.inr ⟨q, c, hdirty q c hq, ?_⟩)
    unfold Caches
    rw [(hid c).1, (hid c).2]
    exact hc

namespace Clear

theorem refcnt_le (h : Clear dev pins s) (b : Fin NBUF) : (s.buf b).refcnt.toNat ≤ NPROC + 1 := by
  have hr := h.refs b
  have hu := s.users_le b
  unfold Buf.pinned at hr
  split at hr <;> omega

theorem succ_toNat (h : Clear dev pins s) (b : Fin NBUF) :
    ((s.buf b).refcnt + 1).toNat = (s.buf b).refcnt.toNat + 1 := by
  have := h.refcnt_le b
  rw [BitVec.toNat_add]
  change (_ + 1) % 2 ^ 32 = _
  exact Nat.mod_eq_of_lt (lt_of_le_of_lt (Nat.add_le_add_right this 1) (by decide))

theorem pred_toNat (h : 1 ≤ (s.buf b).refcnt.toNat) :
    ((s.buf b).refcnt - 1).toNat = (s.buf b).refcnt.toNat - 1 := by
  have := (s.buf b).refcnt.isLt
  rw [BitVec.toNat_sub]
  change (2 ^ 32 - 1 + _) % 2 ^ 32 = _
  omega

section
variable (h : Clear dev pins s)
include h

theorem unused (h0 : (s.buf b).refcnt = 0) :
    (∀ q, s.hold q b = none) ∧ ∀ k ∈ pins, ¬ s.Caches b k := by
  have hr := h.refs b
  rw [h0] at hr
  unfold Buf.pinned at hr
  have hu : 0 ≤ s.users b := Finset.sum_nonneg fun q _ => held_nonneg (s.hold q b)
  refine ⟨fun q => ?_, fun k hk hc => ?_⟩
  · cases hq : s.hold q b with
    | none => rfl
    | some x =>
      have := s.one_le_users (p := q) (b := b) (by rw [hq]; rfl)
      split at hr <;> simp at hr <;> omega
  · obtain ⟨hd, rfl⟩ := hc
    rw [if_pos ⟨hd, hk⟩] at hr
    simp at hr
    omega

theorem not_cached (hn : s.cached? dev k = none) (b : Fin NBUF) : ¬ s.Caches b k := by
  intro hc
  have hb := List.find?_eq_none.mp hn b (h.listed b)
  rcases h.one_dev b with h0 | hd
  · exact hc.1 h0
  · simp [hd, hc.2] at hb

theorem change (hlru : ∀ c, c ∈ s'.lru)
    (hid : ∀ c, (s'.buf c).dev = (s.buf c).dev ∧ (s'.buf c).blockno = (s.buf c).blockno)
    (hbuf : ∀ c, c ≠ b → s'.buf c = s.buf c)
    (hhold : ∀ q c, q ≠ p ∨ c ≠ b → s'.hold q c = s.hold q c)
    (hasked : ∀ x, s'.hold p b = some x → x.dev = dev ∧ s.Caches b x.blockno)
    (hrefs : ((s'.buf b).refcnt.toNat : Int) + held (s.hold p b) =
      (s.buf b).refcnt.toNat + held (s'.hold p b))
    (hlock : ∀ q, (s'.buf b).lock = some q ↔ (s'.stage q b).any Stage.owns = true)
    (hvalid : ∀ q, (s'.stage q b).any Stage.reads = true → (s'.buf b).valid = true)
    (hstill : (s.buf b).valid = true → (s'.buf b).valid = true)
    (hdata : ∀ k, s.Caches b k → (s'.buf b).valid = true → (s'.buf b).data = s'.latest k)
    (hlatest : ∀ k, ¬ s.Caches b k → s'.latest k = s.latest k)
    (hclean : ∀ k, s'.disk k = s'.latest k ∨ k ∈ pins ∨ s'.Dirty k) : Clear dev pins s' := by
  have hstage : ∀ q c, c ≠ b → s'.stage q c = s.stage q c := fun q c hc => by
    unfold stage
    rw [hhold q c (.inr hc)]
  have hcach : ∀ c k, s'.Caches c k ↔ s.Caches c k := fun c k => by
    unfold Caches
    rw [(hid c).1, (hid c).2]
  refine ⟨hlru, fun c => (hid c).1.symm ▸ h.one_dev c, fun c c' k hc hc' => ?_, fun c => ?_,
    fun q c => ?_, fun q c x hx => ?_, fun q c => ?_, fun c k hc hv => ?_, hclean, fun k hk => ?_⟩
  · exact h.uniq c c' k ((hcach c k).mp hc) ((hcach c' k).mp hc')
  · have hr := h.refs c
    have hu : s'.users c = s.users c - held (s.hold p c) + held (s'.hold p c) :=
      users_change fun q hq => hhold q c (.inl hq)
    have hp : (s'.buf c).pinned pins = (s.buf c).pinned pins := by
      unfold Buf.pinned
      rw [(hid c).1, (hid c).2]
    by_cases hc : c = b
    · subst hc
      omega
    · rw [hhold p c (.inr hc)] at hu
      rw [hp, hbuf c hc]
      omega
  · by_cases hc : c = b
    · rw [hc]
      exact hlock q
    · rw [hbuf c hc, hstage q c hc]
      exact h.lock q c
  · rw [hcach]
    by_cases hc : q = p ∧ c = b
    · obtain ⟨rfl, rfl⟩ := hc
      exact hasked x hx
    · rw [hhold q c (by tauto)] at hx
      exact h.asked q c x hx
  · by_cases hc : c = b
    · rw [hc]
      exact hvalid q
    · rw [hbuf c hc, hstage q c hc]
      exact h.valid q c
  · rw [hcach] at hc
    by_cases hb : c = b
    · subst hb
      exact hdata k hc hv
    · rw [hbuf c hb] at hv ⊢
      rw [hlatest k fun hk => hb (h.uniq c b k hc hk)]
      exact h.data c k hc hv
  · obtain ⟨c, hc, hv⟩ := h.kept k hk
    refine ⟨c, (hcach c k).mpr hc, ?_⟩
    by_cases hb : c = b
    · subst hb
      exact hstill hv
    · rw [hbuf c hb]
      exact hv

theorem still (hlru : ∀ c, c ∈ s'.lru) (hbuf : ∀ c, c ≠ b → s'.buf c = s.buf c)
    (hsame : (s'.buf b).dev = (s.buf b).dev ∧ (s'.buf b).blockno = (s.buf b).blockno ∧
      (s'.buf b).valid = (s.buf b).valid ∧ (s'.buf b).data = (s.buf b).data)
    (hdisk : s'.disk = s.disk) (hlatest : s'.latest = s.latest)
    (hhold : ∀ q c, q ≠ p ∨ c ≠ b → s'.hold q c = s.hold q c)
    (hasked : ∀ x, s'.hold p b = some x → x.dev = dev ∧ s.Caches b x.blockno)
    (hrefs : ((s'.buf b).refcnt.toNat : Int) + held (s.hold p b) =
      (s.buf b).refcnt.toNat + held (s'.hold p b))
    (hlock : (s'.buf b).lock = some p ↔ (s'.stage p b).any Stage.owns = true)
    (hlock' : ∀ q, q ≠ p → ((s'.buf b).lock = some q ↔ (s.buf b).lock = some q))
    (hreads : (s'.stage p b).any Stage.reads = true → (s.stage p b).any Stage.reads = true)
    (hdirty : s.stage p b = some .dirty → s'.stage p b = some .dirty) : Clear dev pins s' := by
  obtain ⟨hdev, hno, hvalid, hdata⟩ := hsame
  have hid := ident_of hbuf ⟨hdev, hno⟩
  have hstage : ∀ q c, q ≠ p ∨ c ≠ b → s'.stage q c = s.stage q c := fun q c hq => by
    unfold stage
    rw [hhold q c hq]
  refine h.change hlru hid hbuf hhold hasked hrefs (fun q => ?_) (fun q hq => ?_) (fun hv => ?_)
    (fun k hc hv => ?_) (fun k _ => by rw [hlatest]) (h.clean_of hid ?_ ?_ fun q c hq => ?_)
  · by_cases hp : q = p
    · rw [hp]
      exact hlock
    · rw [hlock' q hp, hstage q b (.inl hp)]
      exact h.lock q b
  · rw [hvalid]
    by_cases hp : q = p
    · subst hp
      exact h.valid q b (hreads hq)
    · rw [hstage q b (.inl hp)] at hq
      exact h.valid q b hq
  · rw [hvalid]
    exact hv
  · rw [hdata, hlatest]
    exact h.data b k hc (hvalid ▸ hv)
  · exact fun k => by rw [hdisk]
  · exact fun k => by rw [hlatest]
  · by_cases hp : q = p ∧ c = b
    · obtain ⟨rfl, rfl⟩ := hp
      exact hdirty hq
    · rw [hstage q c (by tauto)]
      exact hq

theorem hit (hc : s.Caches b k) (hn : s.hold p b = none) :
    Clear dev pins ((s.setBuf b fun x => { x with refcnt := x.refcnt + 1 }).setHold p b
      (some ⟨.wait, dev, k⟩)) := by
  have hsucc := h.succ_toNat b
  have hfree := h.lock p b
  refine h.still (b := b) (p := p) h.listed (fun c hne => ?_) ?_ rfl rfl
    (fun q c hq => setHold_other _ _ hq) (fun x hx => ?_) ?_ ?_ (fun q hq => ?_) ?_ ?_
  · rw [(setHold_rest ..).1, setBuf_other _ _ hne]
  · simp
  · rw [setHold_self] at hx
    cases hx
    exact ⟨rfl, hc⟩
  · simp only [setHold_rest, setBuf_self, setHold_self, hn, held, hsucc]
    simp
  · simpa [stage, hn, Stage.owns] using hfree
  · simp
  · simp [stage, Stage.reads]
  · simp [stage, hn]

theorem relock {y : Stage} {l : Option (Fin NPROC)} (hh : s.hold p b = some ⟨st, d, k⟩)
    (hst : st ≠ .dirty) (hy : y.reads = false) (hl : l = some p ↔ y.owns = true)
    (hother : ∀ q, q ≠ p → (l = some q ↔ (s.buf b).lock = some q)) :
    Clear dev pins ((s.setBuf b fun x => { x with lock := l }).restage p b y) := by
  have hask := h.asked p b _ hh
  refine h.still (b := b) (p := p) h.listed (fun c hne => ?_) ?_ rfl rfl
    (fun q c hq => setHold_other _ _ hq) (fun x hx => ?_) ?_ ?_ (fun q hq => ?_) ?_ ?_
  · simp [restage, setBuf_other, hne]
  · simp [restage]
  · simp only [restage, setHold_self, setBuf_rest, hh, Option.map_some, Option.some.injEq] at hx
    subst hx
    exact hask
  · simp [restage, hh, held]
  · simpa [restage, stage, hh] using hl
  · simpa [restage] using hother q hq
  · simp [restage, stage, hh, hy]
  · simp [stage, hh, hst]

theorem acquiresleep (hs : s.acquiresleep p b = .ok s') : Clear dev pins s' := by
  obtain ⟨⟨hw, hfree⟩, hs⟩ := guard_ok.mp hs
  obtain ⟨d, k, hh⟩ := hold_of_stage hw
  cases hs
  exact h.relock hh (by decide) rfl (by simp [Stage.owns]) fun q hq => by simp [hfree, hq.symm]

theorem brelse (hs : s.brelse p b = .ok s') : Clear dev pins s' := by
  obtain ⟨hl, hs⟩ := unless_ok.mp hs
  obtain ⟨hr, hs⟩ := guard_ok.mp hs
  obtain ⟨d, k, hh⟩ := hold_of_stage hr
  cases hs
  exact h.relock hh (by decide) rfl (by simp [Stage.owns]) fun q hq => by
    simp [not_not.mp hl, hq.symm]

end

theorem mem_front {l : List (Fin NBUF)} (h : ∀ c, c ∈ l) (b c : Fin NBUF) : c ∈ b :: l.erase b := by
  by_cases hc : c = b
  · simp [hc]
  · exact List.mem_cons_of_mem _ ((List.mem_erase_of_ne hc).mpr (h c))

section
variable (h : Clear dev pins s)
include h

theorem unref (hs : s.unref p b = .ok s') : Clear dev pins s' := by
  obtain ⟨hl, hs⟩ := guard_ok.mp hs
  obtain ⟨d, k, hh⟩ := hold_of_stage hl
  have hone : 1 ≤ (s.buf b).refcnt.toNat := by
    have hu := s.one_le_users (p := p) (b := b) (by rw [hh]; rfl)
    have hr := h.refs b
    unfold Buf.pinned at hr
    split at hr <;> omega
  have hpred := pred_toNat hone
  have key : ∀ l : List (Fin NBUF), (∀ c, c ∈ l) → Clear dev pins
      { (s.setBuf b fun x => { x with refcnt := x.refcnt - 1 }).setHold p b none with lru := l } := by
    intro l hlist
    refine h.still (b := b) (p := p) hlist (fun c hne => ?_) ?_ rfl rfl
      (fun q c hq => setHold_other _ _ hq) (fun x hx => ?_) ?_ ?_ (fun q hq => ?_) ?_ ?_
    · simp [setBuf_other, hne]
    · simp
    · simp at hx
    · simp only [setHold_rest, setBuf_self, setHold_self, hh, held, hpred]
      simp
      omega
    · have hno := h.lock p b
      simpa [stage, hh, Stage.owns] using hno
    · simp
    · simp [stage]
    · simp [hl]
  cases hs
  split
  · exact key _ (mem_front h.listed b)
  · exact key s.lru h.listed

theorem disk_of_invalid (hc : s.Caches b k) (hv : (s.buf b).valid = false) :
    s.disk k = s.latest k := by
  rcases h.clean k with hk | hk | ⟨q, c, hq, hck⟩
  · exact hk
  · obtain ⟨c, hck, hvc⟩ := h.kept k hk
    rw [h.uniq b c k hc hck, hvc] at hv
    cases hv
  · rw [h.uniq b c k hc hck, h.valid q c (by rw [hq]; rfl)] at hv
    cases hv

theorem clean_owned (hh : s.hold p b = some ⟨st, d, k⟩) (hst : st.owns = true) (hnd : st ≠ .dirty) :
    s.disk k = s.latest k ∨ k ∈ pins := by
  rcases h.clean k with hk | hk | ⟨q, c, hq, hc⟩
  · exact .inl hk
  · exact .inr hk
  · have hcb : c = b := h.uniq c b k hc (h.asked p b _ hh).2
    subst hcb
    have hlp := (h.lock p c).mpr (by simp [stage, hh, hst])
    have hlq := (h.lock q c).mpr (by simp [hq, Stage.owns])
    have hpq : p = q := Option.some.inj (hlp.symm.trans hlq)
    rw [← hpq, stage, hh] at hq
    exact absurd (Option.some.inj hq) hnd

theorem own {y : Stage} (hst : st.owns = true) (hh : s.hold p b = some ⟨st, d, k⟩)
    (hlru : s'.lru = s.lru) (hbuf : ∀ c, c ≠ b → s'.buf c = s.buf c)
    (hsame : (s'.buf b).dev = (s.buf b).dev ∧ (s'.buf b).blockno = (s.buf b).blockno ∧
      (s'.buf b).refcnt = (s.buf b).refcnt ∧ (s'.buf b).lock = (s.buf b).lock)
    (hhold : ∀ q c, q ≠ p ∨ c ≠ b → s'.hold q c = s.hold q c) (hst' : y.owns = true)
    (hh' : s'.hold p b = some ⟨y, d, k⟩) (hvalid : (s'.buf b).valid = true)
    (hdata : (s'.buf b).data = s'.latest k) (hlatest : ∀ j, j ≠ k → s'.latest j = s.latest j)
    (hdisk : ∀ j, j ≠ k → s'.disk j = s.disk j)
    (hclean : s'.disk k = s'.latest k ∨ k ∈ pins ∨ y = .dirty) : Clear dev pins s' := by
  obtain ⟨hdev, hno, href, hlk⟩ := hsame
  have hask := h.asked p b _ hh
  have hlock : (s.buf b).lock = some p := (h.lock p b).mpr (by simp [stage, hh, hst])
  have hid := ident_of hbuf ⟨hdev, hno⟩
  have hcach : ∀ c j, s.Caches c j → s'.Caches c j := fun c j hc => by
    unfold Caches
    rw [(hid c).1, (hid c).2]
    exact hc
  have hstage : ∀ q c, q ≠ p ∨ c ≠ b → s'.stage q c = s.stage q c := fun q c hq => by
    unfold stage
    rw [hhold q c hq]
  have honly : ∀ j, s.Caches b j → j = k := fun j hj => hj.2.symm.trans hask.2.2
  refine h.change (b := b) (p := p) (hlru ▸ h.listed) hid hbuf hhold (fun x hx => ?_) ?_
    (fun q => ?_) (fun _ _ => hvalid) (fun _ => hvalid) (fun j hc _ => ?_)
    (fun j hc => hlatest j fun hj => hc (hj ▸ hask.2)) (fun j => ?_)
  · rw [hh', Option.some.injEq] at hx
    subst hx
    exact hask
  · rw [href, hh, hh']
    rfl
  · rw [hlk]
    by_cases hq : q = p
    · simp [hq, stage, hh', hst', hlock]
    · rw [hstage q b (.inl hq)]
      exact h.lock q b
  · rw [honly j hc]
    exact hdata
  · by_cases hj : j = k
    · subst hj
      rcases hclean with hk | hk | hk
      · exact .inl hk
      · exact .inr (.inl hk)
      · exact .inr (.inr ⟨p, b, by simp [stage, hh', hk], hcach b j hask.2⟩)
    · rw [hlatest j hj, hdisk j hj]
      rcases h.clean j with hk | hk | ⟨q, c, hq, hc⟩
      · exact .inl hk
      · exact .inr (.inl hk)
      · refine .inr (.inr ⟨q, c, ?_, hcach c j hc⟩)
        rw [hstage q c (.inr fun hcb => hj (honly j (hcb ▸ hc)))]
        exact hq

theorem fill (hs : s.fill p b = .ok s') : Clear dev pins s' := by
  obtain ⟨hl, hs⟩ := guard_ok.mp hs
  obtain ⟨d, k, hh⟩ := hold_of_stage hl
  have hask := h.asked p b _ hh
  cases hs
  by_cases hv : (s.buf b).valid = true
  · rw [if_pos hv]
    refine h.own (y := .ready) rfl hh rfl (fun _ _ => rfl) ⟨rfl, rfl, rfl, rfl⟩
      (fun q c hq => setHold_other _ _ hq) rfl (by simp [restage, hh]) hv (h.data b k hask.2 hv)
      (fun _ _ => rfl) (fun _ _ => rfl) ?_
    exact (h.clean_owned hh rfl (by decide)).imp_right .inl
  · rw [if_neg hv]
    rw [Bool.not_eq_true] at hv
    have hdisk := h.disk_of_invalid hask.2 hv
    refine h.own (y := .ready) rfl hh rfl (fun c hc => ?_) ?_ (fun q c hq => ?_) rfl ?_ ?_ ?_
      (fun _ _ => rfl) (fun _ _ => rfl) (.inl hdisk)
    · simp [restage, load, setBuf_other, hc]
    · simp [restage, load]
    · simp [restage, load, setHold_other _ _ hq]
    · simp [restage, load, hh]
    · simp [restage, load]
    · simp [restage, load, hask.2.2, hdisk]

end

theorem hold_of_reads (hr : s.stage p b = some .ready ∨ s.stage p b = some .dirty) :
    ∃ st d k, s.hold p b = some ⟨st, d, k⟩ ∧ st.owns = true ∧ st.reads = true := by
  rcases hr with hr | hr
  · obtain ⟨d, k, hh⟩ := hold_of_stage hr
    exact ⟨.ready, d, k, hh, rfl, rfl⟩
  · obtain ⟨d, k, hh⟩ := hold_of_stage hr
    exact ⟨.dirty, d, k, hh, rfl, rfl⟩

theorem modify (h : Clear dev pins s) {x : D} (hs : s.modify p b x = .ok s') :
    Clear dev pins s' := by
  obtain ⟨hr, hs⟩ := guard_ok.mp hs
  obtain ⟨st, d, k, hh, hst, hreads⟩ := hold_of_reads hr
  have hask := h.asked p b _ hh
  have hv : (s.buf b).valid = true := h.valid p b (by simp [stage, hh, hreads])
  have hk : (s.buf b).blockno = k := hask.2.2
  cases hs
  refine h.own (y := .dirty) hst hh rfl (fun c hc => ?_) ?_ (fun q c hq => ?_) rfl ?_ ?_ ?_
    (fun j hj => ?_) (fun _ _ => rfl) (.inr (.inr rfl))
  · simp [restage, put, setBuf_other, hc]
  · simp [restage, put]
  · simp [restage, put, setHold_other _ _ hq]
  · simp [restage, put, hh]
  · simp [restage, put, hv]
  · simp [restage, put, hk]
  · simp [restage, hk, hj]

theorem bwrite (h : Clear dev pins s) (hs : s.bwrite p b = .ok s') : Clear dev pins s' := by
  obtain ⟨-, hs⟩ := unless_ok.mp hs
  obtain ⟨hr, hs⟩ := guard_ok.mp hs
  obtain ⟨st, d, k, hh, hst, hreads⟩ := hold_of_reads hr
  have hask := h.asked p b _ hh
  have hv : (s.buf b).valid = true := h.valid p b (by simp [stage, hh, hreads])
  have hk : (s.buf b).blockno = k := hask.2.2
  have hdata := h.data b k hask.2 hv
  cases hs
  refine h.own (y := .ready) hst hh rfl (fun c hc => rfl) ⟨rfl, rfl, rfl, rfl⟩
    (fun q c hq => ?_) rfl ?_ hv hdata (fun _ _ => rfl) (fun j hj => ?_) (.inl ?_)
  · simp [restage, setHold_other _ _ hq]
  · simp [restage, hh]
  · simp [restage, hk, hj]
  · simp [restage, hk, hdata]

theorem settle (h : Clear dev pins s) (hh : s.hold p b = some ⟨st, d, k⟩) (hst : st.reads = true)
    (hpin : k ∈ pins) : Clear dev pins (s.restage p b .ready) := by
  have hask := h.asked p b _ hh
  have hown : (s.stage p b).any Stage.owns = true := reads_owns (by simp [stage, hh, hst])
  have hv : (s.buf b).valid = true := h.valid p b (by simp [stage, hh, hst])
  refine h.own (y := .ready) ?_ hh rfl (fun c hc => rfl) ⟨rfl, rfl, rfl, rfl⟩
    (fun q c hq => setHold_other _ _ hq) rfl ?_ hv (h.data b k hask.2 hv) (fun _ _ => rfl)
    (fun _ _ => rfl) (.inr (.inl hpin))
  · simpa [stage, hh] using hown
  · simp [restage, hh]

variable {pins' : List Nat}

section
variable (h : Clear dev pins s)
include h

theorem count {r : BitVec 32} (hr : (r.toNat : Int) = s.users b + (s.buf b).pinned pins')
    (hother : ∀ c, c ≠ b → (s.buf c).pinned pins' = (s.buf c).pinned pins)
    (hclean : ∀ j, j ∈ pins → j ∈ pins' ∨ s.disk j = s.latest j)
    (hkept : ∀ j, j ∈ pins' → j ∈ pins ∨ s.Caches b j ∧ (s.buf b).valid = true) :
    Clear dev pins' (s.setBuf b fun x => { x with refcnt := r }) := by
  have hbuf : ∀ c, (s.setBuf b fun x => { x with refcnt := r }).buf c =
      { s.buf c with refcnt := if c = b then r else (s.buf c).refcnt } := by
    intro c
    by_cases hc : c = b
    · subst hc
      simp
    · simp [setBuf_other, hc]
  have hcach : ∀ c j, (s.setBuf b fun x => { x with refcnt := r }).Caches c j ↔ s.Caches c j := by
    intro c j
    unfold Caches
    rw [hbuf c]
  refine ⟨h.listed, fun c => ?_, fun c c' j hc hc' => ?_, fun c => ?_, fun q c => ?_,
    fun q c x hx => ?_, fun q c hq => ?_, fun c j hc hv => ?_, fun j => ?_, fun j hj => ?_⟩
  · rw [hbuf c]
    exact h.one_dev c
  · exact h.uniq c c' j ((hcach c j).mp hc) ((hcach c' j).mp hc')
  · rw [hbuf c]
    by_cases hc : c = b
    · rw [if_pos hc]
      subst hc
      exact hr
    · rw [if_neg hc]
      exact (h.refs c).trans (congrArg (s.users c + ·) (hother c hc).symm)
  · rw [hbuf c]
    exact h.lock q c
  · rw [hcach]
    exact h.asked q c x hx
  · rw [hbuf c]
    exact h.valid q c hq
  · rw [hbuf c] at hv ⊢
    exact h.data c j ((hcach c j).mp hc) hv
  · rcases h.clean j with hk | hk | ⟨q, c, hq, hc⟩
    · exact .inl hk
    · rcases hclean j hk with hk | hk
      · exact .inr (.inl hk)
      · exact .inl hk
    · exact .inr (.inr ⟨q, c, hq, (hcach c j).mpr hc⟩)
  · rcases hkept j hj with hk | ⟨hc, hv⟩
    · obtain ⟨c, hc, hv⟩ := h.kept j hk
      refine ⟨c, (hcach c j).mpr hc, ?_⟩
      rw [hbuf c]
      exact hv
    · refine ⟨b, (hcach b j).mpr hc, ?_⟩
      rw [hbuf b]
      exact hv

theorem pinned_other (hb : s.Caches b k) (hc : c ≠ b) (hpins : ∀ j, j ≠ k → (j ∈ pins' ↔ j ∈ pins)) :
    (s.buf c).pinned pins' = (s.buf c).pinned pins := by
  by_cases hd : (s.buf c).dev = 0
  · simp [Buf.pinned, hd]
  · have hne : (s.buf c).blockno ≠ k := fun hk => hc (h.uniq c b k ⟨hd, hk⟩ hb)
    simp [Buf.pinned, hpins _ hne]

theorem bpin (hb : s.Caches b k) (hv : (s.buf b).valid = true) (hk : k ∉ pins)
    (hpins : ∀ j, j ∈ pins' ↔ j ∈ pins ∨ j = k) : Clear dev pins' (s.bpin b) := by
  have hsucc := h.succ_toNat b
  have hold : (s.buf b).pinned pins = 0 := by simp [Buf.pinned, hb.2, hk]
  have hnew : (s.buf b).pinned pins' = 1 := by simp [Buf.pinned, hb.1, hb.2, hpins]
  have hr := h.refs b
  refine h.count ?_ (fun c hc => ?_) (fun j hj => .inl ((hpins j).mpr (.inl hj))) (fun j hj => ?_)
  · rw [hnew]
    omega
  · exact h.pinned_other hb hc fun j hj => by simp [hpins, hj]
  · rcases (hpins j).mp hj with hj | rfl
    · exact .inl hj
    · exact .inr ⟨hb, hv⟩

theorem bunpin (hb : s.Caches b k) (hk : k ∈ pins) (hdisk : s.disk k = s.latest k)
    (hpins : ∀ j, j ∈ pins' ↔ j ∈ pins ∧ j ≠ k) : Clear dev pins' (s.bunpin b) := by
  have hold : (s.buf b).pinned pins = 1 := by simp [Buf.pinned, hb.1, hb.2, hk]
  have hnew : (s.buf b).pinned pins' = 0 := by simp [Buf.pinned, hb.2, hpins]
  have hr := h.refs b
  have hu : 0 ≤ s.users b := Finset.sum_nonneg fun q _ => held_nonneg (s.hold q b)
  have hpred := pred_toNat (s := s) (b := b) (by omega)
  refine h.count ?_ (fun c hc => ?_) (fun j hj => ?_) (fun j hj => .inl ((hpins j).mp hj).1)
  · rw [hnew]
    omega
  · exact h.pinned_other hb hc fun j hj => by simp [hpins, hj]
  · by_cases hjk : j = k
    · exact .inr (hjk ▸ hdisk)
    · exact .inl ((hpins j).mpr ⟨hj, hjk⟩)

theorem recycle (hdev : dev ≠ 0) (hmiss : s.cached? dev k = none) (h0 : (s.buf b).refcnt = 0) :
    Clear dev pins ((s.setBuf b fun x =>
      { x with dev := dev, blockno := k, valid := false, refcnt := 1 }).setHold p b
        (some ⟨.wait, dev, k⟩)) := by
  obtain ⟨hnone, hunpinned⟩ := h.unused h0
  have hnew := h.not_cached hmiss
  have hkpins : k ∉ pins := fun hk => by
    obtain ⟨c, hc, -⟩ := h.kept k hk
    exact hnew c hc
  have hfree : (s.buf b).lock = none := by
    cases hl : (s.buf b).lock with
    | none => rfl
    | some q =>
      have := (h.lock q b).mp hl
      simp [stage, hnone q] at this
  generalize hs' : (s.setBuf b fun x =>
      { x with dev := dev, blockno := k, valid := false, refcnt := 1 }).setHold p b
        (some ⟨.wait, dev, k⟩) = s'
  have hbuf : ∀ c, c ≠ b → s'.buf c = s.buf c := fun c hc => by simp [← hs', setBuf_other, hc]
  have hb : s'.buf b = ⟨false, dev, k, 1, none, (s.buf b).data⟩ := by simp [← hs', hfree]
  have hhold : ∀ q c, q ≠ p ∨ c ≠ b → s'.hold q c = s.hold q c := fun q c hq => by
    simp [← hs', setHold_other _ _ hq]
  have hp : s'.hold p b = some ⟨.wait, dev, k⟩ := by simp [← hs']
  have hrest : s'.lru = s.lru ∧ s'.disk = s.disk ∧ s'.latest = s.latest := by simp [← hs']
  have hstage : ∀ q, s'.stage q b = none ∨ s'.stage q b = some .wait := fun q => by
    by_cases hq : q = p
    · exact .inr (by simp [stage, hq, hp])
    · exact .inl (by simp [stage, hhold q b (.inl hq), hnone q])
  have hcach : ∀ c j, c ≠ b → (s'.Caches c j ↔ s.Caches c j) := fun c j hc => by
    unfold Caches
    rw [hbuf c hc]
  have hcb : ∀ j, s'.Caches b j ↔ j = k := fun j => by
    unfold Caches
    rw [hb]
    simp [hdev, eq_comm]
  have hother : ∀ q c, c ≠ b → s'.stage q c = s.stage q c := fun q c hc => by
    unfold stage
    rw [hhold q c (.inr hc)]
  have hstay : ∀ c j, s.Caches c j → c ≠ b → s'.Caches c j := fun c j hc hne =>
    (hcach c j hne).mpr hc
  refine ⟨hrest.1 ▸ h.listed, fun c => ?_, fun c c' j hc hc' => ?_, fun c => ?_, fun q c => ?_,
    fun q c x hx => ?_, fun q c hq => ?_, fun c j hc hv => ?_, fun j => ?_, fun j hj => ?_⟩
  · by_cases hc : c = b
    · rw [hc, hb]
      exact .inr rfl
    · rw [hbuf c hc]
      exact h.one_dev c
  · -- only the recycled buffer is for block `k`
    by_cases hcb' : c = b <;> by_cases hcb'' : c' = b
    · rw [hcb', hcb'']
    · subst hcb'
      rw [hcb] at hc
      exact absurd (hc ▸ (hcach c' j hcb'').mp hc') (hnew c')
    · subst hcb''
      rw [hcb] at hc'
      exact absurd (hc' ▸ (hcach c j hcb').mp hc) (hnew c)
    · exact h.uniq c c' j ((hcach c j hcb').mp hc) ((hcach c' j hcb'').mp hc')
  · have hu : s'.users c = s.users c - held (s.hold p c) + held (s'.hold p c) :=
      users_change fun q hq => hhold q c (.inl hq)
    have hr := h.refs c
    by_cases hc : c = b
    · subst hc
      rw [h0, show (s.buf c).pinned pins = 0 from ?_] at hr
      · rw [hb, hu, hnone p, hp]
        simp only [Buf.pinned, hkpins, held]
        simp at hr ⊢
        omega
      · refine if_neg fun hpin => hunpinned _ hpin.2 ⟨hpin.1, rfl⟩
    · rw [hhold p c (.inr hc)] at hu
      rw [hbuf c hc]
      omega
  · by_cases hc : c = b
    · subst hc
      rw [hb]
      rcases hstage q with hq | hq <;> simp [hq, Stage.owns]
    · rw [hbuf c hc, hother q c hc]
      exact h.lock q c
  · by_cases hc : c = b
    · subst hc
      by_cases hq : q = p
      · rw [hq, hp, Option.some.injEq] at hx
        subst hx
        exact ⟨rfl, (hcb k).mpr rfl⟩
      · rw [hhold q c (.inl hq), hnone q] at hx
        cases hx
    · rw [hhold q c (.inr hc)] at hx
      exact ⟨(h.asked q c x hx).1, hstay c _ (h.asked q c x hx).2 hc⟩
  · by_cases hc : c = b
    · subst hc
      rcases hstage q with hq' | hq' <;> simp [hq', Stage.reads] at hq
    · rw [hother q c hc] at hq
      rw [hbuf c hc]
      exact h.valid q c hq
  · by_cases hcb' : c = b
    · subst hcb'
      simp [hb] at hv
    · rw [hbuf c hcb'] at hv ⊢
      rw [hrest.2.2]
      exact h.data c j ((hcach c j hcb').mp hc) hv
  · rw [hrest.2.1, hrest.2.2]
    rcases h.clean j with hk | hk | ⟨q, c, hq, hc⟩
    · exact .inl hk
    · exact .inr (.inl hk)
    · have hne : c ≠ b := by
        rintro rfl
        simp [stage, hnone q] at hq
      exact .inr (.inr ⟨q, c, (hother q c hne).trans hq, hstay c j hc hne⟩)
  · obtain ⟨c, hc, hv⟩ := h.kept j hj
    have hne : c ≠ b := by
      rintro rfl
      exact hunpinned j hj hc
    exact ⟨c, hstay c j hc hne, by rw [hbuf c hne]; exact hv⟩

theorem bget (hdev : dev ≠ 0) (hs : s.bget p dev k = .ok (b, s')) : Clear dev pins s' := by
  unfold Cache.bget at hs
  split at hs
  · rename_i c hc
    split at hs
    · cases hs
    rename_i hn
    cases hs
    have hid := List.find?_some hc
    simp only [decide_eq_true_eq] at hid
    exact h.hit ⟨hid.1.symm ▸ hdev, hid.2⟩ (by simpa using hn)
  · rename_i hmiss
    split at hs
    · rename_i c hc
      cases hs
      exact h.recycle hdev hmiss (by simpa using List.find?_some hc)
    · cases hs

end

end Clear

theorem put_same {x : D} (h : (s.buf b).data = x) : s.put b x = s := by
  subst h
  simp [put, setBuf]

/-! What an operation of `p` at buffer `b` leaves alone, and what it does. -/

structure Touch (p : Fin NPROC) (b : Fin NBUF) (s s' : Cache D) : Prop where
  hold : ∀ q c, q ≠ p ∨ c ≠ b → s'.hold q c = s.hold q c
  ident : ∀ c k, s.Caches c k → s'.Caches c k ∨ (s.buf c).refcnt = 0

theorem caches_setBuf {f : Buf D → Buf D}
    (hf : (f (s.buf b)).dev = (s.buf b).dev ∧ (f (s.buf b)).blockno = (s.buf b).blockno) :
    (s.setBuf b f).Caches c k ↔ s.Caches c k := by
  unfold Caches
  by_cases hcb : c = b
  · subst hcb
    rw [setBuf_self, hf.1, hf.2]
  · rw [setBuf_other _ _ hcb]

theorem caches_bpin : (s.bpin b).Caches c k ↔ s.Caches c k :=
  caches_setBuf ⟨rfl, rfl⟩

theorem caches_bunpin : (s.bunpin b).Caches c k ↔ s.Caches c k :=
  caches_setBuf ⟨rfl, rfl⟩

theorem touch_set {f : Buf D → Buf D} {x : Option Hold}
    (hf : (f (s.buf b)).dev = (s.buf b).dev ∧ (f (s.buf b)).blockno = (s.buf b).blockno) :
    Touch p b s ((s.setBuf b f).setHold p b x) :=
  ⟨fun _ _ hq => setHold_other _ _ hq, fun _ _ hc => .inl ((caches_setBuf hf).mpr hc)⟩

theorem bget_spec (h : Clear dev pins s) (hs : s.bget p d k = .ok (b, s')) :
    Touch p b s s' ∧ s.hold p b = none ∧ s'.hold p b = some ⟨.wait, d, k⟩ ∧ s'.disk = s.disk ∧
      s'.latest = s.latest := by
  unfold Cache.bget at hs
  split at hs
  · split at hs
    · cases hs
    rename_i hn
    cases hs
    exact ⟨touch_set ⟨rfl, rfl⟩, by simpa using hn, setHold_self .., rfl, rfl⟩
  · split at hs
    · rename_i c hc
      cases hs
      have h0 : (s.buf b).refcnt = 0 := by simpa using List.find?_some hc
      refine ⟨⟨fun q c hq => setHold_other _ _ hq, fun c j hcj => ?_⟩, (h.unused h0).1 p,
        setHold_self .., rfl, rfl⟩
      by_cases hcb : c = b
      · exact .inr (hcb ▸ h0)
      · refine .inl ?_
        unfold Caches
        rw [(setHold_rest ..).1, setBuf_other _ _ hcb]
        exact hcj
    · cases hs

theorem acquiresleep_spec (hs : s.acquiresleep p b = .ok s') :
    Touch p b s s' ∧ s'.disk = s.disk ∧ s'.latest = s.latest ∧
      ∃ d k, s.hold p b = some ⟨.wait, d, k⟩ ∧ s'.hold p b = some ⟨.locked, d, k⟩ := by
  obtain ⟨hg, hs⟩ := guard_ok.mp hs
  obtain ⟨d, k, hh⟩ := hold_of_stage hg.1
  cases hs
  exact ⟨touch_set ⟨rfl, rfl⟩, rfl, rfl, d, k, hh, by simp [restage, hh]⟩

theorem fill_spec (hs : s.fill p b = .ok s') :
    Touch p b s s' ∧ s'.disk = s.disk ∧ s'.latest = s.latest ∧
      ∃ d k, s.hold p b = some ⟨.locked, d, k⟩ ∧ s'.hold p b = some ⟨.ready, d, k⟩ := by
  obtain ⟨hg, hs⟩ := guard_ok.mp hs
  obtain ⟨d, k, hh⟩ := hold_of_stage hg
  cases hs
  split
  · refine ⟨?_, rfl, rfl, d, k, hh, by simp [restage, hh]⟩
    exact ⟨fun q c hq => setHold_other _ _ hq, fun c k hc => .inl hc⟩
  · exact ⟨touch_set ⟨rfl, rfl⟩, rfl, rfl, d, k, hh, by simp [restage, load, hh]⟩

theorem modify_spec {x : D} (hs : s.modify p b x = .ok s') :
    Touch p b s s' ∧ s'.disk = s.disk ∧
      s'.latest = update s.latest (s.buf b).blockno x ∧
      ∃ st d k, st.reads = true ∧ s.hold p b = some ⟨st, d, k⟩ ∧
        s'.hold p b = some ⟨.dirty, d, k⟩ := by
  obtain ⟨hr, hs⟩ := guard_ok.mp hs
  obtain ⟨st, d, k, hh, -, hreads⟩ := Clear.hold_of_reads hr
  cases hs
  refine ⟨⟨fun q c hq => setHold_other _ _ hq, ?_⟩, rfl, rfl, st, d, k, hreads, hh, ?_⟩
  · exact (touch_set (p := p) (x := none) (f := fun y => { y with data := x }) ⟨rfl, rfl⟩).ident
  · simp [restage, put, hh]

theorem bwrite_spec (hs : s.bwrite p b = .ok s') :
    Touch p b s s' ∧ s'.disk = update s.disk (s.buf b).blockno (s.buf b).data ∧
      s'.latest = s.latest ∧ (∀ c, s'.buf c = s.buf c) ∧
      ∃ st d k, st.reads = true ∧ s.hold p b = some ⟨st, d, k⟩ ∧
        s'.hold p b = some ⟨.ready, d, k⟩ := by
  obtain ⟨-, hs⟩ := unless_ok.mp hs
  obtain ⟨hr, hs⟩ := guard_ok.mp hs
  obtain ⟨st, d, k, hh, -, hreads⟩ := Clear.hold_of_reads hr
  cases hs
  refine ⟨⟨fun q c hq => setHold_other _ _ hq, fun c k hc => .inl hc⟩, rfl, rfl, fun _ => rfl,
    st, d, k, hreads, hh, by simp [restage, hh]⟩

theorem brelse_spec (hs : s.brelse p b = .ok s') :
    Touch p b s s' ∧ s'.disk = s.disk ∧ s'.latest = s.latest ∧
      ∃ d k, s.hold p b = some ⟨.ready, d, k⟩ ∧ s'.hold p b = some ⟨.left, d, k⟩ := by
  obtain ⟨-, hs⟩ := unless_ok.mp hs
  obtain ⟨hr, hs⟩ := guard_ok.mp hs
  obtain ⟨d, k, hh⟩ := hold_of_stage hr
  cases hs
  exact ⟨touch_set ⟨rfl, rfl⟩, rfl, rfl, d, k, hh, by simp [restage, hh]⟩

theorem unref_spec (hs : s.unref p b = .ok s') :
    Touch p b s s' ∧ s'.disk = s.disk ∧ s'.latest = s.latest ∧
      ∃ d k, s.hold p b = some ⟨.left, d, k⟩ ∧ s'.hold p b = none := by
  obtain ⟨hr, hs⟩ := guard_ok.mp hs
  obtain ⟨d, k, hh⟩ := hold_of_stage hr
  have ht := touch_set (s := s) (p := p) (b := b) (x := none)
    (f := fun y => { y with refcnt := y.refcnt - 1 }) ⟨rfl, rfl⟩
  cases hs
  split
  · exact ⟨⟨ht.hold, ht.ident⟩, rfl, rfl, d, k, hh, setHold_self ..⟩
  · exact ⟨ht, rfl, rfl, d, k, hh, setHold_self ..⟩

theorem boot_clear [Inhabited D] (dev : Nat) (disk : Nat → D) : Clear dev [] (boot disk) where
  listed := by simp [boot]
  one_dev := fun _ => .inl rfl
  uniq := fun _ _ _ hc => absurd rfl hc.1
  refs := by simp [boot, users, held, Buf.pinned]
  lock := by simp [boot, stage]
  asked := by simp [boot]
  valid := by simp [boot, stage]
  data := fun _ _ hc => absurd rfl hc.1
  clean := fun _ => .inl rfl
  kept := by simp

end Clear

end Cache

end Xv6Audit.Bio
