import Mathlib.Data.Option.Basic
import Xv6Audit.Lib.Ring
import Xv6Audit.Lib.Shared

/-! Console input (`kernel/console.c`): the ring with its three indices, and a line editor that
says what it is for. Echo is left out. -/
namespace Xv6Audit.Console
open Function

def INPUT_BUF_SIZE : Nat := 128

def ctrl (x : Char) : UInt8 := UInt8.ofNat (x.toNat - '@'.toNat)

def newline : UInt8 := 0x0a
def carriageReturn : UInt8 := 0x0d
def delete : UInt8 := 0x7f

/-- A `consoleread` in one go under `cons.lock`: it sleeps with `left` bytes to come, or it
returns. `got` is what it has copied out. -/
inductive Outcome where
  | sleep (left : Nat) (got : List UInt8)
  | done (got : List UInt8) (ret : Int)
deriving DecidableEq, Repr

structure Device (σ : Type) where
  intr : σ → UInt8 → σ
  read : (killed : Bool) → (target left : Nat) → (got : List UInt8) → σ → σ × Outcome

/-! The code. -/

structure Cons where
  buf : Nat → UInt8
  r : BitVec 32
  w : BitVec 32
  e : BitVec 32

namespace Cons

def killLine : Nat → Cons → Cons
  | 0, c => c
  | k+1, c =>
    if c.e ≠ c.w ∧ c.buf ((c.e - 1).toNat % INPUT_BUF_SIZE) ≠ newline then
      killLine k { c with e := c.e - 1 }
    else c

def store (c : Cons) (x : UInt8) : Cons :=
  let x := if x = carriageReturn then newline else x
  let c := { c with buf := update c.buf (c.e.toNat % INPUT_BUF_SIZE) x, e := c.e + 1 }
  if x = newline ∨ x = ctrl 'D' ∨ c.e - c.r = BitVec.ofNat 32 INPUT_BUF_SIZE then { c with w := c.e }
  else c

def consoleintr (c : Cons) (x : UInt8) : Cons :=
  if x = ctrl 'P' then c
  else if x = ctrl 'U' then killLine (c.e - c.w).toNat c
  else if x = ctrl 'H' ∨ x = delete then
    if c.e ≠ c.w then { c with e := c.e - 1 } else c
  else if x ≠ 0 ∧ c.e - c.r < BitVec.ofNat 32 INPUT_BUF_SIZE then c.store x
  else c

def consoleread (killed : Bool) (target : Nat) : Nat → List UInt8 → Cons → Cons × Outcome
  | 0, got, c => (c, .done got target)
  | n+1, got, c =>
    if c.r = c.w then (c, if killed then .done got (-1) else .sleep (n + 1) got)
    else
      let x := c.buf (c.r.toNat % INPUT_BUF_SIZE)
      let c := { c with r := c.r + 1 }
      if x = ctrl 'D' then
        (if n + 1 < target then { c with r := c.r - 1 } else c, .done got (target - (n + 1 : Nat)))
      else if x = newline then (c, .done (got ++ [x]) (target - n))
      else consoleread killed target n (got ++ [x]) c

def device : Device Cons := ⟨consoleintr, consoleread⟩

def boot (buf : Nat → UInt8) (i : BitVec 32) : Cons := ⟨buf, i, i, i⟩

end Cons

/-! What it is for. -/

structure Editor where
  committed : List UInt8
  line : List UInt8
deriving DecidableEq, Repr

namespace Editor

def size (t : Editor) : Nat := t.committed.length + t.line.length

def add (t : Editor) (x : UInt8) : Editor :=
  if x = newline ∨ x = ctrl 'D' ∨ t.size + 1 = INPUT_BUF_SIZE then
    ⟨t.committed ++ t.line ++ [x], []⟩
  else { t with line := t.line ++ [x] }

def intr (t : Editor) (x : UInt8) : Editor :=
  if x = ctrl 'P' then t
  else if x = ctrl 'U' then { t with line := [] }
  else if x = ctrl 'H' ∨ x = delete then { t with line := t.line.dropLast }
  else if x = 0 ∨ t.size = INPUT_BUF_SIZE then t
  else t.add (if x = carriageReturn then newline else x)

/-- A reader gets bytes up to a newline. Control-D ends the read, and stays for the next one if
there were bytes. -/
def take (killed : Bool) : Nat → List UInt8 → List UInt8 → List UInt8 × Outcome
  | 0, got, q => (q, .done got got.length)
  | n+1, got, [] => ([], if killed then .done got (-1) else .sleep (n + 1) got)
  | n+1, got, x :: q =>
    if x = ctrl 'D' then (if got = [] then q else x :: q, .done got got.length)
    else if x = newline then (q, .done (got ++ [x]) (got ++ [x]).length)
    else take killed n (got ++ [x]) q

def read (killed : Bool) (_target left : Nat) (got : List UInt8) (t : Editor) : Editor × Outcome :=
  let r := take killed left got t.committed
  ({ t with committed := r.1 }, r.2)

def device : Device Editor := ⟨intr, read⟩

def boot : Editor := ⟨[], []⟩

end Editor

/-! Readers. -/

inductive ConsAct (n : Nat) where
  | intr (x : UInt8)
  | read (p : Fin n) (count : Int)
  | resume (p : Fin n)
  | kill (p : Fin n)
deriving DecidableEq, Repr

structure Sleeper where
  target : Nat
  left : Nat
  got : List UInt8
deriving DecidableEq, Repr

structure Readers (σ : Type) (n : Nat) where
  cons : σ
  killed : Fin n → Bool
  asleep : Fin n → Option Sleeper
  log : List (Fin n × List UInt8 × Int)

namespace Readers
variable {σ : Type} {n : Nat}

def run (D : Device σ) (s : Readers σ n) (p : Fin n) (x : Sleeper) : Readers σ n :=
  let r := D.read (s.killed p) x.target x.left x.got s.cons
  match r.2 with
  | .sleep left got =>
    { s with cons := r.1, asleep := update s.asleep p (some { x with left := left, got := got }) }
  | .done got ret =>
    { s with cons := r.1, asleep := update s.asleep p none, log := s.log ++ [(p, got, ret)] }

def step (D : Device σ) (s : Readers σ n) : ConsAct n → Option (Readers σ n)
  | .intr x => some { s with cons := D.intr s.cons x }
  | .read p count =>
    match s.asleep p with
    | none => some (s.run D p ⟨count.toNat, count.toNat, []⟩)
    | some _ => none
  | .resume p => (s.asleep p).map fun x => s.run D p x
  | .kill p => some { s with killed := update s.killed p true }

def boot (c : σ) : Readers σ n := ⟨c, fun _ => false, fun _ => none, []⟩

end Readers

/-! The ring is the editor. -/

def Cons.ring (c : Cons) : Ring UInt8 32 := ⟨c.buf, c.r, c.e⟩

structure Sees (c : Cons) (t : Editor) : Prop where
  contents : c.ring.contents INPUT_BUF_SIZE = t.committed ++ t.line
  released : (c.w - c.r).toNat = t.committed.length
  fits : t.size ≤ INPUT_BUF_SIZE
  edited : newline ∉ t.line

section Sees
variable {c : Cons} {t : Editor}

theorem size_dvd : INPUT_BUF_SIZE ∣ 2 ^ 32 := by decide

theorem size_lt : INPUT_BUF_SIZE < 2 ^ 32 := by decide

section
variable (h : Sees c t)
include h

theorem Sees.used : c.ring.used = t.size := by
  rw [← Ring.contents_length INPUT_BUF_SIZE, h.contents, List.length_append]
  rfl

theorem Sees.edit_eq : (c.e - c.r).toNat = t.size := h.used

theorem Sees.line_length : (c.e - c.w).toNat = t.line.length := by
  have hd : c.e - c.w = (c.e - c.r) - (c.w - c.r) := by bv_omega
  have hle : c.w - c.r ≤ c.e - c.r := by
    rw [BitVec.le_def, h.released, h.edit_eq]
    exact Nat.le_add_right ..
  rw [hd, BitVec.toNat_sub_of_le hle, h.released, h.edit_eq]
  exact Nat.add_sub_cancel_left ..

theorem Sees.edit_ne_iff : c.e ≠ c.w ↔ t.line ≠ [] := by
  have hl := h.line_length
  refine not_congr ⟨fun he => ?_, fun he => ?_⟩
  · rw [he, BitVec.sub_self] at hl
    exact List.length_eq_zero_iff.mp hl.symm
  · rw [he, List.length_nil] at hl
    have hz : c.e - c.w = 0#32 := BitVec.eq_of_toNat_eq hl
    rw [← BitVec.sub_add_cancel c.e c.w, hz, BitVec.zero_add]

theorem Sees.read_eq_iff : c.r = c.w ↔ t.committed = [] := by
  have hr := h.released
  constructor
  · intro he
    rw [he, BitVec.sub_self] at hr
    exact List.length_eq_zero_iff.mp hr.symm
  · intro he
    rw [he, List.length_nil] at hr
    have hz : c.w - c.r = 0#32 := BitVec.eq_of_toNat_eq hr
    rw [← BitVec.sub_add_cancel c.w c.r, hz, BitVec.zero_add]

theorem Sees.read_ne_edit (hs : t.size ≠ 0) : c.ring.nread ≠ c.ring.nwrite :=
  fun he => hs (h.used.symm.trans (Ring.used_eq_zero_iff.mpr he))

theorem Sees.unput (hl : t.line ≠ []) :
    Sees { c with e := c.e - 1 } { t with line := t.line.dropLast } ∧
    c.buf ((c.e - 1).toNat % INPUT_BUF_SIZE) ≠ newline := by
  have hlen : 0 < t.line.length := List.length_pos_iff.mpr hl
  have hne : c.ring.nread ≠ c.ring.nwrite := h.read_ne_edit (by unfold Editor.size; omega)
  obtain ⟨-, hcon⟩ := Ring.contents_unput size_dvd size_lt (by decide) hne
  have hsplit : t.committed ++ t.line.dropLast ++ [t.line.getLast hl] =
      c.ring.unput.contents INPUT_BUF_SIZE ++ [c.ring.last INPUT_BUF_SIZE] := by
    rw [List.append_assoc, List.dropLast_append_getLast, ← hcon, h.contents]
  obtain ⟨hinit, hlast⟩ := List.append_inj' hsplit rfl
  refine ⟨⟨hinit.symm, h.released, ?_, fun hm => h.edited (List.dropLast_subset _ hm)⟩, ?_⟩
  · have hfits := h.fits
    unfold Editor.size at hfits ⊢
    simp only [List.length_dropLast]
    omega
  · have hx : c.ring.last INPUT_BUF_SIZE = t.line.getLast hl := (List.cons.inj hlast).1.symm
    change c.ring.last INPUT_BUF_SIZE ≠ newline
    rw [hx]
    exact fun he => h.edited (he ▸ List.getLast_mem hl)

theorem Sees.killLine {k : Nat} (hk : t.line.length = k) :
    Sees (Cons.killLine k c) { t with line := [] } := by
  induction k generalizing c t with
  | zero =>
    have hnil := List.length_eq_zero_iff.mp hk
    rw [← hnil]
    exact h
  | succ k ih =>
    have hl : t.line ≠ [] := fun he => by simp [he] at hk
    obtain ⟨hs, hx⟩ := h.unput hl
    rw [Cons.killLine, if_pos ⟨h.edit_ne_iff.mpr hl, hx⟩]
    have hrest := ih hs (by simp [hk])
    exact hrest

theorem Sees.append (hroom : t.size < INPUT_BUF_SIZE) (x : UInt8) :
    (c.e + 1 - c.r).toNat = t.size + 1 ∧
    (x ≠ newline → Sees { c with
      buf := update c.buf (c.e.toNat % INPUT_BUF_SIZE) x, e := c.e + 1 }
      { t with line := t.line ++ [x] }) ∧
    Sees { c with
      buf := update c.buf (c.e.toNat % INPUT_BUF_SIZE) x, e := c.e + 1, w := c.e + 1 }
      ⟨t.committed ++ t.line ++ [x], []⟩ := by
  have hused : c.ring.used < INPUT_BUF_SIZE := h.used ▸ hroom
  obtain ⟨h1, h2⟩ := Ring.contents_put size_dvd size_lt hused x
  rw [h.used] at h1
  rw [h.contents] at h2
  refine ⟨h1, fun hx => ⟨?_, h.released, ?_, ?_⟩, ⟨?_, ?_, ?_, by simp⟩⟩
  · rw [← List.append_assoc]
    exact h2
  · unfold Editor.size at hroom ⊢
    simp only [List.length_append, List.length_singleton]
    omega
  · simpa [h.edited] using Ne.symm hx
  · rw [List.append_nil]
    exact h2
  · refine h1.trans ?_
    unfold Editor.size
    simp only [List.length_append, List.length_singleton]
  · unfold Editor.size at hroom ⊢
    simp only [List.length_append, List.length_singleton, List.length_nil]
    omega

theorem Sees.store (hroom : t.size < INPUT_BUF_SIZE) (x : UInt8) :
    Sees (c.store x) (t.add (if x = carriageReturn then newline else x)) := by
  unfold Cons.store
  generalize (if x = carriageReturn then newline else x) = y
  obtain ⟨hfull, hline, hrel⟩ := h.append hroom y
  have hiff : c.e + 1 - c.r = BitVec.ofNat 32 INPUT_BUF_SIZE ↔ t.size + 1 = INPUT_BUF_SIZE := by
    rw [← hfull]
    constructor
    · intro he
      rw [he]
      rfl
    · exact fun he => BitVec.eq_of_toNat_eq he
  unfold Editor.add
  simp only [hiff]
  split
  · exact hrel
  · rename_i hno
    exact hline fun he => hno (.inl he)

theorem Sees.intr (x : UInt8) : Sees (c.consoleintr x) (t.intr x) := by
  have hroom : c.e - c.r < BitVec.ofNat 32 INPUT_BUF_SIZE ↔ t.size < INPUT_BUF_SIZE := by
    rw [BitVec.lt_def, h.edit_eq]
    rfl
  unfold Cons.consoleintr Editor.intr
  split
  · exact h
  split
  · exact h.killLine h.line_length.symm
  split
  · split
    · rename_i hne
      exact (h.unput (h.edit_ne_iff.mp hne)).1
    · rename_i he
      have hnil : t.line = [] := by
        by_contra hl
        exact he (h.edit_ne_iff.mpr hl)
      rw [hnil]
      have ht : t = ⟨t.committed, []⟩ := by rw [← hnil]
      rw [ht] at h
      exact h
  have hfits := h.fits
  split
  · rename_i hg
    rw [hroom] at hg
    have hno : ¬ (x = 0 ∨ t.size = INPUT_BUF_SIZE) := by
      rintro (h0 | hf)
      · exact hg.1 h0
      · exact absurd hg.2 (by omega)
    rw [if_neg hno]
    exact h.store hg.2 x
  · rename_i hg
    rw [hroom] at hg
    have hyes : x = 0 ∨ t.size = INPUT_BUF_SIZE := by
      by_contra hno
      rw [not_or] at hno
      exact hg ⟨hno.1, by omega⟩
    rw [if_pos hyes]
    exact h

theorem Sees.drop {x : UInt8} {q : List UInt8} (hq : t.committed = x :: q) :
    c.buf (c.r.toNat % INPUT_BUF_SIZE) = x ∧
    Sees { c with r := c.r + 1 } { t with committed := q } := by
  have hsize : t.size = q.length + 1 + t.line.length := by
    unfold Editor.size
    rw [hq, List.length_cons]
  have hne := h.read_ne_edit (by omega)
  obtain ⟨-, hcon⟩ := Ring.contents_drop size_dvd size_lt (by decide) hne
  rw [h.contents, hq, List.cons_append] at hcon
  obtain ⟨hx, hrest⟩ := List.cons.inj hcon
  refine ⟨hx.symm, hrest.symm, ?_, ?_, h.edited⟩
  · have hrel := h.released
    rw [hq, List.length_cons] at hrel
    have hle : 1#32 ≤ c.w - c.r := by
      rw [BitVec.le_def, hrel]
      exact Nat.le_add_left ..
    change (c.w - (c.r + 1#32)).toNat = q.length
    rw [← BitVec.sub_sub, BitVec.toNat_sub_of_le hle, hrel]
    rfl
  · have hfits := h.fits
    rw [hsize] at hfits
    change q.length + t.line.length ≤ _
    omega

theorem Sees.read (killed : Bool) {target n : Nat} {got : List UInt8} (hn : n + got.length = target) :
    (Cons.consoleread killed target n got c).2 = (Editor.read killed target n got t).2 ∧
    Sees (Cons.consoleread killed target n got c).1 (Editor.read killed target n got t).1 ∧
    ∀ left got', (Editor.read killed target n got t).2 = .sleep left got' →
      left + got'.length = target := by
  unfold Editor.read
  induction n generalizing got c t with
  | zero =>
    have hlen : got.length = target := by omega
    refine ⟨?_, h, fun left got' ho => by cases ho⟩
    rw [Cons.consoleread, Editor.take, hlen]
  | succ n ih =>
    cases hq : t.committed with
    | nil =>
      have ht : t = ⟨[], t.line⟩ := by rw [← hq]
      rw [Cons.consoleread, if_pos (h.read_eq_iff.mpr hq), Editor.take]
      refine ⟨rfl, ?_, fun left got' ho => ?_⟩
      · rw [ht] at h
        exact h
      · cases killed with
        | true => cases ho
        | false =>
          cases ho
          exact hn
    | cons x q =>
      have hne : c.r ≠ c.w := fun he => by simp [h.read_eq_iff.mp he] at hq
      obtain ⟨hx, hs⟩ := h.drop hq
      rw [Cons.consoleread, if_neg hne, Editor.take, hx]
      simp only
      by_cases hd : x = ctrl 'D'
      · -- put back unless nothing was copied yet
        simp only [if_pos hd]
        refine ⟨congrArg (Outcome.done got) (by omega), ?_, fun left got' ho => by cases ho⟩
        by_cases hg : got = []
        · have hlt : ¬ n + 1 < target := by simp [hg] at hn; omega
          rw [if_neg hlt, if_pos hg]
          exact hs
        · have hlt : n + 1 < target := by
            have := List.length_pos_iff.mpr hg
            omega
          rw [if_pos hlt, if_neg hg]
          have hc : c.r + 1 - 1 = c.r := BitVec.add_sub_cancel ..
          have ht : t = ⟨x :: q, t.line⟩ := by rw [← hq]
          rw [hc]
          rw [ht] at h
          exact h
      · simp only [if_neg hd]
        by_cases hnl : x = newline
        · simp only [if_pos hnl]
          refine ⟨congrArg (Outcome.done (got ++ [x])) ?_, hs, fun left got' ho => by cases ho⟩
          simp only [List.length_append, List.length_singleton]
          omega
        · simp only [if_neg hnl]
          have hlen : n + (got ++ [x]).length = target := by
            simp only [List.length_append, List.length_singleton]
            omega
          exact ih hs hlen

end

end Sees

namespace Readers
variable {n : Nat}

structure Agree (s : Readers Cons n) (t : Readers Editor n) : Prop where
  sees : Sees s.cons t.cons
  killed : s.killed = t.killed
  asleep : s.asleep = t.asleep
  log : s.log = t.log
  left : ∀ p x, t.asleep p = some x → x.left + x.got.length = x.target

variable {s : Readers Cons n} {t : Readers Editor n}

theorem Agree.run (h : Agree s t) (p : Fin n) {x : Sleeper} (hx : x.left + x.got.length = x.target) :
    Agree (s.run Cons.device p x) (t.run Editor.device p x) := by
  obtain ⟨hout, hsees, hleft⟩ := h.sees.read (t.killed p) hx
  have hold : ∀ y, (∀ v, y = some v → v.left + v.got.length = v.target) → ∀ q v,
      update t.asleep p y q = some v → v.left + v.got.length = v.target := by
    intro y hy q v hv
    by_cases hq : q = p
    · rw [hq, update_self] at hv
      exact hy v hv
    · rw [update_of_ne hq] at hv
      exact h.left q v hv
  unfold Readers.run
  simp only [Cons.device, Editor.device, h.killed, hout]
  split
  · rename_i left got ho
    exact ⟨hsees, rfl, by rw [h.asleep], h.log, hold _ fun v hv => by
      cases hv
      exact hleft left got ho⟩
  · exact ⟨hsees, rfl, by rw [h.asleep], by rw [h.log], hold _ fun v hv => by cases hv⟩

theorem Agree.step (h : Agree s t) (a : ConsAct n) :
    Option.Rel Agree (s.step Cons.device a) (t.step Editor.device a) := by
  cases a with
  | intr x => exact .some ⟨h.sees.intr x, h.killed, h.asleep, h.log, h.left⟩
  | kill p => exact .some ⟨h.sees, by rw [h.killed], h.asleep, h.log, h.left⟩
  | read p count =>
    simp only [Readers.step, h.asleep]
    cases t.asleep p with
    | none => exact .some (h.run p rfl)
    | some x => exact .none
  | resume p =>
    simp only [Readers.step, h.asleep]
    cases hx : t.asleep p with
    | none => exact .none
    | some x => exact .some (h.run p (h.left p x hx))

end Readers

/-- In every interleaving of characters and reads by any number of processes, with indices that
start anywhere: the reads return the bytes, and sleep, as with the line editor, and the indices
are in order. -/
theorem console_refines_editor (n : Nat) (buf : Nat → UInt8) (i : BitVec 32)
    (acts : List (ConsAct n)) :
    (Run.exec (Readers.step Cons.device) (Readers.boot (Cons.boot buf i)) acts).map
      (fun s => (s.log, s.asleep)) =
    (Run.exec (Readers.step Editor.device) (Readers.boot Editor.boot) acts).map
      (fun t => (t.log, t.asleep)) ∧
    ∀ s, Run.exec (Readers.step Cons.device) (Readers.boot (Cons.boot buf i)) acts = some s →
      (s.cons.w - s.cons.r).toNat ≤ (s.cons.e - s.cons.r).toNat ∧
      (s.cons.e - s.cons.r).toNat ≤ INPUT_BUF_SIZE := by
  have hboot : Sees (Cons.boot buf i) Editor.boot := by
    refine ⟨?_, ?_, by decide, by simp [Editor.boot]⟩
    · simp [Ring.contents, Ring.used, Cons.ring, Cons.boot, Editor.boot]
    · simp [Cons.boot, Editor.boot]
  have hrel := Run.exec_lockstep (fun a h => Readers.Agree.step h a)
    (⟨hboot, rfl, rfl, rfl, fun p x hx => by cases hx⟩ :
      Readers.Agree (Readers.boot (Cons.boot buf i) : Readers Cons n) (Readers.boot Editor.boot)) acts
  generalize Run.exec (Readers.step Cons.device) (Readers.boot (Cons.boot buf i)) acts = x at hrel ⊢
  generalize Run.exec (Readers.step Editor.device) (Readers.boot Editor.boot) acts = y at hrel ⊢
  cases hrel with
  | none => exact ⟨rfl, fun s hs => by cases hs⟩
  | some h =>
    refine ⟨by simp [h.log, h.asleep], fun s hs => ?_⟩
    cases hs
    rw [h.sees.released, h.sees.edit_eq]
    exact ⟨Nat.le_add_right .., h.sees.fits⟩

example : (Run.exec (Readers.step Cons.device)
    (Readers.boot (Cons.boot (fun _ => 0) (BitVec.ofNat 32 (2 ^ 32 - 2))) : Readers Cons 2)
    [.intr 0x61, .read 0 5, .intr 0x62, .intr 0x08, .intr 0x0d, .resume 0]).map (·.log) =
    some [(0, [0x61, 0x0a], 2)] := by decide +kernel

end Xv6Audit.Console
