import Xv6Audit.Audit.Text
import Xv6Audit.File.LogHandle

/-! `syscall()` with its audit tail, next to the same dispatch without it. The handlers and
the file system are arbitrary; the file table, the log handle and the tail are the source's.
-/
namespace Xv6Audit.Dispatch

open Prog Audit Ftable

/-- Kernel state outside the tail's own globals: the file table, `opened` and `f`,
`prev_tick` of `check`, and everything else. -/
structure Kernel (R : Type) where
  files : Files
  log : LogFile
  prevTick : UInt32
  rest : R

structure System (R : Type) where
  handler : Nat → Fin NPROC → Prog (Files × R) String (Option UInt64)
  arg0 : R → Fin NPROC → Int
  setA0 : Fin NPROC → UInt64 → R → R
  name : R → Fin NPROC → ProcName
  create : Fin NPROC → R → Option Found × R
  putBack : List Released → R → R
  write : Sink → List UInt8 → Prog R String Unit
  stack : Mem

structure Req where
  p : Fin NPROC
  a7 : Int
  tick : UInt32

def NSYSCALLS : Nat := 24
def SYS_check : Nat := 23

def Req.known (c : Req) : Prop := 0 < c.a7 ∧ c.a7 < NSYSCALLS

instance (c : Req) : Decidable c.known := inferInstanceAs (Decidable (_ ∧ _))

section Model
variable {R : Type} (S : System R)

def onFiles {α : Type} (c : FileProg α) : Prog (Kernel R) String α :=
  zoom Kernel.files (fun f k => { k with files := f }) c

def onRest {α : Type} (c : Prog R String α) : Prog (Kernel R) String α :=
  zoom Kernel.rest (fun r k => { k with rest := r }) c

def onHandler {α : Type} (c : Prog (Files × R) String α) : Prog (Kernel R) String α :=
  zoom (fun k => (k.files, k.rest)) (fun fr k => { k with files := fr.1, rest := fr.2 }) c

def askCreate (p : Fin NPROC) (opened : Bool) : Prog R String (Option Found) := fun r =>
  if opened then (.ok none, r) else (.ok (S.create p r).1, (S.create p r).2)

def writeToLogs (p : Fin NPROC) (bytes : List UInt8) : Prog (Kernel R) String Unit := do
  let k ← get
  let found ← onRest (askCreate S p k.log.opened)
  let (log, released) ← onFiles (ensureOpened p found k.log)
  modify fun k => { k with log := log, rest := S.putBack released k.rest }
  let i ← log.entry
  let sink ← onFiles (kfilewrite i)
  onRest (S.write sink bytes)

def checkArray : Mem := fun i =>
  if i = 0 then 72 else if i = 1 then 65 else if i = 2 then 80 else S.stack i

def check (p : Fin NPROC) (tick : UInt32) : Prog (Kernel R) String (Option UInt64) := do
  if 50 < (tick - (← get).prevTick).toNat then
    writeToLogs S p (payload (checkArray S))
    modify fun k => { k with prevTick := tick }
    pure (some 1)
  else pure (some 0)

def dispatch (c : Req) : Prog (Kernel R) String (Option UInt64) := do
  if c.known then
    let num := c.a7.toNat
    let r ← if num = SYS_check then check S c.p c.tick else onHandler (S.handler num c.p)
    match r with
    | none => pure none
    | some v =>
      modify fun k => { k with rest := S.setA0 c.p v k.rest }
      pure (some v)
  else
    modify fun k => { k with rest := S.setA0 c.p (-1) k.rest }
    pure (some (-1))

structure St (R : Type) where
  k : Kernel R
  logger : Logger

def onKernel {α : Type} (c : Prog (Kernel R) String α) : Prog (St R) String α :=
  zoom St.k (fun k s => { s with k := k }) c

def takesFd (num : Nat) : Bool := num ∈ [5, 8, 10, 15, 16, 21]

def captured (k : Kernel R) (c : Req) : Option (Fin NFILE) :=
  if takesFd c.a7.toNat then (k.files.argfd c.p (S.arg0 k.rest c.p)).map Prod.snd else none

def recNow (k : Kernel R) (c : Req) (fd : Option (Fin NFILE)) : Rec where
  name := S.name k.rest c.p
  num := c.a7.toNat
  fd := fd.map fun i => ((k.files.file i).readable, (k.files.file i).writable)

def flushTail (c : Req) : Prog (St R) String Unit := do
  let s ← get
  if flushDue s.logger.log.prevTickss c.tick then
    onKernel (writeToLogs S c.p (payload s.logger.log.buff))
    modify fun s => { s with logger.log := endFlush s.logger.log c.tick }
  else pure ()

/-- The append of the tail. An access outside `buff` or `name_from_num` is undefined, and
ends the run here. -/
def appendTail (c : Req) (fd : Option (Fin NFILE)) : Prog (St R) String Unit := do
  let s ← get
  let r := recNow S s.k c fd
  if r.num < nameFromNum.length ∧ s.logger.log.offset + extent r ≤ BUFFSIZE then
    set { s with logger.log := appendRec s.logger.log r }
  else throw "out of bounds"

def logTail (c : Req) (fd : Option (Fin NFILE)) (a0 : UInt64) : Prog (St R) String Unit := do
  let s ← get
  let call : Call := ⟨recNow S s.k c fd, a0.toUInt32, c.tick⟩
  let wl := maskAfter s.logger.whitelisted call
  set { s with logger.whitelisted := wl }
  if recorded wl call then
    flushTail S c
    appendTail S c fd
  else pure ()

def syscall (c : Req) : Prog (St R) String (Option UInt64) := do
  let fd := captured S (← get).k c
  let r ← onKernel (dispatch S c)
  if c.known then
    match r with
    | none => pure none
    | some v =>
      logTail S c fd v
      pure (some v)
  else pure r

inductive Seen where
  | returned (r : Option UInt64) (ofile : Fin NPROC → Fin NOFILE → Option (Fin NFILE))
  | panic

def observe {σ : Type} (table : σ → Files) (call : Req → Prog σ String (Option UInt64)) :
    List Req → σ → List Seen
  | [], _ => []
  | c :: cs, s =>
    match call c s with
    | (.ok r, s') => .returned r (table s').ofile :: observe table call cs s'
    | (.error _, _) => [.panic]

def Transparent (s : St R) (cs : List Req) : Prop :=
  observe (fun s => s.k.files) (syscall S) cs s = observe Kernel.files (dispatch S) cs s.k

def RECMAX : Nat := 32

/-- Before the call: if it is going to be recorded then its name is in the table, no flush
is due, and any record still fits into `buff`. -/
def Quiet (s : St R) (c : Req) : Prop :=
  c.known → s.logger.whitelisted (c.a7.toNat - 1) ≠ 0 ∨ c.a7.toNat = SYS_audit →
    c.a7.toNat < nameFromNum.length ∧ flushDue s.logger.log.prevTickss c.tick = false ∧
      s.logger.log.offset + RECMAX ≤ BUFFSIZE

instance (s : St R) (c : Req) : Decidable (Quiet s c) := inferInstanceAs (Decidable (_ → _ → _))

def auditedStep (s : St R) (c : Req) : Option (St R) :=
  match syscall S c s with
  | (.ok _, s') => some s'
  | (.error _, _) => none

end Model

/-! A quiet tail. -/

theorem call_length (r : Rec) : r.call.length ≤ 7 := by
  have htab : ∀ n ∈ nameFromNum, (ascii n).length ≤ 7 := by decide
  unfold Rec.call
  by_cases hn : r.num < nameFromNum.length
  · rw [List.getD_eq_getElem _ _ hn]
    exact htab _ (List.getElem_mem hn)
  · rw [List.getD_eq_default _ _ (by omega)]
    decide

theorem extent_le_recmax (r : Rec) : extent r ≤ RECMAX := by
  have hcall := call_length r
  have hname := r.name.short
  unfold extent advance RECMAX
  cases r.fd with
  | some p | none => simp only; omega

section
variable {R : Type} {S : System R}

theorem recorded_maskAfter {wl : Nat → UInt8} {c : Call}
    (h : recorded (maskAfter wl c) c = true) : wl (c.req.num - 1) ≠ 0 ∨ c.req.num = SYS_audit := by
  by_cases ha : c.req.num = SYS_audit
  · exact .inr ha
  · simp only [maskAfter, ha, if_false, recorded] at h
    simpa [ha] using h

theorem wp_flushTail_quiet {s : St R} {c : Req} {Q : Unit → St R → Prop}
    {E : String → St R → Prop} (hdue : flushDue s.logger.log.prevTickss c.tick = false)
    (hQ : Q () s) : wp (flushTail S c) Q E s := by
  simpa only [flushTail, wp_bind, wp_get, hdue, Bool.false_eq_true, if_false, wp_pure] using hQ

theorem logTail_quiet {s : St R} {c : Req} {fd : Option (Fin NFILE)} {a0 : UInt64}
    (hk : c.known) (hq : Quiet s c) :
    wp (logTail S c fd a0) (fun _ t => t.k = s.k) (fun _ _ => False) s := by
  simp only [logTail, wp_bind, wp_get, wp_set, wp_ite, wp_pure, implies_true, and_true]
  intro hrec
  obtain ⟨hnum, hdue, hroom⟩ := hq hk (recorded_maskAfter hrec)
  refine wp_flushTail_quiet hdue ?_
  have hext := extent_le_recmax (recNow S s.k c fd)
  have hok : (recNow S s.k c fd).num < nameFromNum.length ∧
      s.logger.log.offset + extent (recNow S s.k c fd) ≤ BUFFSIZE := ⟨hnum, by omega⟩
  simp only [appendTail, wp_bind, wp_get, hok, and_self, if_true, wp_set]

theorem syscall_quiet {s : St R} {c : Req} (hq : Quiet s c) :
    wp (syscall S c) (fun r t => dispatch S c s.k = (.ok r, t.k))
      (fun e _ => (dispatch S c s.k).1 = .error e) s := by
  simp only [syscall, wp_bind, wp_get, onKernel, wp_zoom]
  refine wp_mono (wp_self _) ?_ (fun e k h => by rw [h])
  intro r k hd
  by_cases hk : c.known
  · rw [if_pos hk]
    cases r with
    | none => exact hd
    | some v =>
      rw [wp_bind]
      refine wp_mono (logTail_quiet hk hq) (fun _ t ht => ?_) (fun _ _ h => h.elim)
      rw [wp_pure, ht]
      exact hd
  · rw [if_neg hk]
    exact hd

/-- In every run whose calls are all quiet, callers see what they would see without the
audit tail. -/
theorem audit_transparent (S : System R) (s : St R) (cs : List Req)
    (hq : Run.Along (auditedStep S) Quiet s cs) : Transparent S s cs := by
  unfold Transparent
  induction cs generalizing s with
  | nil => rfl
  | cons c cs ih =>
    obtain ⟨hc, hcs⟩ := hq
    have hstep := syscall_quiet (S := S) hc
    simp only [observe]
    unfold auditedStep at hcs
    rcases hsys : syscall S c s with ⟨r, t⟩
    rw [hsys] at hcs
    cases r with
    | ok r =>
      have hd := wp_of_run hstep hsys
      simp only [hd]
      rw [ih t hcs]
    | error e =>
      have hd := wp_of_stop hstep hsys
      rcases hdis : dispatch S c s.k with ⟨r, k⟩
      rw [hdis] at hd
      obtain rfl : r = .error e := hd
      rfl

end

/-! A flush shows. -/

section
variable {R : Type} {S : System R}

theorem wp_openEntry_ofile (p : Fin NPROC) (found : Found) (s : Files) :
    wp (openEntry p found) (fun r t => r.1 ≠ none → t.ofile ≠ s.ofile) anyPanic s := by
  simp only [openEntry, wp_ite, wp_pure, wp_bind]
  refine ⟨fun _ h => absurd rfl h, fun _ => wp_filealloc (fun _ h => absurd rfl h) fun i _ => ?_⟩
  rw [wp_bind]
  refine wp_fdalloc (fun _ => ?_) fun fd hfree _ hsame => ?_
  · rw [wp_bind]
    exact wp_fileclose (fun _ => trivial) fun _ _ _ _ h => absurd rfl h
  · -- the descriptor was free and now names the new entry
    have hnow := congrFun (congrFun hsame p) fd
    have hfree' : s.ofile p fd = none := hfree
    simp [Files.setFd, hfree'] at hnow

theorem wp_ensureOpened_ofile {log : LogFile} (p : Fin NPROC) (found : Option Found) (s : Files)
    (ho : log.opened = false) :
    wp (ensureOpened p found log) (fun r t => (∃ i, r.1.f = .entry i) → t.ofile ≠ s.ofile)
      anyPanic s := by
  have hflag : flag O_CREATE O_CREATE = true := by decide
  simp only [ensureOpened, ho, Bool.false_eq_true, if_false, wp_bind]
  cases found with
  | none => simp [helperOpen]
  | some found =>
    simp only [helperOpen, hflag, Bool.true_eq_false, false_and, if_false, wp_bind]
    refine wp_post (wp_openEntry_ofile p found s) ?_
    rintro ⟨_ | ⟨fd, i⟩, r⟩ t ht
    · simp
    · simp only [wp_bind, wp_modify, wp_pure]
      exact fun _ => ht (by simp)

theorem wp_kfilewrite_files (i : Fin NFILE) (s : Files) :
    wp (kfilewrite i) (fun _ t => t = s) anyPanic s := by
  simp only [kfilewrite, wp_bind, wp_get, wp_ite, wp_pure, implies_true, true_and]
  intro _
  cases (s.file i).type with
  | none => trivial
  | _ => rfl

theorem wp_writeToLogs_first {k : Kernel R} (p : Fin NPROC) (bytes : List UInt8)
    (ho : k.log.opened = false) :
    wp (writeToLogs S p bytes) (fun _ t => t.files.ofile ≠ k.files.ofile) (fun _ _ => True) k := by
  have hask : ∀ r, wp (askCreate S p k.log.opened) (fun _ _ => True) (fun _ _ => True) r := by
    intro r
    unfold wp
    split <;> trivial
  simp only [writeToLogs, wp_bind, wp_get, onRest, onFiles, wp_zoom]
  refine wp_post (hask k.rest) fun found r _ => ?_
  refine wp_mono (wp_ensureOpened_ofile p found k.files ho) ?_ (fun _ _ _ => trivial)
  rintro ⟨log, released⟩ t ht
  simp only [wp_modify, LogFile.entry]
  cases hf : log.f with
  | null | bad => trivial
  | entry i =>
    rw [wp_pure]
    refine wp_mono (wp_kfilewrite_files i t) ?_ (fun _ _ _ => trivial)
    rintro sink _ rfl
    exact wp_mono (wp_self _) (fun _ _ _ => ht ⟨i, hf⟩) (fun _ _ _ => trivial)

theorem wp_appendTail_kernel (c : Req) (fd : Option (Fin NFILE)) (s : St R) :
    wp (appendTail S c fd) (fun _ t => t.k = s.k) (fun _ _ => True) s := by
  simp only [appendTail, wp_bind, wp_get, wp_ite, wp_set, wp_throw, implies_true, and_self]

theorem wp_logTail_first {s : St R} {c : Req} (fd : Option (Fin NFILE)) (a0 : UInt64)
    (hrec : s.logger.whitelisted (c.a7.toNat - 1) ≠ 0) (hna : c.a7.toNat ≠ SYS_audit)
    (hdue : flushDue s.logger.log.prevTickss c.tick = true) (ho : s.k.log.opened = false) :
    wp (logTail S c fd a0) (fun _ t => t.k.files.ofile ≠ s.k.files.ofile) (fun _ _ => True) s := by
  have hnum : (recNow S s.k c fd).num = c.a7.toNat := rfl
  simp only [logTail, wp_bind, wp_get, wp_set, maskAfter, hnum, hna, if_false, recorded, hrec,
    ne_eq, not_false_eq_true, decide_true, Bool.true_or, if_true, flushTail, hdue, onKernel, wp_zoom]
  refine wp_post (wp_writeToLogs_first c.p _ ho) fun _ k hk => ?_
  rw [wp_modify]
  exact wp_post (wp_appendTail_kernel c fd _) fun _ t ht => by rw [ht]; exact hk

/-- So a recorded call that finds a flush due with the log not yet open is never
transparent. -/
theorem first_flush_not_transparent {s : St R} {c : Req} {v : UInt64} {k : Kernel R}
    (cs : List Req) (hk : c.known) (hd : dispatch S c s.k = (.ok (some v), k))
    (hrec : s.logger.whitelisted (c.a7.toNat - 1) ≠ 0) (hna : c.a7.toNat ≠ SYS_audit)
    (hdue : flushDue s.logger.log.prevTickss c.tick = true) (ho : k.log.opened = false) :
    ¬ Transparent S s (c :: cs) := by
  have hsys : wp (syscall S c) (fun _ t => t.k.files.ofile ≠ k.files.ofile)
      (fun _ _ => True) s := by
    simp only [syscall, wp_bind, wp_get, onKernel, wp_zoom]
    refine wp_mono (wp_self _) ?_ (fun _ _ _ => trivial)
    intro r k' hd'
    obtain ⟨rfl, rfl⟩ : some v = r ∧ k = k' := by simpa [hd] using hd'
    simp only [hk, if_true, wp_bind, wp_pure]
    exact wp_logTail_first (s := { s with k := k }) _ v hrec hna hdue ho
  intro ht
  simp only [Transparent, observe, hd] at ht
  rcases hrun : syscall S c s with ⟨r, t⟩
  rw [hrun] at ht
  cases r with
  | ok r =>
    have hne := wp_of_run hsys hrun
    simp only [List.cons.injEq, Seen.returned.injEq] at ht
    exact hne ht.1.2
  | error e => simp at ht

end

def plainSystem : System Unit where
  handler := fun _ _ => pure (some 1)
  arg0 := fun _ _ => 0
  setA0 := fun _ _ r => r
  name := fun _ _ => shName
  create := fun _ r => (some logInode, r)
  putBack := fun _ r => r
  write := fun _ _ => pure ()
  stack := fun _ => 0

def consoleFiles (n : Nat) : Files where
  file := fun i => if i = 0 then ⟨.device, n, true, true, 0, 1, 0, 1⟩ else emptyFile
  ofile := fun p fd => if p = 0 ∧ fd.val < n then some 0 else none
  pipe := bootFiles.pipe

def consoleSt (n : Nat) : St Unit where
  k := ⟨consoleFiles n, ⟨false, .null⟩, 0, ()⟩
  logger := boot fun _ => 0

/-- A process calls `getpid` before tick 100. -/
theorem audit_transparent_early_getpid :
    Transparent plainSystem (consoleSt 3) [⟨0, 11, 7⟩, ⟨0, 11, 90⟩] :=
  audit_transparent plainSystem _ _ (by decide)

/-- Its `getpid` at tick 150 leaves the log in its descriptor table; with a full table the
same call panics. -/
theorem getpid_at_150_not_transparent :
    ¬ Transparent plainSystem (consoleSt 3) [⟨0, 11, 150⟩] ∧
      ¬ Transparent plainSystem (consoleSt 16) [⟨0, 11, 150⟩] ∧
      (syscall plainSystem ⟨0, 11, 150⟩ (consoleSt 16)).1 = .error "ERROR FILE" := by
  refine ⟨?_, ?_, rfl⟩ <;>
    exact first_flush_not_transparent (v := 1) [] (by decide) rfl (by decide) (by decide)
      (by decide) rfl

end Xv6Audit.Dispatch
