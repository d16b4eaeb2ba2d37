import Xv6Audit.Audit.Whitelist
import Xv6Audit.File.Counts

/-! `syscall()` by several processes at once: dispatch, handler, and the steps of the audit
tail. A handler is one step; other processes run between the steps. -/
namespace Xv6Audit.Audited
open Function

open Audit Ftable

def SYS_fork : Nat := 1
def SYS_exit : Nat := 2
def SYS_pipe : Nat := 4
def SYS_exec : Nat := 7
def SYS_dup : Nat := 10
def SYS_open : Nat := 15
def SYS_close : Nat := 21

structure Path where
  bytes : List UInt8
  noNul : 0 ∉ bytes

def SLASH : UInt8 := 47

def lastElem (last : List UInt8) : List UInt8 → List UInt8
  | [] => last
  | c :: s => lastElem (if c = SLASH then s else last) s

theorem mem_lastElem {b : UInt8} {last s : List UInt8} (h : b ∈ lastElem last s) :
    b ∈ last ∨ b ∈ s := by
  induction s generalizing last with
  | nil => exact .inl h
  | cons c s ih =>
    rcases ih h with hl | hs
    · split at hl
      · exact .inr (List.mem_cons_of_mem _ hl)
      · exact .inl hl
    · exact .inr (List.mem_cons_of_mem _ hs)

def Path.progName (path : Path) : ProcName where
  bytes := (lastElem path.bytes path.bytes).take 15
  noNul := fun h => path.noNul ((mem_lastElem (List.mem_of_mem_take h)).elim id id)
  short := by
    have := List.length_take_le 15 (lastElem path.bytes path.bytes)
    omega

/-- A call in progress: its number, `a0`, and the pointer `f` if `argfd` found one. The other
fields are history: which call of the run it is, the caller's name at entry, the permissions at
entry if argument 0 is an open descriptor, and whether the call was whitelisted then. -/
structure Entry where
  serial : Nat
  num : Nat
  a0 : UInt64
  fd : Option (Fin NFILE)
  name : ProcName
  perms : Option (Bool × Bool)
  listed : Bool

/-- Where a process is: in user space, in the handler, back from it, or in the tail before
`write_to_logs`, in it, and about to append. -/
inductive Place where
  | user
  | handler (e : Entry)
  | tail (e : Entry)
  | flushing (e : Entry)
  | writing (e : Entry)
  | ready (e : Entry)

def Place.entry : Place → Option Entry
  | .user => none
  | .handler e | .tail e | .flushing e | .writing e | .ready e => some e

def Place.untested : Place → Option Entry
  | .handler e | .tail e => some e
  | .user | .flushing _ | .writing _ | .ready _ => none

def argint (a0 : UInt64) : Int := a0.toUInt32.toBitVec.toInt

/-- What a handler does, with the answers of the layers below; `other` is a handler that works
neither on the file table nor on what `syscall()` reads. -/
inductive Work where
  | file (c : RefCall)
  | exec (path : Option Path)
  | audit
  | check (tick : UInt32) (found : Option Found)
  | other

def Work.Fits (num : Nat) (a0 : UInt64) : Work → Prop
  | .file (.openFile _ _) => num = SYS_open
  | .file (.dup fd) => num = SYS_dup ∧ fd = argint a0
  | .file (.close fd) => num = SYS_close ∧ fd = argint a0
  | .file (.pipe _ _ _) => num = SYS_pipe
  | .file (.fork _) => num = SYS_fork
  | .file .exit => num = SYS_exit
  | .file (.helper _ _) => False
  | .exec _ => num = SYS_exec
  | .audit => num = SYS_audit
  | .check _ _ => num = Dispatch.SYS_check
  | .other => num ∈ [3, 5, 6, 8, 9, 11, 12, 13, 14, 16, 17, 18, 19, 20]

instance (num : Nat) (a0 : UInt64) : (w : Work) → Decidable (w.Fits num a0)
  | .file (.dup _) | .file (.close _) => inferInstanceAs (Decidable (_ ∧ _))
  | .file (.openFile _ _) | .file (.pipe _ _ _) | .file (.fork _) | .file .exit | .exec _ | .audit
  | .check _ _ => inferInstanceAs (Decidable (num = _))
  | .file (.helper _ _) => inferInstanceAs (Decidable False)
  | .other => inferInstanceAs (Decidable (num ∈ _))

def Work.back (e : Entry) : Work → Place
  | .file .exit => .user
  | _ => .tail e

def childName (name : Fin NPROC → ProcName) (p : Fin NPROC) : RefCall → Fin NPROC → ProcName
  | .fork (some np) => update name np (name p)
  | _ => name

structure Machine where
  fs : FileSys
  handle : LogFile
  prevTick : UInt32
  name : Fin NPROC → ProcName
  whitelisted : Nat → UInt8
  log : AuditBuf
  place : Fin NPROC → Place
  /-- History: the calls dispatched, and the records appended with the call they are for, as
  they were asked for and as `buff` held them then. -/
  calls : List Entry
  recs : List (Nat × Rec)
  lines : List (Nat × List UInt8)

inductive Act where
  | enter (p : Fin NPROC) (num : Nat) (a0 : UInt64)
  | handler (p : Fin NPROC) (w : Work)
  | test (p : Fin NPROC) (tick : UInt32)
  | openLog (p : Fin NPROC) (found : Option Found)
  | finish (p : Fin NPROC) (tick : UInt32)
  | append (p : Fin NPROC)
  | die (p : Fin NPROC)

def flags (s : Files) (i : Fin NFILE) : Bool × Bool := ((s.file i).readable, (s.file i).writable)

def fdArg (num : Nat) : Bool := num ∈ [5, 8, 10, 16, 21]

namespace Machine

def move (s : Machine) (p : Fin NPROC) (x : Place) : Machine :=
  { s with place := update s.place p x }

def Asked (s : Machine) (num : Nat) : Prop := s.whitelisted (num - 1) ≠ 0 ∨ num = SYS_audit

instance (s : Machine) (num : Nat) : Decidable (s.Asked num) := inferInstanceAs (Decidable (_ ∨ _))

def entry (s : Machine) (p : Fin NPROC) (num : Nat) (a0 : UInt64) : Entry :=
  let arg := (s.fs.files.argfd p (argint a0)).map Prod.snd
  { serial := s.calls.length
    num := num
    a0 := a0
    fd := if Dispatch.takesFd num then arg else none
    name := s.name p
    perms := if fdArg num then arg.map (flags s.fs.files) else none
    listed := decide (num ≤ SYS_audit ∧ s.Asked num) }

def enter (s : Machine) (p : Fin NPROC) (num : Nat) (a0 : UInt64) : Except Halt Machine :=
  match s.place p with
  | .user =>
    if s.fs.live p = true ∧ 0 < num ∧ num < Dispatch.NSYSCALLS then
      .ok { s.move p (.handler (s.entry p num a0)) with calls := s.calls ++ [s.entry p num a0] }
    else .error .blocked
  | _ => .error .blocked

def onFiles {α : Type} (s : Machine) (c : FileProg α) (back : α → List Released) :
    Except Halt (α × Machine) :=
  match c s.fs.files with
  | (.ok a, t) => .ok (a, { s with
      fs.files := t
      fs.freed := s.fs.freed ++ (back a).flatMap Released.pages })
  | (.error e, _) => .error (.panic e)

def writeToLogs (s : Machine) (p : Fin NPROC) (found : Option Found) : Except Halt Machine := do
  let ((h, _), s) ← s.onFiles (ensureOpened p found s.handle) Prod.snd
  let (_, s) ← s.onFiles (do kfilewrite (← h.entry)) fun _ => []
  pure { s with handle := h }

def effect (s : Machine) (p : Fin NPROC) (e : Entry) : Work → Except Halt Machine
  | .file c => (s.fs.act (p, c)).map fun fs => { s with fs := fs, name := childName s.name p c }
  | .exec none => .ok s
  | .exec (some path) => .ok { s with name := update s.name p path.progName }
  | .audit => .ok { s with
      whitelisted := maskLoop s.whitelisted (sysAudit e.a0).toUInt32 0 NUM_SYS_CALLS }
  | .check tick found =>
    if 50 < (tick - s.prevTick).toNat then
      (s.writeToLogs p found).map fun t => { t with prevTick := tick }
    else .ok s
  | .other => .ok s

def handler (s : Machine) (p : Fin NPROC) (w : Work) : Except Halt Machine :=
  match s.place p with
  | .handler e =>
    if w.Fits e.num e.a0 then (s.effect p e w).map fun t => t.move p (w.back e)
    else .error .blocked
  | _ => .error .blocked

def test (s : Machine) (p : Fin NPROC) (tick : UInt32) : Except Halt Machine :=
  match s.place p with
  | .tail e =>
    if s.Asked e.num then
      if flushDue s.log.prevTickss tick then .ok (s.move p (.flushing e))
      else .ok (s.move p (.ready e))
    else .ok (s.move p .user)
  | _ => .error .blocked

def openLog (s : Machine) (p : Fin NPROC) (found : Option Found) : Except Halt Machine :=
  match s.place p with
  | .flushing e => (s.writeToLogs p found).map fun t => t.move p (.writing e)
  | _ => .error .blocked

def finish (s : Machine) (p : Fin NPROC) (tick : UInt32) : Except Halt Machine :=
  match s.place p with
  | .writing e => .ok { s.move p (.ready e) with log := endFlush s.log tick }
  | _ => .error .blocked

def record (s : Machine) (p : Fin NPROC) (e : Entry) : Rec :=
  ⟨s.name p, e.num, e.fd.map (flags s.fs.files)⟩

def textFrom (log : AuditBuf) (o : Nat) : List UInt8 :=
  (List.range' o (min log.offset BUFFSIZE - o)).map log.buff

def append (s : Machine) (p : Fin NPROC) : Except Halt Machine :=
  match s.place p with
  | .ready e =>
    if e.num < nameFromNum.length then
      let log := appendRec s.log (s.record p e)
      .ok { s.move p .user with
        log := log
        recs := s.recs ++ [(e.serial, s.record p e)]
        lines := s.lines ++ [(e.serial, textFrom log s.log.offset)] }
    else .error (.panic "out of bounds")
  | _ => .error .blocked

def die (s : Machine) (p : Fin NPROC) : Except Halt Machine :=
  match s.place p with
  | .user => (s.fs.act (p, .exit)).map fun fs => { s with fs := fs }
  | _ => .error .blocked

def act (s : Machine) : Act → Except Halt Machine
  | .enter p num a0 => s.enter p num a0
  | .handler p w => s.handler p w
  | .test p tick => s.test p tick
  | .openLog p found => s.openLog p found
  | .finish p tick => s.finish p tick
  | .append p => s.append p
  | .die p => s.die p

def boot (name : Fin NPROC → ProcName) (beyond : Mem) : Machine where
  fs := FileSys.boot
  handle := ⟨false, .null⟩
  prevTick := 0
  name := name
  whitelisted := bootWhitelist
  log := (Audit.boot beyond).log
  place := fun _ => .user
  calls := []
  recs := []
  lines := []

/-! What the steps leave alone. -/

variable {e : Entry} {w : Work} {q : Fin NPROC}

section Frames
variable {s t : Machine} {p : Fin NPROC}

theorem onFiles_ok {α : Type} {c : FileProg α} {back : α → List Released} {a : α}
    (h : s.onFiles c back = .ok (a, t)) :
    ∃ files, c s.fs.files = (.ok a, files) ∧ t = { s with
      fs.files := files
      fs.freed := s.fs.freed ++ (back a).flatMap Released.pages } := by
  unfold onFiles at h
  split at h
  · rename_i hc
    cases h
    exact ⟨_, hc, rfl⟩
  · cases h

theorem writeToLogs_ok {found : Option Found} (h : s.writeToLogs p found = .ok t) :
    ∃ r files, ensureOpened p found s.handle s.fs.files = (.ok r, files) ∧ t = { s with
      handle := r.1
      fs.files := files
      fs.freed := s.fs.freed ++ r.2.flatMap Released.pages } := by
  unfold writeToLogs at h
  cases h1 : s.onFiles (ensureOpened p found s.handle) Prod.snd with
  | error e =>
    rw [h1] at h
    cases h
  | ok a =>
    obtain ⟨⟨log, back⟩, u⟩ := a
    obtain ⟨files, hc, hu⟩ := onFiles_ok h1
    rw [h1] at h
    change (u.onFiles (do kfilewrite (← log.entry)) fun _ => []).bind _ = .ok t at h
    cases h2 : u.onFiles (do kfilewrite (← log.entry)) (fun _ => []) with
    | error e =>
      rw [h2] at h
      cases h
    | ok b =>
      obtain ⟨sink, v⟩ := b
      rw [h2] at h
      cases h
      obtain ⟨files', hc', hv⟩ := onFiles_ok h2
      have hsame : files' = u.fs.files := by
        have hwp : Prog.wp (do kfilewrite (← log.entry)) (fun _ f => f = u.fs.files) anyPanic
            u.fs.files := by
          rw [Prog.wp_bind]
          unfold LogFile.entry
          cases log.f with
          | null | bad => trivial
          | entry i => exact Dispatch.wp_kfilewrite_files i _
        exact Prog.wp_of_run (Q := fun _ f => f = u.fs.files) hwp hc'
      refine ⟨_, files, hc, ?_⟩
      rw [hv, hsame, hu]
      simp

theorem effect_cases (h : s.effect p e w = .ok t) :
    (∃ c fs, w = .file c ∧ s.fs.act (p, c) = .ok fs ∧
      t = { s with fs := fs, name := childName s.name p c }) ∨
    (∃ path, w = .exec (some path) ∧
      t = { s with name := update s.name p path.progName }) ∨
    (w = .audit ∧ t = { s with
      whitelisted := maskLoop s.whitelisted (sysAudit e.a0).toUInt32 0 NUM_SYS_CALLS }) ∨
    (∃ tick found r files, w = .check tick found ∧
      ensureOpened p found s.handle s.fs.files = (.ok r, files) ∧ t = { s with
        handle := r.1
        prevTick := tick
        fs.files := files
        fs.freed := s.fs.freed ++ r.2.flatMap Released.pages }) ∨
    ((∀ c, w ≠ .file c) ∧ t = s) := by
  cases w with
  | file c =>
    obtain ⟨fs, hfs, rfl⟩ := map_ok.mp h
    exact .inl ⟨c, fs, rfl, hfs, rfl⟩
  | exec path =>
    cases path with
    | none =>
      cases h
      exact .inr (.inr (.inr (.inr ⟨fun _ => nofun, rfl⟩)))
    | some path =>
      cases h
      exact .inr (.inl ⟨path, rfl, rfl⟩)
  | audit =>
    cases h
    exact .inr (.inr (.inl ⟨rfl, rfl⟩))
  | check tick found =>
    simp only [effect] at h
    split at h
    · obtain ⟨u, hu, rfl⟩ := map_ok.mp h
      obtain ⟨r, files, hopen, rfl⟩ := writeToLogs_ok hu
      exact .inr (.inr (.inr (.inl ⟨tick, found, r, files, rfl, hopen, rfl⟩)))
    · cases h
      exact .inr (.inr (.inr (.inr ⟨fun _ => nofun, rfl⟩)))
  | other =>
    cases h
    exact .inr (.inr (.inr (.inr ⟨fun _ => nofun, rfl⟩)))

theorem effect_frame (h : s.effect p e w = .ok t) :
    t.place = s.place ∧ t.calls = s.calls ∧ t.lines = s.lines := by
  rcases effect_cases h with ⟨c, fs, -, -, rfl⟩ | ⟨path, -, rfl⟩ | ⟨-, rfl⟩ |
    ⟨tick, found, r, files, -, -, rfl⟩ | ⟨-, rfl⟩ <;> exact ⟨rfl, rfl, rfl⟩

theorem childName_of_live {c : RefCall} {fs : FileSys} (hfs : s.fs.act (p, c) = .ok fs)
    (hlive : s.fs.live q = true) : childName s.name p c q = s.name q := by
  obtain ⟨-, -, hnew⟩ := FileSys.act_live hfs
  unfold childName
  split
  · rename_i np
    have hne : q ≠ np := by
      rintro rfl
      rw [hnew q rfl] at hlive
      cases hlive
    exact update_of_ne hne _ _
  · rfl

theorem effect_running (h : s.effect p e w = .ok t) (hlive : s.fs.live q = true) :
    (q ≠ p ∨ w ≠ .file .exit → t.fs.live q = true) ∧
      (q ≠ p ∨ (∀ path, w ≠ .exec (some path)) → t.name q = s.name q) := by
  rcases effect_cases h with ⟨c, fs, rfl, hfs, rfl⟩ | ⟨path, rfl, rfl⟩ | ⟨-, rfl⟩ |
    ⟨tick, found, r, files, -, -, rfl⟩ | ⟨-, rfl⟩
  · refine ⟨fun hq => (FileSys.act_live hfs).2.1 q (hq.imp_right fun hw hc => ?_) hlive,
      fun _ => childName_of_live hfs hlive⟩
    exact hw (by rw [hc])
  · refine ⟨fun _ => hlive, fun hq => ?_⟩
    have hne : q ≠ p := hq.elim id fun hw => absurd rfl (hw path)
    exact update_of_ne hne _ _
  · exact ⟨fun _ => hlive, fun _ => rfl⟩
  · exact ⟨fun _ => hlive, fun _ => rfl⟩
  · exact ⟨fun _ => hlive, fun _ => rfl⟩

end Frames

/-! Every whitelisted call is recorded once, for the process that made it. -/

/-- The call has one record, and `buff` held it whole, under the caller's name at entry and the
name of the call. -/
def Recorded (s : Machine) (e : Entry) : Prop :=
  ∃ fd, s.lines.filter (fun x => x.1 = e.serial) = [(e.serial, render ⟨e.name, e.num, fd⟩)]

/-- `exit` is called only while it is not whitelisted, an `exec` that was whitelisted only
installs a program of the caller's name, and `audit` leaves the calls that were whitelisted when
they were dispatched and have not been tested yet on the whitelist; the records of whitelisted
calls are stored whole, and inside `buff`. -/
def Steady (s : Machine) : Act → Prop
  | .enter _ num _ => num = SYS_exit → ¬ s.Asked num
  | .handler p (.exec (some path)) => ∀ c ∈ (s.place p).entry, c.listed = true →
      path.progName.bytes = (s.name p).bytes
  | .handler p .audit => ∀ c ∈ (s.place p).entry, ∀ q, ∀ e ∈ (s.place q).untested,
      e.listed = true → e.num = SYS_audit ∨
        maskLoop s.whitelisted (sysAudit c.a0).toUInt32 0 NUM_SYS_CALLS (e.num - 1) ≠ 0
  | .append p => ∀ e ∈ (s.place p).entry, e.listed = true →
      Plain (s.record p e) ∧ s.log.offset + advance (s.record p e) ≤ BUFFSIZE
  | _ => True

instance (s : Machine) : (a : Act) → Decidable (s.Steady a)
  | .enter _ num _ => inferInstanceAs (Decidable (num = SYS_exit → ¬ s.Asked num))
  | .handler p (.exec (some path)) => inferInstanceAs (Decidable (∀ c ∈ (s.place p).entry,
      c.listed = true → path.progName.bytes = (s.name p).bytes))
  | .handler p .audit => inferInstanceAs (Decidable (∀ c ∈ (s.place p).entry, ∀ q,
      ∀ e ∈ (s.place q).untested, e.listed = true → e.num = SYS_audit ∨
        maskLoop s.whitelisted (sysAudit c.a0).toUInt32 0 NUM_SYS_CALLS (e.num - 1) ≠ 0))
  | .append p => inferInstanceAs (Decidable (∀ e ∈ (s.place p).entry, e.listed = true →
      Plain (s.record p e) ∧ s.log.offset + advance (s.record p e) ≤ BUFFSIZE))
  | .handler _ (.file _) | .handler _ (.exec none) | .handler _ (.check _ _) | .handler _ .other
  | .test _ _ | .openLog _ _ | .finish _ _ | .die _ => inferInstanceAs (Decidable True)

theorem textFrom_appendRec {log : AuditBuf} {r : Rec} (hr : Plain r)
    (hfit : log.offset + advance r ≤ BUFFSIZE) :
    textFrom (appendRec log r) log.offset = render r := by
  have hlen : min (log.offset + advance r) BUFFSIZE - log.offset = (render r).length := by
    rw [← advance_plain hr]
    omega
  refine List.ext_getElem ?_ fun i hi hi' => ?_
  · simp only [textFrom, appendRec, List.length_map, List.length_range', hlen]
  · simp only [textFrom, appendRec, List.getElem_map, List.getElem_range', Nat.one_mul,
      stores_plain hr, storeAll_putAt]
    rw [if_pos (by omega), Nat.add_sub_cancel_left, List.getD_eq_getElem _ _ hi']

structure Traced (s : Machine) : Prop where
  live : ∀ p e, (s.place p).entry = some e → s.fs.live p = true
  name : ∀ p e, (s.place p).entry = some e → e.listed = true → s.name p = e.name
  asked : ∀ p e, (s.place p).untested = some e → e.listed = true → s.Asked e.num
  exits : ∀ p e, (s.place p).entry = some e → e.num = SYS_exit → e.listed = false
  known : ∀ p e, (s.place p).entry = some e → e ∈ s.calls
  apart : ∀ p q e, (s.place p).entry = some e → (s.place q).entry = some e → p = q
  fresh : ∀ p e, (s.place p).entry = some e → ∀ x ∈ s.lines, x.1 ≠ e.serial
  early : ∀ x ∈ s.lines, x.1 < s.calls.length
  serial : ∀ e ∈ s.calls, s.calls[e.serial]? = some e
  done : ∀ e ∈ s.calls, (∀ p, (s.place p).entry ≠ some e) → e.listed = true → s.Recorded e

section Traced
variable {s t : Machine} {p : Fin NPROC}

theorem entry_of_untested {x : Place} (h : x.untested = some e) :
    x.entry = some e := by
  cases x <;> first | exact h | cases h

theorem Traced.goOn (h : s.Traced) {y : Place} (hp : (s.place p).entry = some e)
    (hy : y.entry = some e) (hplace : t.place = update s.place p y)
    (hcalls : t.calls = s.calls) (hlines : t.lines = s.lines)
    (hlive : ∀ q e, (s.place q).entry = some e → t.fs.live q = true)
    (hname : ∀ q e, (s.place q).entry = some e → e.listed = true → t.name q = s.name q)
    (hasked : ∀ q e, (t.place q).untested = some e → e.listed = true → t.Asked e.num) :
    t.Traced := by
  have hentry : ∀ q, (t.place q).entry = (s.place q).entry := by
    intro q
    rw [hplace]
    by_cases hq : q = p
    · rw [hq, update_self, hp, hy]
    · rw [update_of_ne hq]
  constructor
  case live =>
    intro q e' he
    rw [hentry] at he
    exact hlive q e' he
  case name =>
    intro q e' he
    rw [hentry] at he
    exact fun hl => (hname q e' he hl).trans (h.name q e' he hl)
  case asked => exact hasked
  case exits =>
    intro q e' he
    rw [hentry] at he
    exact h.exits q e' he
  case known =>
    intro q e' he
    rw [hentry] at he
    rw [hcalls]
    exact h.known q e' he
  case apart =>
    intro q q' e' he he'
    rw [hentry] at he he'
    exact h.apart q q' e' he he'
  case fresh =>
    intro q e' he
    rw [hentry] at he
    rw [hlines]
    exact h.fresh q e' he
  case early =>
    rw [hlines, hcalls]
    exact h.early
  case serial =>
    rw [hcalls]
    exact h.serial
  case done =>
    intro e' he hout hl
    rw [hcalls] at he
    have hrec := h.done e' he (fun q => by rw [← hentry]; exact hout q) hl
    unfold Recorded at hrec ⊢
    rwa [hlines]

theorem Traced.leave (h : s.Traced) (hp : (s.place p).entry = some e)
    (hplace : t.place = update s.place p .user) (hcalls : t.calls = s.calls)
    (hlines : (t.lines = s.lines ∧ e.listed = false) ∨
      ∃ text, t.lines = s.lines ++ [(e.serial, text)] ∧
        (e.listed = true → ∃ fd, text = render ⟨e.name, e.num, fd⟩))
    (hlive : ∀ q, q ≠ p → s.fs.live q = true → t.fs.live q = true)
    (hname : ∀ q, q ≠ p → s.fs.live q = true → t.name q = s.name q)
    (hwl : t.whitelisted = s.whitelisted) : t.Traced := by
  have hself : t.place p = .user := by rw [hplace, update_self]
  have hother : ∀ q, q ≠ p → t.place q = s.place q := fun q hq => by
    rw [hplace, update_of_ne hq]
  have hback : ∀ q e', (t.place q).entry = some e' → q ≠ p ∧ (s.place q).entry = some e' := by
    intro q e' he
    by_cases hq : q = p
    · rw [hq, hself] at he
      cases he
    · exact ⟨hq, hother q hq ▸ he⟩
  -- a call in progress is another call, with another number
  have hne : ∀ q e', (t.place q).entry = some e' → e'.serial ≠ e.serial := by
    intro q e' he hser
    obtain ⟨hq, he⟩ := hback q e' he
    have h1 := h.serial _ (h.known q e' he)
    rw [hser, h.serial _ (h.known p e hp)] at h1
    obtain rfl : e = e' := Option.some.inj h1
    exact hq (h.apart q p e he hp)
  constructor
  case live =>
    intro q e' he
    obtain ⟨hq, he⟩ := hback q e' he
    exact hlive q hq (h.live q e' he)
  case name =>
    intro q e' he
    obtain ⟨hq, he⟩ := hback q e' he
    exact fun hl => (hname q hq (h.live q e' he)).trans (h.name q e' he hl)
  case asked =>
    intro q e' he hl
    obtain ⟨hq, -⟩ := hback q e' (entry_of_untested he)
    rw [hother q hq] at he
    unfold Asked
    rw [hwl]
    exact h.asked q e' he hl
  case exits =>
    intro q e' he
    exact h.exits q e' (hback q e' he).2
  case known =>
    intro q e' he
    rw [hcalls]
    exact h.known q e' (hback q e' he).2
  case apart =>
    intro q q' e' he he'
    exact h.apart q q' e' (hback q e' he).2 (hback q' e' he').2
  case fresh =>
    intro q e' he x hx
    rcases hlines with ⟨hlines, -⟩ | ⟨text, hlines, -⟩
    · rw [hlines] at hx
      exact h.fresh q e' (hback q e' he).2 x hx
    · rw [hlines, List.mem_append, List.mem_singleton] at hx
      rcases hx with hx | rfl
      · exact h.fresh q e' (hback q e' he).2 x hx
      · exact (hne q e' he).symm
  case early =>
    intro x hx
    rw [hcalls]
    rcases hlines with ⟨hlines, -⟩ | ⟨text, hlines, -⟩
    · rw [hlines] at hx
      exact h.early x hx
    · rw [hlines, List.mem_append, List.mem_singleton] at hx
      rcases hx with hx | rfl
      · exact h.early x hx
      · exact (List.getElem?_eq_some_iff.mp (h.serial _ (h.known p e hp))).1
  case serial =>
    rw [hcalls]
    exact h.serial
  case done =>
    intro e' he' hout hl
    rw [hcalls] at he'
    by_cases hee : e' = e
    · subst hee
      rcases hlines with ⟨-, hnot⟩ | ⟨text, hlines, htext⟩
      · rw [hnot] at hl
        cases hl
      · obtain ⟨fd, rfl⟩ := htext hl
        refine ⟨fd, ?_⟩
        have hnone : s.lines.filter (fun x => x.1 = e'.serial) = [] :=
          List.filter_eq_nil_iff.mpr fun x hx => by simpa using h.fresh p e' hp x hx
        rw [hlines, List.filter_append, hnone]
        simp
    · have hin : ∀ q, (s.place q).entry ≠ some e' := by
        intro q hq
        by_cases hqp : q = p
        · rw [hqp, hp] at hq
          exact hee (Option.some.inj hq).symm
        · exact hout q (by rw [hother q hqp]; exact hq)
      obtain ⟨fd, hr⟩ := h.done e' he' hin hl
      refine ⟨fd, ?_⟩
      rcases hlines with ⟨hlines, -⟩ | ⟨text, hlines, -⟩
      · rw [hlines, hr]
      · have hser : e.serial ≠ e'.serial := by
          intro hser
          have h1 := h.serial _ (h.known p e hp)
          rw [hser, h.serial _ he'] at h1
          exact hee (Option.some.inj h1)
        rw [hlines, List.filter_append, hr]
        simp [hser]

theorem Traced.enter (h : s.Traced) {num : Nat} {a0 : UInt64}
    (hs : num = SYS_exit → ¬ s.Asked num) (ht : s.enter p num a0 = .ok t) : t.Traced := by
  unfold Machine.enter at ht
  split at ht
  case h_2 => cases ht
  rename_i hp
  obtain ⟨⟨hl, -, -⟩, ht⟩ := guard_ok.mp ht
  cases ht
  have hback : ∀ q e, ((s.move p (.handler (s.entry p num a0))).place q).entry = some e →
      (q = p ∧ e = s.entry p num a0) ∨ (q ≠ p ∧ (s.place q).entry = some e) := by
    intro q e he
    unfold move at he
    by_cases hq : q = p
    · simp only [hq, update_self] at he
      exact .inl ⟨hq, (Option.some.inj he).symm⟩
    · simp only [update_of_ne hq] at he
      exact .inr ⟨hq, he⟩
  have hnew : ∀ q e, (s.place q).entry = some e → e ≠ s.entry p num a0 := by
    rintro q e he rfl
    have hser := h.serial _ (h.known q _ he)
    simp [Machine.entry] at hser
  constructor
  case live =>
    intro q e he
    rcases hback q e he with ⟨rfl, -⟩ | ⟨-, he⟩
    · exact hl
    · exact h.live q e he
  case name =>
    intro q e he
    rcases hback q e he with ⟨rfl, rfl⟩ | ⟨-, he⟩
    · exact fun _ => rfl
    · exact h.name q e he
  case asked =>
    intro q e he hlist
    rcases hback q e (entry_of_untested he) with ⟨rfl, rfl⟩ | ⟨hq, -⟩
    · exact (of_decide_eq_true hlist).2
    · exact h.asked q e (by simpa only [move, update_of_ne hq] using he) hlist
  case exits =>
    intro q e he hexit
    rcases hback q e he with ⟨rfl, rfl⟩ | ⟨-, he⟩
    · exact decide_eq_false fun hlist => hs hexit hlist.2
    · exact h.exits q e he hexit
  case known =>
    intro q e he
    rcases hback q e he with ⟨rfl, rfl⟩ | ⟨-, he⟩
    · exact List.mem_append_right _ (List.mem_singleton_self _)
    · exact List.mem_append_left _ (h.known q e he)
  case apart =>
    intro q q' e he he'
    rcases hback q e he with ⟨rfl, rfl⟩ | ⟨-, he⟩
    · rcases hback q' _ he' with ⟨rfl, -⟩ | ⟨-, he'⟩
      · rfl
      · exact absurd rfl (hnew q' _ he')
    · rcases hback q' e he' with ⟨-, hnewest⟩ | ⟨-, he'⟩
      · exact absurd hnewest (hnew q e he)
      · exact h.apart q q' e he he'
  case fresh =>
    intro q e he x hx
    rcases hback q e he with ⟨rfl, rfl⟩ | ⟨-, he⟩
    · exact (h.early x hx).ne
    · exact h.fresh q e he x hx
  case early =>
    intro x hx
    rw [List.length_append]
    exact (h.early x hx).trans_le (Nat.le_add_right _ _)
  case serial =>
    intro e he
    rcases List.mem_append.mp he with he | he
    · have hser := h.serial e he
      rwa [List.getElem?_append_left (List.getElem?_eq_some_iff.mp hser).1]
    · obtain rfl := List.mem_singleton.mp he
      exact List.getElem?_concat_length
  case done =>
    intro e he hout hlist
    rcases List.mem_append.mp he with he | he
    · refine h.done e he (fun q hq => ?_) hlist
      by_cases hqp : q = p
      · rw [hqp, hp] at hq
        cases hq
      · exact hout q (by simpa only [move, update_of_ne hqp] using hq)
    · obtain rfl := List.mem_singleton.mp he
      exact absurd (by simp [move, Place.entry]) (hout p)

theorem back_user (hw : w ≠ .file .exit) : w.back e = .tail e := by
  unfold Work.back
  split
  · exact absurd rfl hw
  · rfl

section
variable (h : s.Traced)
include h

theorem Traced.asked_effect (hp : s.place p = .handler e) (hs : s.Steady (.handler p w))
    (ht : s.effect p e w = .ok t) {e' : Entry} (hq : (s.place q).untested = some e')
    (hl : e'.listed = true) : t.Asked e'.num := by
  have hold := h.asked q e' hq hl
  rcases effect_cases ht with ⟨c, fs, -, -, rfl⟩ | ⟨path, -, rfl⟩ | ⟨rfl, rfl⟩ |
    ⟨tick, found, r, files, -, -, rfl⟩ | ⟨-, rfl⟩
  · exact hold
  · exact hold
  · have hentry : (s.place p).entry = some e := by rw [hp]; rfl
    exact (hs e hentry q e' hq hl).symm
  · exact hold
  · exact hold

theorem Traced.handler (hs : s.Steady (.handler p w)) (ht : s.handler p w = .ok t) : t.Traced := by
  unfold Machine.handler at ht
  split at ht
  case h_2 => cases ht
  rename_i e hp
  obtain ⟨hfits, ht⟩ := guard_ok.mp ht
  obtain ⟨u, hu, rfl⟩ := map_ok.mp ht
  have hentry : (s.place p).entry = some e := by rw [hp]; rfl
  obtain ⟨hplace, hcalls, hlines⟩ := effect_frame hu
  have hplace' : ∀ x, (u.move p x).place = update s.place p x := fun x => by
    unfold move
    rw [hplace]
  by_cases hw : w = .file .exit
  · -- `exit` leaves the call, which was not whitelisted
    subst hw
    have hnot := h.exits p e hentry hfits
    exact h.leave hentry (hplace' _) hcalls (.inl ⟨hlines, hnot⟩)
      (fun q hq hl => (effect_running hu hl).1 (.inl hq))
      (fun q hq hl => (effect_running hu hl).2 (.inl hq))
      (by
        rcases effect_cases hu with ⟨c, fs, -, -, rfl⟩ | ⟨path, hx, -⟩ | ⟨hx, -⟩ |
          ⟨tick, found, r, files, hx, -, -⟩ | ⟨-, rfl⟩
        · rfl
        · cases hx
        · cases hx
        · cases hx
        · rfl)
  · refine h.goOn hentry (by rw [back_user hw]; rfl) (hplace' _) hcalls hlines
      (fun q e' hq => (effect_running hu (h.live q e' hq)).1 (.inr hw)) (fun q e' hq hl => ?_) ?_
    · have hrun := effect_running hu (h.live q e' hq)
      by_cases hqp : q = p
      · by_cases hx : ∃ path, w = .exec (some path)
        · obtain ⟨path, rfl⟩ := hx
          cases hu
          obtain rfl : e = e' := Option.some.inj (hentry.symm.trans (hqp ▸ hq))
          have hsame : path.progName = s.name p := ProcName.ext (hs e hentry hl)
          simp [move, hqp, hsame]
        · exact hrun.2 (.inr fun path hpath => hx ⟨path, hpath⟩)
      · exact hrun.2 (.inl hqp)
    · intro q e' hq hl
      have hq' : (s.place q).untested = some e' := by
        rw [hplace', back_user hw] at hq
        by_cases hqp : q = p
        · rw [hqp, update_self] at hq
          rw [hqp, hp]
          exact hq
        · rwa [update_of_ne hqp] at hq
      exact h.asked_effect hp hs hu hq' hl

theorem Traced.pass {y : Place} (hp : (s.place p).entry = some e) (hy : y.entry = some e)
    (hpast : y.untested = none) (hplace : t.place = update s.place p y)
    (hcalls : t.calls = s.calls) (hlines : t.lines = s.lines) (hlive : t.fs.live = s.fs.live)
    (hname : t.name = s.name) (hwl : t.whitelisted = s.whitelisted) : t.Traced := by
  refine h.goOn hp hy hplace hcalls hlines (fun q e' hq => ?_) (fun q _ _ _ => by rw [hname]) ?_
  · rw [hlive]
    exact h.live q e' hq
  · intro q e' hq hl
    rw [hplace] at hq
    by_cases hqp : q = p
    · rw [hqp, update_self, hpast] at hq
      cases hq
    · rw [update_of_ne hqp] at hq
      unfold Asked
      rw [hwl]
      exact h.asked q e' hq hl

theorem Traced.test {tick : UInt32} (ht : s.test p tick = .ok t) : t.Traced := by
  unfold Machine.test at ht
  split at ht
  case h_2 => cases ht
  rename_i e hp
  have hentry : (s.place p).entry = some e := by rw [hp]; rfl
  split at ht
  case isTrue =>
    split at ht
    · cases ht
      exact h.pass hentry rfl rfl rfl rfl rfl rfl rfl rfl
    · cases ht
      exact h.pass hentry rfl rfl rfl rfl rfl rfl rfl rfl
  case isFalse hnot =>
    cases ht
    have hlisted : e.listed = false := by
      by_contra hl
      exact hnot (h.asked p e (by rw [hp]; rfl) (by simpa using hl))
    exact h.leave hentry rfl rfl (.inl ⟨rfl, hlisted⟩) (fun _ _ hl => hl) (fun _ _ _ => rfl) rfl

theorem Traced.openLog {found : Option Found} (ht : s.openLog p found = .ok t) : t.Traced := by
  unfold Machine.openLog at ht
  split at ht
  case h_2 => cases ht
  rename_i e hp
  obtain ⟨u, hu, rfl⟩ := map_ok.mp ht
  obtain ⟨r, files, -, rfl⟩ := writeToLogs_ok hu
  exact h.pass (by rw [hp]; rfl) rfl rfl rfl rfl rfl rfl rfl rfl

theorem Traced.finish {tick : UInt32} (ht : s.finish p tick = .ok t) : t.Traced := by
  unfold Machine.finish at ht
  split at ht
  case h_2 => cases ht
  rename_i e hp
  cases ht
  exact h.pass (by rw [hp]; rfl) rfl rfl rfl rfl rfl rfl rfl rfl

theorem Traced.append (hs : s.Steady (.append p)) (ht : s.append p = .ok t) : t.Traced := by
  unfold Machine.append at ht
  split at ht
  case h_2 => cases ht
  rename_i e hp
  obtain ⟨-, ht⟩ := guard_ok.mp ht
  cases ht
  have hentry : (s.place p).entry = some e := by rw [hp]; rfl
  refine h.leave hentry rfl rfl (.inr ⟨_, rfl, fun hl => ⟨(s.record p e).fd, ?_⟩⟩)
    (fun _ _ hl => hl) (fun _ _ _ => rfl) rfl
  obtain ⟨hplain, hfit⟩ := hs e hentry hl
  rw [textFrom_appendRec hplain hfit, record, h.name p e hentry hl]

theorem Traced.die (ht : s.die p = .ok t) : t.Traced := by
  unfold Machine.die at ht
  split at ht
  case h_2 => cases ht
  rename_i hp
  obtain ⟨fs, hfs, rfl⟩ := map_ok.mp ht
  refine { h with live := fun q e he => ?_ }
  have hq : q ≠ p := by
    rintro rfl
    rw [show (s.place q).entry = none by rw [hp]; rfl] at he
    cases he
  exact (FileSys.act_live hfs).2.1 q (.inl hq) (h.live q e he)

theorem Traced.act {a : Act} (hs : s.Steady a) (ht : s.act a = .ok t) : t.Traced := by
  cases a with
  | enter p num a0 => exact h.enter hs ht
  | handler p w => exact h.handler hs ht
  | test p tick => exact h.test ht
  | openLog p found => exact h.openLog ht
  | finish p tick => exact h.finish ht
  | append p => exact h.append hs ht
  | die p => exact h.die ht

end

end Traced

end Machine

end Xv6Audit.Audited
