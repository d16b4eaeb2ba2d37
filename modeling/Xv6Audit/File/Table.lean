import Xv6Audit.Lib.Prog
import Xv6Audit.Param

/-! The open file table of `kernel/file.c` and the descriptor tables over it, with the calls
that work on them (`kernel/sysfile.c`, `kernel/pipe.c`, and `open` of
`kernel/file_helper.c`). Pages and inodes are handed in by the layers below and handed back
to them as `Released`. -/
namespace Xv6Audit.Ftable
open Function

open Prog

inductive FdType where
  | none
  | pipe
  | inode
  | device
deriving DecidableEq

structure File where
  type : FdType
  ref : Nat
  readable : Bool
  writable : Bool
  pipe : Nat
  ip : Nat
  off : Nat
  major : Int
deriving DecidableEq

structure PipeEnds where
  readopen : Bool
  writeopen : Bool
deriving DecidableEq

structure Files where
  file : Fin NFILE → File
  ofile : Fin NPROC → Fin NOFILE → Option (Fin NFILE)
  pipe : Nat → PipeEnds

abbrev FileProg := Prog Files String

inductive Released where
  | nothing
  | page (pi : Nat)
  | inode (ip : Nat)
deriving DecidableEq

def Files.upd (s : Files) (i : Fin NFILE) (f : File) : Files :=
  { s with file := update s.file i f }

def Files.setFd (s : Files) (p : Fin NPROC) (fd : Fin NOFILE) (v : Option (Fin NFILE)) : Files :=
  { s with ofile := update s.ofile p (update (s.ofile p) fd v) }

def Files.setPipe (s : Files) (pi : Nat) (e : PipeEnds) : Files :=
  { s with pipe := update s.pipe pi e }

def Files.freeEntry (s : Files) : Option (Fin NFILE) :=
  (List.finRange NFILE).find? fun i => (s.file i).ref = 0

def Files.freeFd (s : Files) (p : Fin NPROC) : Option (Fin NOFILE) :=
  (List.finRange NOFILE).find? fun fd => s.ofile p fd = Option.none

def filealloc : FileProg (Option (Fin NFILE)) := do
  let s ← get
  match s.freeEntry with
  | some i =>
    set (s.upd i { s.file i with ref := 1 })
    pure (some i)
  | none => pure none

def filedup (i : Fin NFILE) : FileProg Unit := do
  let s ← get
  if (s.file i).ref < 1 then throw "filedup"
  else set (s.upd i { s.file i with ref := (s.file i).ref + 1 })

def pipeclose (pi : Nat) (writable : Bool) : FileProg Released := do
  let s ← get
  let e := if writable then { s.pipe pi with writeopen := false }
    else { s.pipe pi with readopen := false }
  set (s.setPipe pi e)
  if e.readopen = false ∧ e.writeopen = false then pure (.page pi) else pure .nothing

def fileclose (i : Fin NFILE) : FileProg Released := do
  let s ← get
  let ff := s.file i
  if ff.ref < 1 then throw "fileclose"
  else if 0 < ff.ref - 1 then
    set (s.upd i { ff with ref := ff.ref - 1 })
    pure .nothing
  else
    set (s.upd i { ff with ref := 0, type := .none })
    match ff.type with
    | .pipe => pipeclose ff.pipe ff.writable
    | .inode => pure (.inode ff.ip)
    | .device => pure (.inode ff.ip)
    | .none => pure .nothing

def fdalloc (p : Fin NPROC) (i : Fin NFILE) : FileProg (Option (Fin NOFILE)) := do
  let s ← get
  match s.freeFd p with
  | some fd =>
    set (s.setFd p fd (some i))
    pure (some fd)
  | none => pure none

def Files.argfd (s : Files) (p : Fin NPROC) (fd : Int) : Option (Fin NOFILE × Fin NFILE) :=
  if h : 0 ≤ fd ∧ fd < NOFILE then
    (s.ofile p ⟨fd.toNat, by omega⟩).map fun i => (⟨fd.toNat, by omega⟩, i)
  else none

def sysDup (p : Fin NPROC) (fd : Int) : FileProg Int := do
  match (← get).argfd p fd with
  | none => pure (-1)
  | some (_, i) =>
    match ← fdalloc p i with
    | none => pure (-1)
    | some fd =>
      filedup i
      pure fd.val

def sysClose (p : Fin NPROC) (fd : Int) : FileProg (Int × Released) := do
  match (← get).argfd p fd with
  | none => pure (-1, .nothing)
  | some (fd, i) =>
    modify (·.setFd p fd none)
    let r ← fileclose i
    pure (0, r)

structure Found where
  ip : Nat
  type : InodeType
  major : Int
deriving DecidableEq

def flag (omode bit : Nat) : Bool := omode &&& bit ≠ 0

def openEntry (p : Fin NPROC) (found : Found) :
    FileProg (Option (Fin NOFILE × Fin NFILE) × List Released) := do
  if found.type = .device ∧ (found.major < 0 ∨ (NDEV : Int) ≤ found.major) then
    pure (none, [.inode found.ip])
  else
    match ← filealloc with
    | none => pure (none, [.inode found.ip])
    | some i =>
      match ← fdalloc p i with
      | none =>
        let r ← fileclose i
        pure (none, [r, .inode found.ip])
      | some fd => pure (some (fd, i), [])

def sysOpen (p : Fin NPROC) (found : Option Found) (omode : Nat) :
    FileProg (Int × List Released) := do
  match found with
  | none => pure (-1, [])
  | some found =>
    if flag omode O_CREATE = false ∧ found.type = .dir ∧ omode ≠ O_RDONLY then
      pure (-1, [.inode found.ip])
    else
      match ← openEntry p found with
      | (none, r) => pure (-1, r)
      | (some (fd, i), r) =>
        modify fun s =>
          let f := s.file i
          let f := if found.type = .device then { f with type := .device, major := found.major }
            else { f with type := .inode, off := 0 }
          s.upd i { f with
            ip := found.ip
            readable := !flag omode O_WRONLY
            writable := flag omode O_WRONLY || flag omode O_RDWR }
        pure (fd.val, r)

def helperOpen (p : Fin NPROC) (found : Option Found) (omode : Nat) :
    FileProg (Option (Fin NFILE) × List Released) := do
  match found with
  | none => pure (none, [])
  | some found =>
    if flag omode O_CREATE = false ∧ found.type = .dir ∧ omode ≠ O_RDONLY then
      pure (none, [.inode found.ip])
    else
      match ← openEntry p found with
      | (none, r) => pure (none, r)
      | (some (_, i), r) =>
        modify fun s => s.upd i { s.file i with
          type := .inode
          off := 0
          ip := found.ip
          readable := !flag omode O_WRONLY
          writable := true }
        pure (some i, r)

def pipeEntries : FileProg (Option (Fin NFILE × Fin NFILE) × List Released) := do
  match ← filealloc with
  | none => pure (none, [])
  | some f0 =>
    match ← filealloc with
    | none =>
      let r ← fileclose f0
      pure (none, [r])
    | some f1 => pure (some (f0, f1), [])

def pipeInit (f0 f1 : Fin NFILE) (page : Option Nat) : FileProg (Bool × List Released) := do
  match page with
  | none =>
    let a ← fileclose f0
    let b ← fileclose f1
    pure (false, [a, b])
  | some pi =>
    modify (·.setPipe pi ⟨true, true⟩)
    modify fun s => s.upd f0
      { s.file f0 with type := .pipe, readable := true, writable := false, pipe := pi }
    modify fun s => s.upd f1
      { s.file f1 with type := .pipe, readable := false, writable := true, pipe := pi }
    pure (true, [])

def pipeFds (p : Fin NPROC) (rf wf : Fin NFILE) (out0 out1 : Bool) :
    FileProg (Int × List Released) := do
  match ← fdalloc p rf with
  | none =>
    let a ← fileclose rf
    let b ← fileclose wf
    pure (-1, [a, b])
  | some fd0 =>
    match ← fdalloc p wf with
    | none =>
      modify (·.setFd p fd0 none)
      let a ← fileclose rf
      let b ← fileclose wf
      pure (-1, [a, b])
    | some fd1 =>
      if out0 = false ∨ out1 = false then
        modify (·.setFd p fd0 none)
        modify (·.setFd p fd1 none)
        let a ← fileclose rf
        let b ← fileclose wf
        pure (-1, [a, b])
      else pure (0, [])

def sysPipe (p : Fin NPROC) (page : Option Nat) (out0 out1 : Bool) :
    FileProg (Int × List Released) := do
  match ← pipeEntries with
  | (none, r) => pure (-1, r)
  | (some (rf, wf), _) =>
    match ← pipeInit rf wf page with
    | (false, r) => pure (-1, r)
    | (true, _) => pipeFds p rf wf out0 out1

def forkFd (p np : Fin NPROC) (fd : Fin NOFILE) : FileProg Unit := do
  match (← get).ofile p fd with
  | none => pure ()
  | some i =>
    filedup i
    modify (·.setFd np fd (some i))

def exitFd (p : Fin NPROC) (fd : Fin NOFILE) : FileProg Released := do
  match (← get).ofile p fd with
  | none => pure .nothing
  | some i =>
    let r ← fileclose i
    modify (·.setFd p fd none)
    pure r

/-! Specifications of the table operations. -/

section Specs
variable {s : Files} {E : String → Files → Prop}

variable {i : Fin NFILE}

theorem freeEntry_ref (h : s.freeEntry = some i) : (s.file i).ref = 0 := by
  simpa using List.find?_some h

theorem freeFd_none {p : Fin NPROC} {fd : Fin NOFILE} (h : s.freeFd p = some fd) :
    s.ofile p fd = none := by
  simpa using List.find?_some h

theorem wp_filealloc {Q : Option (Fin NFILE) → Files → Prop}
    (hnone : s.freeEntry = none → Q none s)
    (hsome : ∀ i, (s.file i).ref = 0 → Q (some i) (s.upd i { s.file i with ref := 1 })) :
    wp filealloc Q E s := by
  simp only [filealloc, wp_bind, wp_get]
  cases h : s.freeEntry with
  | none => exact hnone h
  | some i => exact hsome i (freeEntry_ref h)

theorem wp_fdalloc {p : Fin NPROC} {Q : Option (Fin NOFILE) → Files → Prop}
    (hnone : s.freeFd p = none → Q none s)
    (hsome : ∀ fd, s.ofile p fd = none → Q (some fd) (s.setFd p fd (some i))) :
    wp (fdalloc p i) Q E s := by
  simp only [fdalloc, wp_bind, wp_get]
  cases h : s.freeFd p with
  | none => exact hnone h
  | some fd => exact hsome fd (freeFd_none h)

theorem wp_fileclose_shared {Q : Released → Files → Prop} (h : 2 ≤ (s.file i).ref)
    (hQ : Q .nothing (s.upd i { s.file i with ref := (s.file i).ref - 1 })) :
    wp (fileclose i) Q E s := by
  have h1 : ¬ (s.file i).ref < 1 := by omega
  have h2 : 0 < (s.file i).ref - 1 := by omega
  simpa only [fileclose, wp_bind, wp_get, h1, h2, if_false, if_true, wp_set, wp_pure] using hQ

theorem wp_fileclose {Q : Released → Files → Prop} (hpanic : (s.file i).ref = 0 → E "fileclose" s)
    (hQ : ∀ r s', s'.ofile = s.ofile → (∀ k, k ≠ i → s'.file k = s.file k) → Q r s') :
    wp (fileclose i) Q E s := by
  have hframe : ∀ (f : File) (k : Fin NFILE), k ≠ i → (s.upd i f).file k = s.file k :=
    fun f k hk => update_of_ne hk _ _
  simp only [fileclose, wp_bind, wp_get, wp_ite, wp_throw, wp_set, wp_pure]
  refine ⟨fun h => hpanic (by omega), fun _ => ⟨fun _ => hQ _ _ rfl (hframe _), fun _ => ?_⟩⟩
  cases (s.file i).type with
  | pipe =>
    simp only [pipeclose, wp_bind, wp_get, wp_set, wp_ite, wp_pure]
    exact ⟨fun _ => hQ _ _ rfl (hframe _), fun _ => hQ _ _ rfl (hframe _)⟩
  | inode | device | none => exact hQ _ _ rfl (hframe _)

end Specs

end Xv6Audit.Ftable
