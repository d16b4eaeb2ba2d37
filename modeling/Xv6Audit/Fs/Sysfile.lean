import Xv6Audit.File.Table
import Xv6Audit.Fs.Dir

/-! The calls of `kernel/sysfile.c` that take path names, `close`, and what `exit` does to
files, over the inode table, the open files and the working directories. Each runs to its
end. -/
namespace Xv6Audit.FileSys

open Prog
open Ftable (Files Released flag)

def MAXPATH : Nat := 128

structure UserPath where
  bytes : List UInt8
  noNul : 0 ∉ bytes
  short : bytes.length < MAXPATH

structure Sys where
  fs : Fs
  files : Files
  cwd : Fin NPROC → Option (Fin NINODE)

abbrev SysProg := Prog Sys String

def onFs {α : Type} (c : FsProg α) : SysProg α := zoom Sys.fs (fun fs y => { y with fs := fs }) c

def onFiles {α : Type} (c : Ftable.FileProg α) : SysProg α :=
  zoom Sys.files (fun files y => { y with files := files }) c

def mycwd (p : Fin NPROC) : SysProg (Fin NINODE) := do
  match (← get).cwd p with
  | some ip => pure ip
  | none => throw "not running"

def release : Released → SysProg Unit
  | .inode ip => onFs (iput (Fin.ofNat NINODE ip))
  | .page _ => pure ()
  | .nothing => pure ()

def releaseAll : List Released → SysProg Unit
  | [] => pure ()
  | r :: rs => do
    release r
    releaseAll rs

def openInode (cwd : Fin NINODE) (path : List UInt8) (omode : Nat) :
    FsProg (Option (Fin NINODE)) := do
  if flag omode O_CREATE then create cwd path .file 0 0
  else
    match ← namei cwd path with
    | none => pure none
    | some ip =>
      ilock ip
      pure (some ip)

def openEnd (ip : Fin NINODE) (omode : Nat) (fd : Int) : FsProg Unit := do
  if 0 ≤ fd ∧ flag omode O_TRUNC ∧ ((← get).itable ip).d.type = some .file then itrunc ip
  else pure ()
  iunlock ip

def sysOpen (p : Fin NPROC) (path : Option UserPath) (omode : UInt32) : SysProg Int := do
  let cwd ← mycwd p
  match path with
  | none => pure (-1)
  | some path =>
    match ← onFs (openInode cwd path.bytes omode.toNat) with
    | none => pure (-1)
    | some ip =>
      let d := ((← get).fs.itable ip).d
      let found : Ftable.Found := ⟨ip.val, d.type.getD .file, d.major⟩
      let (fd, rs) ← onFiles (Ftable.sysOpen p (some found) omode.toNat)
      onFs (openEnd ip omode.toNat fd)
      releaseAll rs
      pure fd

def sysMake (p : Fin NPROC) (path : Option UserPath) (type : InodeType) (major minor : Int) :
    SysProg Int := do
  let cwd ← mycwd p
  match path with
  | none => pure (-1)
  | some path =>
    match ← onFs (create cwd path.bytes type major minor) with
    | none => pure (-1)
    | some ip =>
      onFs (iunlockput ip)
      pure 0

def sysMkdir (p : Fin NPROC) (path : Option UserPath) : SysProg Int := sysMake p path .dir 0 0

def sysMknod (p : Fin NPROC) (path : Option UserPath) (major minor : Int) : SysProg Int :=
  sysMake p path .device major minor

def sysLink (p : Fin NPROC) (old new : Option UserPath) : SysProg Int := do
  let cwd ← mycwd p
  match old, new with
  | some old, some new => onFs (link cwd old.bytes new.bytes)
  | _, _ => pure (-1)

def sysUnlink (p : Fin NPROC) (path : Option UserPath) : SysProg Int := do
  let cwd ← mycwd p
  match path with
  | none => pure (-1)
  | some path => onFs (unlink cwd path.bytes)

def chdirInode (cwd : Fin NINODE) (path : List UInt8) : FsProg (Option (Fin NINODE)) := do
  match ← namei cwd path with
  | none => pure none
  | some ip =>
    ilock ip
    if ((← get).itable ip).d.type = some .dir then do
      iunlock ip
      pure (some ip)
    else do
      iunlockput ip
      pure none

def sysChdir (p : Fin NPROC) (path : Option UserPath) : SysProg Int := do
  let cwd ← mycwd p
  match path with
  | none => pure (-1)
  | some path =>
    match ← onFs (chdirInode cwd path.bytes) with
    | none => pure (-1)
    | some ip =>
      onFs (iput cwd)
      modify fun y => { y with cwd := Function.update y.cwd p (some ip) }
      pure 0

def sysClose (p : Fin NPROC) (fd : Int) : SysProg Int := do
  let _ ← mycwd p
  let (r, rel) ← onFiles (Ftable.sysClose p fd)
  release rel
  pure r

def exitFiles (p : Fin NPROC) : SysProg Unit := do
  if p = 0 then throw "init exiting"
  else do
    let cwd ← mycwd p
    forUpto NOFILE fun fd => do
      let rel ← onFiles (Ftable.exitFd p (Fin.ofNat NOFILE fd))
      release rel
    onFs (iput cwd)
    modify fun y => { y with cwd := Function.update y.cwd p none }

inductive PathCall where
  | openFile (p : Fin NPROC) (path : Option UserPath) (omode : UInt32)
  | mkdir (p : Fin NPROC) (path : Option UserPath)
  | mknod (p : Fin NPROC) (path : Option UserPath) (major minor : Int)
  | link (p : Fin NPROC) (old new : Option UserPath)
  | unlink (p : Fin NPROC) (path : Option UserPath)
  | chdir (p : Fin NPROC) (path : Option UserPath)
  | close (p : Fin NPROC) (fd : Int)
  | exit (p : Fin NPROC)

def PathCall.prog : PathCall → SysProg Unit
  | .openFile p path omode => do let _ ← sysOpen p path omode
  | .mkdir p path => do let _ ← sysMkdir p path
  | .mknod p path major minor => do let _ ← sysMknod p path major minor
  | .link p old new => do let _ ← sysLink p old new
  | .unlink p path => do let _ ← sysUnlink p path
  | .chdir p path => do let _ ← sysChdir p path
  | .close p fd => do let _ ← sysClose p fd
  | .exit p => exitFiles p

def Sys.step (y : Sys) (c : PathCall) : Option Sys :=
  match c.prog y with
  | (.ok _, y') => some y'
  | (.error _, _) => none

end Xv6Audit.FileSys
