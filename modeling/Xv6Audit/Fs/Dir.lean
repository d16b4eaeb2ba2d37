import Xv6Audit.Audit.Record
import Xv6Audit.Fs.Inode

/-! Directories and path names of `kernel/fs.c`. A path is the byte string of a C string,
without its terminator; a name is what a `DIRSIZ` buffer holds up to a NUL. -/
namespace Xv6Audit.FileSys

open Prog Disk
open Audit (ascii strncpyBytes)

def DIRSIZ : Nat := 14
def ROOTINO : Nat := 1
def DESIZE : Nat := 16

abbrev Name := List UInt8

structure Dirent where
  inum : Nat
  name : List UInt8
deriving DecidableEq

def Dirent.bytes (e : Dirent) : List UInt8 :=
  UInt8.ofNat e.inum :: UInt8.ofNat (e.inum / 256) :: e.name

def Dirent.ofBytes (bs : List UInt8) : Dirent where
  inum := (bs.getD 0 0).toNat + 256 * (bs.getD 1 0).toNat
  name := bs.drop 2

def strncmp : List UInt8 → List UInt8 → Nat → Int
  | _, _, 0 => 0
  | p, q, n+1 =>
    if p.headD 0 ≠ 0 ∧ p.headD 0 = q.headD 0 then strncmp p.tail q.tail n
    else (p.headD 0).toNat - (q.headD 0).toNat

def namecmp (s t : List UInt8) : Int := strncmp s t DIRSIZ

def dirOffs (size : Nat) : List Nat := (List.range ((size + DESIZE - 1) / DESIZE)).map (DESIZE * ·)

def readDirent (s : Fin NINODE) (off : Nat) (short : String) : FsProg Dirent := do
  let r ← readi s (fun _ => true) off DESIZE
  if r.1 = DESIZE then pure (Dirent.ofBytes r.2) else throw short

def dirlookup (dp : Fin NINODE) (name : Name) : FsProg (Option (Fin NINODE × Nat)) := do
  let d := ((← get).itable dp).d
  if d.type = some .dir then
    firstSome (dirOffs d.size) fun off => do
      let de ← readDirent dp off "dirlookup read"
      if de.inum ≠ 0 ∧ namecmp name de.name = 0 then do
        let ip ← iget de.inum
        pure (some (ip, off))
      else pure none
  else throw "dirlookup not DIR"

def emptyDirent (dp : Fin NINODE) : FsProg Nat := do
  let size := ((← get).itable dp).d.size
  let found ← firstSome (dirOffs size) fun off => do
    let de ← readDirent dp off "dirlink read"
    pure (if de.inum = 0 then some off else none)
  pure (found.getD (DESIZE * ((size + DESIZE - 1) / DESIZE)))

def writeDirent (dp : Fin NINODE) (off : Nat) (de : Dirent) : FsProg Bool := do
  let r ← writei dp (fun i => de.bytes[i]?) off DESIZE
  pure (decide (r = DESIZE))

def dirlink (dp : Fin NINODE) (name : Name) (inum : Nat) : FsProg Bool := do
  match ← dirlookup dp name with
  | some (ip, _) =>
    iput ip
    pure false
  | none =>
    let off ← emptyDirent dp
    writeDirent dp off ⟨inum, strncpyBytes name DIRSIZ⟩

def SLASH : UInt8 := 47

def skipelem (path : List UInt8) : Option (List UInt8 × Name) :=
  match path.dropWhile (· == SLASH) with
  | [] => none
  | s => some ((s.dropWhile (· != SLASH)).dropWhile (· == SLASH),
      (s.takeWhile (· != SLASH)).take DIRSIZ)

def elemsUpto : Nat → List UInt8 → List Name
  | 0, _ => []
  | fuel+1, path =>
    match skipelem path with
    | none => []
    | some (rest, name) => name :: elemsUpto fuel rest

def elems (path : List UInt8) : List Name := elemsUpto path.length path

def namexLoop (nameiparent : Bool) : List Name → Fin NINODE → FsProg (Option (Fin NINODE × Name))
  | [], ip =>
    if nameiparent then do
      iput ip
      pure none
    else pure (some (ip, []))
  | name :: rest, ip => do
    ilock ip
    if ((← get).itable ip).d.type = some .dir then
      if nameiparent = true ∧ rest = [] then do
        iunlock ip
        pure (some (ip, name))
      else do
        match ← dirlookup ip name with
        | none =>
          iunlockput ip
          pure none
        | some (next, _) =>
          iunlockput ip
          namexLoop nameiparent rest next
    else do
      iunlockput ip
      pure none

def namex (cwd : Fin NINODE) (path : List UInt8) (nameiparent : Bool) :
    FsProg (Option (Fin NINODE × Name)) := do
  let ip ← if path.head? = some SLASH then iget ROOTINO else idup cwd
  namexLoop nameiparent (elems path) ip

def namei (cwd : Fin NINODE) (path : List UInt8) : FsProg (Option (Fin NINODE)) := do
  let r ← namex cwd path false
  pure (r.map Prod.fst)

def nameiparent (cwd : Fin NINODE) (path : List UInt8) : FsProg (Option (Fin NINODE × Name)) :=
  namex cwd path true

/-! The calls of `kernel/sysfile.c` that work on the tree, between `begin_op` and `end_op`. -/

def short (x : Int) : Int := (x + 32768) % 65536 - 32768

def setNlink (s : Fin NINODE) (f : Int → Int) : FsProg Unit := do
  modify fun fs => fs.setD s { (fs.itable s).d with nlink := short (f (fs.itable s).d.nlink) }
  iupdate s

def link (cwd : Fin NINODE) (old new : List UInt8) : FsProg Int := do
  match ← namei cwd old with
  | none => pure (-1)
  | some ip =>
    ilock ip
    if ((← get).itable ip).d.type = some .dir then do
      iunlockput ip
      pure (-1)
    else do
      setNlink ip (· + 1)
      iunlock ip
      let linked ← do
        match ← nameiparent cwd new with
        | none => pure false
        | some (dp, name) =>
          ilock dp
          let linked ← dirlink dp name ((← get).itable ip).inum
          iunlockput dp
          pure linked
      if linked then do
        iput ip
        pure 0
      else do
        ilock ip
        setNlink ip (· - 1)
        iunlockput ip
        pure (-1)

def isdirempty (dp : Fin NINODE) : FsProg Bool := do
  let size := ((← get).itable dp).d.size
  let found ← firstSome ((dirOffs size).drop 2) fun off => do
    let de ← readDirent dp off "isdirempty: readi"
    pure (if de.inum ≠ 0 then some () else none)
  pure (found == none)

def unlink (cwd : Fin NINODE) (path : List UInt8) : FsProg Int := do
  match ← nameiparent cwd path with
  | none => pure (-1)
  | some (dp, name) =>
    ilock dp
    if namecmp name (ascii ".") = 0 ∨ namecmp name (ascii "..") = 0 then do
      iunlockput dp
      pure (-1)
    else
      match ← dirlookup dp name with
      | none =>
        iunlockput dp
        pure (-1)
      | some (ip, off) =>
        ilock ip
        let d := ((← get).itable ip).d
        if d.nlink < 1 then throw "unlink: nlink < 1"
        else do
          let empty ← if d.type = some .dir then isdirempty ip else pure true
          if empty then do
            if ← writeDirent dp off ⟨0, List.replicate DIRSIZ 0⟩ then do
              if d.type = some .dir then setNlink dp (· - 1) else pure ()
              iunlockput dp
              setNlink ip (· - 1)
              iunlockput ip
              pure 0
            else throw "unlink: writei"
          else do
            iunlockput ip
            iunlockput dp
            pure (-1)

def dotEntries (ip dp : Fin NINODE) : FsProg Bool := do
  if ← dirlink ip (ascii ".") ((← get).itable ip).inum then
    dirlink ip (ascii "..") ((← get).itable dp).inum
  else pure false

def createFail (ip dp : Fin NINODE) : FsProg (Option (Fin NINODE)) := do
  setNlink ip fun _ => 0
  iunlockput ip
  iunlockput dp
  pure none

def createEntry (ip dp : Fin NINODE) (name : Name) (type : InodeType) :
    FsProg (Option (Fin NINODE)) := do
  if ← dirlink dp name ((← get).itable ip).inum then do
    if type = .dir then setNlink dp (· + 1) else pure ()
    iunlockput dp
    pure (some ip)
  else createFail ip dp

def createNew (dp : Fin NINODE) (name : Name) (type : InodeType) (major minor : Int) :
    FsProg (Option (Fin NINODE)) := do
  match ← ialloc type with
  | none =>
    iunlockput dp
    pure none
  | some ip =>
    ilock ip
    modify fun fs => fs.setD ip { (fs.itable ip).d with
      major := short major, minor := short minor, nlink := 1 }
    iupdate ip
    if ← (if type = .dir then dotEntries ip dp else pure true) then createEntry ip dp name type
    else createFail ip dp

def create (cwd : Fin NINODE) (path : List UInt8) (type : InodeType) (major minor : Int) :
    FsProg (Option (Fin NINODE)) := do
  match ← nameiparent cwd path with
  | none => pure none
  | some (dp, name) =>
    ilock dp
    match ← dirlookup dp name with
    | some (ip, _) =>
      iunlockput dp
      ilock ip
      let found := ((← get).itable ip).d.type
      if type = .file ∧ (found = some .file ∨ found = some .device) then pure (some ip)
      else do
        iunlockput ip
        pure none
    | none => createNew dp name type major minor

end Xv6Audit.FileSys
