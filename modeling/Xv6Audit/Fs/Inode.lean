import Xv6Audit.Lib.Prog
import Xv6Audit.Param
import Xv6Audit.Disk.Block

/-! Blocks and inodes of `kernel/fs.c` on the one device the kernel has. The free map and
the inode blocks are kept decoded, block contents are what the buffer cache shows, and the
block numbers given to `log_write` are collected in `logged`. -/
namespace Xv6Audit.FileSys
open Function

open Prog Disk

abbrev NDIRECT : Nat := 12
abbrev NINDIRECT : Nat := 256
abbrev MAXFILE : Nat := NDIRECT + NINDIRECT
abbrev NADDRS : Nat := NDIRECT + 1

def IPB : Nat := 16
def BPB : Nat := BSIZE * 8
def U32 : Nat := 4294967296

def INDIRECT : Fin NADDRS := 12

structure Super where
  size : Nat
  nblocks : Nat
  ninodes : Nat
  inodestart : Nat
  bmapstart : Nat
deriving DecidableEq

def Super.nmeta (sb : Super) : Nat := sb.size - sb.nblocks

structure Dinode where
  type : Option InodeType
  major : Int
  minor : Int
  nlink : Int
  size : Nat
  addrs : Fin NADDRS → Nat
deriving DecidableEq

def Dinode.fresh (type : InodeType) : Dinode := ⟨some type, 0, 0, 0, 0, fun _ => 0⟩

structure Inode where
  inum : Nat
  ref : Int
  locked : Bool
  valid : Bool
  d : Dinode
deriving DecidableEq

structure Fs where
  sb : Super
  bitmap : Nat → Bool
  data : Nat → Block
  dinode : Nat → Dinode
  itable : Fin NINODE → Inode
  logged : List Nat

abbrev FsProg := Prog Fs String

def Fs.bblock (fs : Fs) (b : Nat) : Nat := b / BPB + fs.sb.bmapstart
def Fs.iblock (fs : Fs) (i : Nat) : Nat := i / IPB + fs.sb.inodestart

def Fs.logs (fs : Fs) (b : Nat) : Fs := { fs with logged := b :: fs.logged }

def Fs.setData (fs : Fs) (b : Nat) (v : Block) : Fs :=
  { fs with data := update fs.data b v }

def Fs.setBit (fs : Fs) (b : Nat) (v : Bool) : Fs :=
  { fs with bitmap := update fs.bitmap b v }

def Fs.setDinode (fs : Fs) (i : Nat) (d : Dinode) : Fs :=
  { fs with dinode := update fs.dinode i d }

def Fs.setInode (fs : Fs) (s : Fin NINODE) (ip : Inode) : Fs :=
  { fs with itable := update fs.itable s ip }

def Fs.setD (fs : Fs) (s : Fin NINODE) (d : Dinode) : Fs :=
  fs.setInode s { fs.itable s with d := d }

def Fs.setAddr (fs : Fs) (s : Fin NINODE) (k : Fin NADDRS) (v : Nat) : Fs :=
  fs.setD s { (fs.itable s).d with addrs := update (fs.itable s).d.addrs k v }

/-! Blocks. -/

def Fs.freeBlock (fs : Fs) : Option Nat := (List.range fs.sb.size).find? fun b => !fs.bitmap b

def Fs.take (fs : Fs) (b : Nat) : Fs :=
  (((fs.setBit b true).logs (fs.bblock b)).setData b Block.zero).logs b

def balloc : FsProg Nat := do
  let fs ← get
  match fs.freeBlock with
  | some b =>
    set (fs.take b)
    pure b
  | none => pure 0

def bfree (b : Nat) : FsProg Unit := do
  let fs ← get
  if fs.bitmap b = false then throw "freeing free block"
  else set ((fs.setBit b false).logs (fs.bblock b))

/-! Inodes. -/

def iupdate (s : Fin NINODE) : FsProg Unit := modify fun fs =>
  let ip := fs.itable s
  (fs.setDinode ip.inum ip.d).logs (fs.iblock ip.inum)

def Fs.find (fs : Fs) (inum : Nat) : Option (Fin NINODE) :=
  (List.finRange NINODE).find? fun s => 0 < (fs.itable s).ref ∧ (fs.itable s).inum = inum

def Fs.emptySlot (fs : Fs) : Option (Fin NINODE) :=
  (List.finRange NINODE).find? fun s => (fs.itable s).ref = 0

def iget (inum : Nat) : FsProg (Fin NINODE) := do
  let fs ← get
  match fs.find inum with
  | some s =>
    set (fs.setInode s { fs.itable s with ref := (fs.itable s).ref + 1 })
    pure s
  | none =>
    match fs.emptySlot with
    | some s =>
      set (fs.setInode s { fs.itable s with inum := inum, ref := 1, valid := false })
      pure s
    | none => throw "iget: no inodes"

def idup (s : Fin NINODE) : FsProg (Fin NINODE) := do
  modify fun fs => fs.setInode s { fs.itable s with ref := (fs.itable s).ref + 1 }
  pure s

def Fs.freeInum (fs : Fs) : Option Nat :=
  (List.range fs.sb.ninodes).find? fun i => 0 < i ∧ (fs.dinode i).type = none

def ialloc (type : InodeType) : FsProg (Option (Fin NINODE)) := do
  let fs ← get
  match fs.freeInum with
  | some inum =>
    set ((fs.setDinode inum (Dinode.fresh type)).logs (fs.iblock inum))
    let s ← iget inum
    pure (some s)
  | none => pure none

/-- `acquiresleep` of a lock that is held would sleep for ever when calls run one at a
time. -/
def acquireSleep (s : Fin NINODE) : FsProg Unit := do
  let fs ← get
  if (fs.itable s).locked then throw "asleep"
  else set (fs.setInode s { fs.itable s with locked := true })

def releaseSleep (s : Fin NINODE) : FsProg Unit :=
  modify fun fs => fs.setInode s { fs.itable s with locked := false }

def ilock (s : Fin NINODE) : FsProg Unit := do
  if ((← get).itable s).ref < 1 then throw "ilock"
  else do
    acquireSleep s
    let fs ← get
    if (fs.itable s).valid then pure ()
    else do
      set (fs.setInode s
        { fs.itable s with d := fs.dinode (fs.itable s).inum, valid := true })
      if (fs.dinode (fs.itable s).inum).type = none then throw "ilock: no type" else pure ()

def iunlock (s : Fin NINODE) : FsProg Unit := do
  let fs ← get
  if (fs.itable s).locked = false ∨ (fs.itable s).ref < 1 then throw "iunlock"
  else releaseSleep s

def addrBlock (s : Fin NINODE) (k : Fin NADDRS) : FsProg Nat := do
  let d := ((← get).itable s).d
  if d.addrs k = 0 then do
    let addr ← balloc
    if addr = 0 then pure 0
    else do
      modify fun fs => fs.setAddr s k addr
      pure addr
  else pure (d.addrs k)

def entryBlock (addr j : Nat) : FsProg Nat := do
  let a := (← get).data addr
  if a.word j = 0 then do
    let b ← balloc
    if b = 0 then pure 0
    else do
      modify fun fs => (fs.setData addr ((fs.data addr).setWord j b)).logs addr
      pure b
  else pure (a.word j)

def directIdx (bn : Nat) (h : bn < NDIRECT) : Fin NADDRS := ⟨bn, Nat.lt_succ_of_lt h⟩

def bmap (s : Fin NINODE) (bn : Nat) : FsProg Nat := do
  if h : bn < NDIRECT then addrBlock s (directIdx bn h)
  else if bn - NDIRECT < NINDIRECT then do
    let addr ← addrBlock s INDIRECT
    if addr = 0 then pure 0 else entryBlock addr (bn - NDIRECT)
  else throw "bmap: out of range"

def truncDirect (s : Fin NINODE) (k : Fin NADDRS) : FsProg Unit := do
  let d := ((← get).itable s).d
  if d.addrs k = 0 then pure ()
  else do
    bfree (d.addrs k)
    modify fun fs => fs.setAddr s k 0

def truncIndirect (s : Fin NINODE) : FsProg Unit := do
  let fs ← get
  let addr := (fs.itable s).d.addrs INDIRECT
  if addr = 0 then pure ()
  else do
    let a := fs.data addr
    forUpto NINDIRECT fun j => if a.word j = 0 then pure () else bfree (a.word j)
    bfree addr
    modify fun fs => fs.setAddr s INDIRECT 0

def itrunc (s : Fin NINODE) : FsProg Unit := do
  forUpto NDIRECT fun k => truncDirect s (Fin.ofNat NADDRS k)
  truncIndirect s
  modify fun fs => fs.setD s { (fs.itable s).d with size := 0 }
  iupdate s

def iput (s : Fin NINODE) : FsProg Unit := do
  let ip := (← get).itable s
  if ip.ref = 1 ∧ ip.valid = true ∧ ip.d.nlink = 0 then do
    acquireSleep s
    itrunc s
    modify fun fs => fs.setD s { (fs.itable s).d with type := none }
    iupdate s
    modify fun fs => fs.setInode s { fs.itable s with valid := false }
    releaseSleep s
  else pure ()
  modify fun fs => fs.setInode s { fs.itable s with ref := (fs.itable s).ref - 1 }

def iunlockput (s : Fin NINODE) : FsProg Unit := do
  iunlock s
  iput s

/-! Contents. -/

def slice (blk : Block) (o m : Nat) : List UInt8 := (List.range m).map fun i => blk.byte (o + i)

def readLoop (s : Fin NINODE) (ok : Nat → Bool) (n : Nat) :
    Nat → Nat → Nat → List UInt8 → FsProg (Int × List UInt8)
  | 0, tot, _, acc => pure (tot, acc)
  | fuel+1, tot, off, acc =>
    if tot < n then do
      let addr ← bmap s (off / BSIZE)
      if addr = 0 then pure (tot, acc)
      else do
        let m := min (n - tot) (BSIZE - off % BSIZE)
        let blk := (← get).data addr
        if ok tot then readLoop s ok n fuel (tot + m) (off + m) (acc ++ slice blk (off % BSIZE) m)
        else pure (-1, acc)
    else pure (tot, acc)

/-- `readi`: the result, and the bytes copied. Every round copies at least one byte. -/
def readi (s : Fin NINODE) (ok : Nat → Bool) (off n : Nat) : FsProg (Int × List UInt8) := do
  let size := ((← get).itable s).d.size
  if size < off ∨ (off + n) % U32 < off then pure (0, [])
  else
    let n := if size < off + n then size - off else n
    readLoop s ok n n 0 off []

/-- `either_copyin` of `m` bytes to offset `o`: it stops at the first byte that cannot be
read, and what came before is in the buffer already. -/
def copyin (src : Nat → Option UInt8) (blk : Block) (o tot : Nat) : Nat → Block × Bool
  | 0 => (blk, true)
  | m+1 =>
    match src tot with
    | none => (blk, false)
    | some b => copyin src (blk.setByte o b) (o+1) (tot+1) m

def writeLoop (s : Fin NINODE) (src : Nat → Option UInt8) (n : Nat) :
    Nat → Nat → Nat → FsProg (Nat × Nat)
  | 0, tot, off => pure (tot, off)
  | fuel+1, tot, off =>
    if tot < n then do
      let addr ← bmap s (off / BSIZE)
      if addr = 0 then pure (tot, off)
      else do
        let m := min (n - tot) (BSIZE - off % BSIZE)
        let fs ← get
        let r := copyin src (fs.data addr) (off % BSIZE) tot m
        set (fs.setData addr r.1)
        if r.2 then do
          modify fun fs => fs.logs addr
          writeLoop s src n fuel (tot + m) (off + m)
        else pure (tot, off)
    else pure (tot, off)

def writei (s : Fin NINODE) (src : Nat → Option UInt8) (off n : Nat) : FsProg Int := do
  let size := ((← get).itable s).d.size
  if size < off ∨ (off + n) % U32 < off then pure (-1)
  else if MAXFILE * BSIZE < (off + n) % U32 then pure (-1)
  else do
    let (tot, off) ← writeLoop s src n n 0 off
    modify fun fs =>
      if (fs.itable s).d.size < off then fs.setD s { (fs.itable s).d with size := off } else fs
    iupdate s
    pure tot

end Xv6Audit.FileSys
