import Xv6Audit.Log.Redo
import Xv6Audit.Fs.Dir

/-! `mkfs/mkfs.c` on a little-endian host: the image is a file of blocks, and the program
ends by `exit(0)`, in `die` or in a failed `assert`. -/
namespace Xv6Audit.Mkfs

open Prog Disk
open Audit (ascii strncpyBytes)
open Log (LOGSIZE)
open FileSys (NADDRS NDIRECT NINDIRECT MAXFILE INDIRECT IPB U32 Super Dinode Dirent DIRSIZ ROOTINO
  SLASH directIdx Fs Inode)

def NINODES : Nat := 200
def FSSIZE : Nat := 2000
def FSMAGIC : Nat := 0x10203040

def nbitmap : Nat := FSSIZE / (BSIZE * 8) + 1
def ninodeblocks : Nat := NINODES / IPB + 1
def nlog : Nat := LOGSIZE
def nmeta : Nat := 2 + nlog + ninodeblocks + nbitmap
def nblocks : Nat := FSSIZE - nmeta

def sb : Super where
  size := FSSIZE
  nblocks := nblocks
  ninodes := NINODES
  inodestart := 2 + nlog
  bmapstart := 2 + nlog + ninodeblocks

inductive Stop where
  | die (what : List UInt8)
  | assertion (text : String)
deriving DecidableEq

/-- The image file `fsfd` (`nsect` blocks long) and the two counters; `inodeWrites` are the
blocks `winode` has written. -/
structure Mk where
  sect : Nat → Block
  nsect : Nat
  freeinode : Nat
  freeblock : Nat
  inodeWrites : List Nat

def Mk.init : Mk := ⟨fun _ => Block.zero, 0, 1, nmeta, []⟩

abbrev MkProg := Prog Mk Stop

/-! Sectors. -/

def seek (sec : Nat) : Nat := sec * BSIZE % U32 / BSIZE

def Mk.write (st : Mk) (b : Nat) (buf : Block) : Mk :=
  { st with sect := Function.update st.sect b buf, nsect := max st.nsect (b + 1) }

def wsect (sec : Nat) (buf : Block) : MkProg Unit := modify fun st => st.write (seek sec) buf

def rsect (sec : Nat) : MkProg Block := do
  let st ← get
  if seek sec < st.nsect then pure (st.sect (seek sec)) else throw (.die (ascii "read"))

def setWords (b : Block) (o : Nat) : List Nat → Block
  | [] => b
  | w :: ws => setWords (b.setWord o w) (o + 1) ws

def superblock : Block :=
  setWords Block.zero 0 [FSMAGIC, sb.size, sb.nblocks, sb.ninodes, nlog, 2, sb.inodestart,
    sb.bmapstart]

/-! Inodes. -/

def toShort (v : Int) : Nat := (v % 65536).toNat
def ofShort (v : Nat) : Int := if v < 32768 then v else v - 65536

def typeCode : Option InodeType → Nat
  | none => 0
  | some .dir => 1
  | some .file => 2
  | some .device => 3

def typeOf (n : Nat) : Option InodeType :=
  if n = 1 then some .dir else if n = 2 then some .file else if n = 3 then some .device else none

def dinodeWords (d : Dinode) : List Nat :=
  [typeCode d.type + 65536 * toShort d.major, toShort d.minor + 65536 * toShort d.nlink, d.size] ++
    List.ofFn d.addrs

def putDinode (b : Block) (k : Nat) (d : Dinode) : Block := setWords b (16 * k) (dinodeWords d)

def getDinode (b : Block) (k : Nat) : Dinode where
  type := typeOf (b.word (16 * k) % 65536)
  major := ofShort (b.word (16 * k) / 65536)
  minor := ofShort (b.word (16 * k + 1) % 65536)
  nlink := ofShort (b.word (16 * k + 1) / 65536)
  size := b.word (16 * k + 2)
  addrs := fun j => b.word (16 * k + 3 + j)

def iblock (inum : Nat) : Nat := inum / IPB + sb.inodestart

def rinode (inum : Nat) : MkProg Dinode := do
  let buf ← rsect (iblock inum)
  pure (getDinode buf (inum % IPB))

def winode (inum : Nat) (d : Dinode) : MkProg Unit := do
  let buf ← rsect (iblock inum)
  wsect (iblock inum) (putDinode buf (inum % IPB) d)
  modify fun st => { st with inodeWrites := iblock inum :: st.inodeWrites }

def newDinode (type : InodeType) : Dinode := ⟨some type, 0, 0, 1, 0, fun _ => 0⟩

def ialloc (type : InodeType) : MkProg Nat := do
  let inum := (← get).freeinode
  modify fun st => { st with freeinode := st.freeinode + 1 }
  winode inum (newDinode type)
  pure inum

/-! Blocks. -/

def setBits : Nat → Block
  | 0 => Block.zero
  | i+1 =>
    let buf := setBits i
    buf.setByte (i / 8) (buf.byte (i / 8) ||| (1 <<< UInt8.ofNat (i % 8)))

def balloc (used : Nat) : MkProg Unit :=
  if used < BSIZE * 8 then wsect sb.bmapstart (setBits used)
  else throw (.assertion "used < BSIZE*8")

def nextBlock : MkProg Nat := do
  let b := (← get).freeblock
  modify fun st => { st with freeblock := st.freeblock + 1 }
  pure b

def addrBlock (din : Dinode) (k : Fin NADDRS) : MkProg Dinode :=
  if din.addrs k = 0 then do
    let b ← nextBlock
    pure { din with addrs := Function.update din.addrs k b }
  else pure din

def entryBlock (din : Dinode) (j : Nat) : MkProg Nat := do
  let indirect ← rsect (din.addrs INDIRECT)
  if indirect.word j = 0 then do
    let b ← nextBlock
    wsect (din.addrs INDIRECT) (indirect.setWord j b)
    pure b
  else pure (indirect.word j)

def blockFor (din : Dinode) (fbn : Nat) : MkProg (Dinode × Nat) :=
  if h : fbn < NDIRECT then do
    let din ← addrBlock din (directIdx fbn h)
    pure (din, din.addrs (directIdx fbn h))
  else do
    let din ← addrBlock din INDIRECT
    let x ← entryBlock din (fbn - NDIRECT)
    pure (din, x)

def bcopy : List UInt8 → Block → Nat → Block
  | [], buf, _ => buf
  | c :: p, buf, o => bcopy p (buf.setByte o c) (o + 1)

def appendLoop : Nat → Dinode → Nat → List UInt8 → MkProg (Dinode × Nat)
  | 0, din, off, _ => pure (din, off)
  | fuel+1, din, off, p =>
    if 0 < p.length then
      if off / BSIZE < MAXFILE then do
        let (din, x) ← blockFor din (off / BSIZE)
        let n1 := min p.length ((off / BSIZE + 1) * BSIZE - off)
        let buf ← rsect x
        wsect x (bcopy (p.take n1) buf (off - off / BSIZE * BSIZE))
        appendLoop fuel din (off + n1) (p.drop n1)
      else throw (.assertion "fbn < MAXFILE")
    else pure (din, off)

def iappend (inum : Nat) (p : List UInt8) : MkProg Unit := do
  let din ← rinode inum
  let (din, off) ← appendLoop p.length din din.size p
  winode inum { din with size := off }

/-! `main`. -/

/-- An argument: whether it can be opened, and what the calls of `read` return until one
returns 0 or an error. -/
structure Input where
  path : List UInt8
  opens : Bool
  reads : List (List UInt8)
  chunks : ∀ r ∈ reads, 0 < r.length ∧ r.length ≤ BSIZE

def Input.bytes (f : Input) : List UInt8 := f.reads.flatten

def shortname (path : List UInt8) : List UInt8 :=
  if path.take 5 = ascii "user/" then path.drop 5 else path

def skipUnderscore : List UInt8 → List UInt8
  | c :: rest => if c = 95 then rest else c :: rest
  | [] => []

def dirent (inum : Nat) (name : List UInt8) : List UInt8 :=
  Dirent.bytes ⟨inum, strncpyBytes name DIRSIZ⟩

def appendReads (inum : Nat) : List (List UInt8) → MkProg Unit
  | [] => pure ()
  | buf :: rest => do
    iappend inum buf
    appendReads inum rest

def addFile (rootino : Nat) (f : Input) : MkProg Unit :=
  if SLASH ∈ shortname f.path then throw (.assertion "index(shortname, '/') == 0")
  else if f.opens then do
    let inum ← ialloc .file
    iappend rootino (dirent inum (skipUnderscore (shortname f.path)))
    appendReads inum f.reads
  else throw (.die f.path)

def addFiles (rootino : Nat) : List Input → MkProg Unit
  | [] => pure ()
  | f :: rest => do
    addFile rootino f
    addFiles rootino rest

def fixRoot (rootino : Nat) : MkProg Unit := do
  let din ← rinode rootino
  winode rootino { din with size := (din.size / BSIZE + 1) * BSIZE }

def finish (rootino : Nat) : MkProg Unit := do
  fixRoot rootino
  balloc (← get).freeblock

def main (files : List Input) : MkProg Unit := do
  forUpto FSSIZE fun i => wsect i Block.zero
  wsect 1 superblock
  let rootino ← ialloc .dir
  if rootino = ROOTINO then do
    iappend rootino (dirent rootino (ascii "."))
    iappend rootino (dirent rootino (ascii ".."))
    addFiles rootino files
    finish rootino
  else throw (.assertion "rootino == ROOTINO")

/-! The image as the kernel finds it. -/

def readsb (buf : Block) : Super where
  size := buf.word 1
  nblocks := buf.word 2
  ninodes := buf.word 3
  inodestart := buf.word 6
  bmapstart := buf.word 7

def unusedDinode : Dinode := ⟨none, 0, 0, 0, 0, fun _ => 0⟩

/-- The dinodes of an image. The inode blocks end where the bitmap starts: `ilock` would read
the block `IBLOCK` names for a number behind them too, which is left out. -/
def dinodes (sb : Super) (sect : Nat → Block) (i : Nat) : Dinode :=
  if i / IPB + sb.inodestart < sb.bmapstart then
    getDinode (sect (i / IPB + sb.inodestart)) (i % IPB)
  else unusedDinode

def bitSet (buf : Block) (bi : Nat) : Bool :=
  (buf.byte (bi / 8) &&& (1 <<< UInt8.ofNat (bi % 8))) != 0

def mount (sect : Nat → Block) : Fs where
  sb := readsb (sect 1)
  bitmap := fun b => bitSet (sect (b / FileSys.BPB + (readsb (sect 1)).bmapstart)) (b % FileSys.BPB)
  data := sect
  dinode := dinodes (readsb (sect 1)) sect
  itable := fun _ => ⟨0, 0, false, false, unusedDinode⟩
  logged := []

end Xv6Audit.Mkfs
