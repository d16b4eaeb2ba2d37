import Xv6Audit.Lib.Prog
import Xv6Audit.Disk.Block

/-! The redo log of `kernel/log.c` over a buffer cache and a disk of atomic block
writes. Power may fail before any write: the disk survives, the memory does not. -/
namespace Xv6Audit.Log
open Function Disk Prog

def LOGSIZE : Nat := 30

inductive Stop where
  | powerFail
  | panic (msg : String)
deriving DecidableEq, Repr

structure LogHeader where
  n : Nat
  block : Nat → Nat

structure Buf where
  data : Block
  refcnt : Nat

/-- Disk, buffer cache and `struct log`. `writesLeft` is the number of block writes that
complete before the power fails, `victims` the buffers `bget` recycles, in order. -/
structure Machine where
  disk : Nat → Block
  writesLeft : Nat
  cache : Nat → Option Buf
  victims : List Nat
  start : Nat
  size : Nat
  outstanding : Nat
  lh : LogHeader

abbrev LogM := Prog Machine Stop

namespace Machine

def viewOf (s : Machine) (b : Nat) : Block :=
  match s.cache b with
  | some buf => buf.data
  | none => s.disk b

def refOf (s : Machine) (b : Nat) : Nat :=
  match s.cache b with
  | some buf => buf.refcnt
  | none => 0

def recycle (s : Machine) : Machine :=
  match s.victims with
  | [] => s
  | v :: vs =>
    if s.refOf v = 0 then { s with victims := vs, cache := update s.cache v none }
    else { s with victims := vs }

def updBuf (s : Machine) (b : Nat) (f : Buf → Buf) : Machine :=
  { s with cache := update s.cache b ((s.cache b).map f) }

end Machine

def bread (b : Nat) : LogM Unit := modify fun s =>
  match s.cache b with
  | some _ => s.updBuf b fun buf => { buf with refcnt := buf.refcnt + 1 }
  | none =>
    let r := s.recycle
    { r with cache := update r.cache b (some ⟨r.disk b, 1⟩) }

def bdata (b : Nat) : LogM Block := do
  let s ← get
  return s.viewOf b

def setData (b : Nat) (d : Block) : LogM Unit :=
  modify fun s => s.updBuf b fun buf => { buf with data := d }

def brelse (b : Nat) : LogM Unit :=
  modify fun s => s.updBuf b fun buf => { buf with refcnt := buf.refcnt - 1 }

def bpin (b : Nat) : LogM Unit :=
  modify fun s => s.updBuf b fun buf => { buf with refcnt := buf.refcnt + 1 }

def bunpin (b : Nat) : LogM Unit :=
  modify fun s => s.updBuf b fun buf => { buf with refcnt := buf.refcnt - 1 }

def bwrite (b : Nat) : LogM Unit := do
  let s ← get
  if s.writesLeft = 0 then throw .powerFail
  set { s with disk := update s.disk b (s.viewOf b), writesLeft := s.writesLeft - 1 }

def installTrans (recovering : Bool) : LogM Unit := do
  let s ← get
  forUpto s.lh.n fun tail => do
    let s ← get
    let lbuf := s.start + tail + 1
    let dbuf := s.lh.block tail
    bread lbuf
    bread dbuf
    let d ← bdata lbuf
    setData dbuf d
    bwrite dbuf
    if recovering = false then bunpin dbuf
    brelse lbuf
    brelse dbuf

def getHeader (lh : LogHeader) (hb : Block) : LogHeader :=
  ⟨hb.word 0, fun i => if i < hb.word 0 then hb.word (i+1) else lh.block i⟩

def readHead : LogM Unit := do
  let s ← get
  bread s.start
  let hb ← bdata s.start
  modify fun s => { s with lh := getHeader s.lh hb }
  brelse s.start

def putBlocks (lh : LogHeader) (hb : Block) : Nat → Block
  | 0 => hb
  | k+1 => (putBlocks lh hb k).setWord (k+1) (lh.block k)

def putHeader (lh : LogHeader) (hb : Block) : Block :=
  putBlocks lh (hb.setWord 0 lh.n) lh.n

def writeHead : LogM Unit := do
  let s ← get
  bread s.start
  let hb ← bdata s.start
  setData s.start (putHeader s.lh hb)
  bwrite s.start
  brelse s.start

def clearHead : LogM Unit := do
  modify fun s => { s with lh := { s.lh with n := 0 } }
  writeHead

def recoverFromLog : LogM Unit := do
  readHead
  installTrans true
  clearHead

def writeLog : LogM Unit := do
  let s ← get
  forUpto s.lh.n fun tail => do
    let s ← get
    let dst := s.start + tail + 1
    let src := s.lh.block tail
    bread dst
    bread src
    let d ← bdata src
    setData dst d
    bwrite dst
    brelse src
    brelse dst

def commit : LogM Unit := do
  let s ← get
  if 0 < s.lh.n then
    writeLog
    writeHead
    installTrans false
    clearHead

def absorb (lh : LogHeader) (b : Nat) : Nat → Nat
  | 0 => lh.n
  | k+1 => if lh.block (lh.n - (k+1)) = b then lh.n - (k+1) else absorb lh b k

theorem absorb_spec (lh : LogHeader) (b k : Nat) (hk : k ≤ lh.n) :
    absorb lh b k = lh.n ∨ (absorb lh b k < lh.n ∧ lh.block (absorb lh b k) = b) := by
  induction k with
  | zero => exact .inl rfl
  | succ k ih =>
    unfold absorb
    by_cases hb : lh.block (lh.n - (k+1)) = b
    · rw [if_pos hb]
      exact .inr ⟨by omega, hb⟩
    · rw [if_neg hb]
      exact ih (by omega)

theorem absorb_new (lh : LogHeader) (b k : Nat) (hk : k ≤ lh.n) (h : absorb lh b k = lh.n)
    {i : Nat} (hi : lh.n - k ≤ i) (hin : i < lh.n) : lh.block i ≠ b := by
  induction k with
  | zero => omega
  | succ k ih =>
    unfold absorb at h
    by_cases hb : lh.block (lh.n - (k+1)) = b
    · rw [if_pos hb] at h
      omega
    · rw [if_neg hb] at h
      by_cases he : i = lh.n - (k+1)
      · rw [he]
        exact hb
      · exact ih (by omega) h (by omega)

def logWrite (b : Nat) : LogM Unit := do
  let s ← get
  if s.lh.n ≥ LOGSIZE ∨ s.lh.n ≥ s.size - 1 then throw (.panic "too big a transaction")
  if s.outstanding < 1 then throw (.panic "log_write outside of trans")
  let i := absorb s.lh b s.lh.n
  modify fun s => { s with lh := { s.lh with block := update s.lh.block i b } }
  if i = s.lh.n then
    bpin b
    modify fun s => { s with lh := { s.lh with n := s.lh.n + 1 } }

def modifyBlock (b : Nat) (d : Block) : LogM Unit := do
  bread b
  setData b d
  logWrite b
  brelse b

def modifyBlocks : List (Nat × Block) → LogM Unit
  | [] => pure ()
  | (b, d) :: t => do
    modifyBlock b d
    modifyBlocks t

abbrev Txn := List (Nat × Block)

def transaction (t : Txn) : LogM Unit := do
  modify fun s => { s with outstanding := s.outstanding + 1 }
  modifyBlocks t
  modify fun s => { s with outstanding := s.outstanding - 1 }
  commit

/-- Log geometry from the superblock: `[start, start+size)` holds the header block and
`size-1` log blocks, with block numbers in range of `int`. -/
structure Geometry where
  start : Nat
  size : Nat
  size_pos : 1 ≤ size
  fits : start + size ≤ 2147483648

def InLog (g : Geometry) (x : Nat) : Prop := g.start ≤ x ∧ x < g.start + g.size

instance (g : Geometry) (x : Nat) : Decidable (InLog g x) :=
  inferInstanceAs (Decidable (_ ∧ _))

/-- Memory right after power-on: nothing cached, `struct log` zero but for the geometry
that `initlog` copies from the superblock. -/
def bootMachine (g : Geometry) (disk : Nat → Block) (writes : Nat) (victims : List Nat) :
    Machine where
  disk := disk
  writesLeft := writes
  cache := fun _ => none
  victims := victims
  start := g.start
  size := g.size
  outstanding := 0
  lh := ⟨0, fun _ => 0⟩

/-- One power-on: recovery, then transactions until the power fails, a panic, or the end
of the list (and then the power fails while the machine is idle). -/
structure Epoch where
  txns : List Txn
  writes : Nat
  victims : List Nat

def runTxns : List Txn → Machine → Nat × Machine
  | [], m => (0, m)
  | t :: ts, m =>
    match transaction t m with
    | (.ok _, m') => ((runTxns ts m').1 + 1, (runTxns ts m').2)
    | (.error _, m') => (0, m')

def runEpoch (g : Geometry) (e : Epoch) (disk : Nat → Block) : Nat × (Nat → Block) :=
  match recoverFromLog (bootMachine g disk e.writes e.victims) with
  | (.ok _, m) => ((runTxns e.txns m).1, (runTxns e.txns m).2.disk)
  | (.error _, m) => (0, m.disk)

def runEpochs (g : Geometry) : List Epoch → (Nat → Block) → List Nat × (Nat → Block)
  | [], disk => ([], disk)
  | e :: es, disk =>
    let r := runEpoch g e disk
    ((r.1 :: (runEpochs g es r.2).1), (runEpochs g es r.2).2)

end Xv6Audit.Log
