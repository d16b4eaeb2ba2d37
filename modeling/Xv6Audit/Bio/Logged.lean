import Xv6Audit.Bio.Cache
import Xv6Audit.Log.Ops

/-! Processes that read and write blocks through the buffer cache, with the log of
`kernel/log.c` on top of it. `commit()` goes buffer by buffer: it takes the same steps as any
other user of the cache. -/
namespace Xv6Audit.Bio
open Disk Log

/-- Where the process in `commit()` is in the body of a loop, or in `write_head()`. The first
buffer is the one of the log, `to` or `lbuf`; the second is `from` or `dbuf`. -/
inductive Body where
  | top
  | one (b : Fin NBUF)
  | two (b b' : Fin NBUF)
  | copied (b b' : Fin NBUF)
  | written (b b' : Fin NBUF)
  | unpinned (b b' : Fin NBUF)
  | last (b : Fin NBUF)
  | rest (b : Fin NBUF)
deriving DecidableEq, Repr

/-- Cache and log. `made` and `installed` are history: how many blocks of the header
`write_log()` has copied and `install_trans()` has unpinned. -/
structure Store where
  dev : Nat
  start : Nat
  cache : Cache Block
  log : Logger NPROC
  body : Body
  made : Nat
  installed : Nat

inductive StoreAct where
  | bget (p : Fin NPROC) (dev blockno : Nat)
  | acquiresleep (p : Fin NPROC) (b : Fin NBUF)
  | fill (p : Fin NPROC) (b : Fin NBUF)
  | modify (p : Fin NPROC) (b : Fin NBUF) (x : Block)
  | bwrite (p : Fin NPROC) (b : Fin NBUF)
  | logWrite (p : Fin NPROC) (b : Fin NBUF)
  | brelse (p : Fin NPROC) (b : Fin NBUF)
  | unref (p : Fin NPROC) (b : Fin NBUF)
  | beginOp (p : Fin NPROC)
  | endOp (p : Fin NPROC)
  | kill (p : Fin NPROC)
  | commit (p : Fin NPROC)

namespace Store

def withCache (s : Store) (x : Except Halt (Cache Block)) : Except Halt Store :=
  x.map fun c => { s with cache := c }

def withLog (s : Store) (x : Except Halt (Logger NPROC)) : Except Halt Store :=
  x.map fun l => { s with log := l }

def atEase (s : Store) (p : Fin NPROC) : Bool :=
  (List.finRange NBUF).all fun b => match s.cache.stage p b with
    | none | some .ready | some .dirty => true
    | some .wait | some .locked | some .left => false

def runs (s : Store) (p : Fin NPROC) : Bool :=
  s.atEase p && (s.log.place p == .outside || s.log.place p == .inside)

def take (s : Store) (p : Fin NPROC) (blockno : Nat) (next : Fin NBUF → Body) :
    Except Halt Store :=
  (s.cache.bget p s.dev blockno).map fun x => { s with cache := x.2, body := next x.1 }

def go (s : Store) (x : Except Halt (Cache Block)) (next : Body) : Except Halt Store :=
  x.map fun c => { s with cache := c, body := next }

def isReady (s : Store) (p : Fin NPROC) (b : Fin NBUF) : Bool :=
  s.cache.stage p b == some .ready

def advance (s : Store) (p : Fin NPROC) (c : CommitAt) : Store :=
  { s with log := s.log.commitStep p c }

def writeLog (s : Store) (p : Fin NPROC) (tail : Nat) : Except Halt Store :=
  match s.body with
  | .top => s.take p (s.start + tail + 1) .one
  | .one b =>
    if s.isReady p b then s.take p (s.log.lh.block tail) (.two b) else .error .blocked
  | .two b b' =>
    if s.isReady p b ∧ s.isReady p b' then
      (s.go (s.cache.modify p b (s.cache.buf b').data) (.copied b b')).map
        fun t => { t with made := t.made + 1 }
    else .error .blocked
  | .copied b b' => s.go (s.cache.bwrite p b) (.written b b')
  | .written b b' => s.go (s.cache.brelse p b') (.last b)
  | .last b => (s.go (s.cache.brelse p b) .top).map fun t => t.advance p (.writeLog tail)
  | .unpinned _ _ | .rest _ => .error .blocked

def installTrans (s : Store) (p : Fin NPROC) (tail : Nat) : Except Halt Store :=
  match s.body with
  | .top => s.take p (s.start + tail + 1) .one
  | .one b =>
    if s.isReady p b then s.take p (s.log.lh.block tail) (.two b) else .error .blocked
  | .two b b' =>
    if s.isReady p b ∧ s.isReady p b' then
      .ok { s with cache := s.cache.put b' (s.cache.buf b).data, body := .copied b b' }
    else .error .blocked
  | .copied b b' => s.go (s.cache.bwrite p b') (.written b b')
  | .written b b' => .ok
    { s with cache := s.cache.bunpin b', body := .unpinned b b', installed := s.installed + 1 }
  | .unpinned b b' => s.go (s.cache.brelse p b) (.last b')
  | .last b => (s.go (s.cache.brelse p b) .top).map fun t => t.advance p (.install tail)
  | .rest _ => .error .blocked

def writeHead (s : Store) (p : Fin NPROC) (c : CommitAt) : Except Halt Store :=
  match s.body with
  | .top => s.take p s.start .one
  | .one b =>
    if s.isReady p b then
      s.go (s.cache.modify p b (putHeader s.log.lh (s.cache.buf b).data)) (.copied b b)
    else .error .blocked
  | .copied b _ => (s.go (s.cache.bwrite p b) (.rest b)).map fun t => t.advance p c
  | .two _ _ | .written _ _ | .unpinned _ _ | .last _ | .rest _ => .error .blocked

def afterHead (s : Store) (p : Fin NPROC) (next : Except Halt Store) : Except Halt Store :=
  match s.body with
  | .rest b => s.go (s.cache.brelse p b) .top
  | .top | .one _ | .two _ _ | .copied _ _ | .written _ _ | .unpinned _ _ | .last _ => next

def commitStep (s : Store) (p : Fin NPROC) : CommitAt → Except Halt Store
  | .enter => .ok (s.advance p .enter)
  | .writeLog tail =>
    if tail < s.log.lh.n then s.writeLog p tail else .ok (s.advance p (.writeLog tail))
  | .writeHead => s.writeHead p .writeHead
  | .install tail => s.afterHead p
    (if tail < s.log.lh.n then s.installTrans p tail else .ok (s.advance p (.install tail)))
  | .clear => .ok { s.advance p .clear with made := 0, installed := 0 }
  | .eraseHead => s.writeHead p .eraseHead
  | .leave => s.afterHead p (.ok (s.advance p .leave))

def logWrite (s : Store) (p : Fin NPROC) (b : Fin NBUF) : Except Halt Store :=
  if s.cache.stage p b = some .ready ∨ s.cache.stage p b = some .dirty then
    (s.log.act (.logWrite p (s.cache.buf b).blockno)).map fun l =>
      { s with
        log := l
        cache := (if l.lh.n = s.log.lh.n then s.cache else s.cache.bpin b).restage p b .ready }
  else .error .blocked

def act (s : Store) : StoreAct → Except Halt Store
  | .bget p dev blockno =>
    if s.runs p then s.withCache ((s.cache.bget p dev blockno).map (·.2)) else .error .blocked
  | .acquiresleep p b => s.withCache (s.cache.acquiresleep p b)
  | .fill p b => s.withCache (s.cache.fill p b)
  | .modify p b x => if s.runs p then s.withCache (s.cache.modify p b x) else .error .blocked
  | .bwrite p b => if s.runs p then s.withCache (s.cache.bwrite p b) else .error .blocked
  | .logWrite p b => if s.runs p then s.logWrite p b else .error .blocked
  | .brelse p b => if s.runs p then s.withCache (s.cache.brelse p b) else .error .blocked
  | .unref p b => s.withCache (s.cache.unref p b)
  | .beginOp p => if s.atEase p then s.withLog (s.log.act (.beginOp p)) else .error .blocked
  | .endOp p => if s.atEase p then s.withLog (s.log.act (.endOp p)) else .error .blocked
  | .kill p => s.withLog (s.log.act (.kill p))
  | .commit p =>
    match s.log.place p with
    | .commit c => if s.atEase p then s.commitStep p c else .error .blocked
    | .outside | .asleep | .woken | .inside => .error .blocked

instance : Inhabited Block := ⟨Block.zero⟩

def boot (dev start : Nat) (size : Int) (disk : Nat → Block) : Store where
  dev := dev
  start := start
  cache := Cache.boot disk
  log := Logger.boot NPROC size
  body := .top
  made := 0
  installed := 0

def pins (s : Store) : List Nat := s.log.lh.blocks.drop s.installed

def InArea (s : Store) (k : Nat) : Prop := s.start ≤ k ∧ (k : Int) < s.start + s.log.size

instance (s : Store) (k : Nat) : Decidable (s.InArea k) := inferInstanceAs (Decidable (_ ∧ _))

def Committed (s : Store) : Prop := ∃ p t, s.log.place p = .commit (.install t)

instance (s : Store) : Decidable s.Committed :=
  decidable_of_iff (∃ p, (match s.log.place p with
    | .commit (.install _) => true
    | _ => false) = true) <| by
    refine exists_congr fun p => ?_
    split
    · rename_i t hp
      exact ⟨fun _ => ⟨t, hp⟩, fun _ => rfl⟩
    · rename_i hp
      constructor
      · exact fun hf => absurd hf Bool.false_ne_true
      · exact fun ⟨t, ht⟩ => absurd ht (hp t)

/-- How the file system uses cache and log: one device, changes only outside the log, and no
direct write of a block the log will install. -/
def Fits (s : Store) : StoreAct → Prop
  | .bget _ dev _ => dev = s.dev
  | .modify _ b _ | .logWrite _ b => ¬ s.InArea (s.cache.buf b).blockno
  | .bwrite _ b => (s.cache.buf b).blockno ∉ s.pins
  | .acquiresleep _ _ | .fill _ _ | .brelse _ _ | .unref _ _ | .beginOp _ | .endOp _ | .kill _
  | .commit _ => True

instance (s : Store) (a : StoreAct) : Decidable (s.Fits a) := by
  cases a <;> unfold Fits <;> infer_instance

end Store

end Xv6Audit.Bio
