import Mathlib

/-! The audit buffer of `kernel/syscall.c`: the tail of `syscall()` after the handler has
returned, as stores into the memory that starts at `buff`. -/
namespace Xv6Audit.Audit
open Function

def BUFFSIZE : Nat := 2048

/-- Memory from `&buff[0]` on; cells from `BUFFSIZE` on belong to whatever comes next. -/
abbrev Mem := Nat → UInt8

def ascii (s : String) : List UInt8 := s.toList.map fun c => UInt8.ofNat c.toNat

def nameFromNum : List String :=
  ["unknown", "fork", "exit", "wait", "pipe", "read", "kill", "exec", "fstat", "chdir", "dup",
   "getpid", "sbrk", "sleep", "uptime", "open", "write", "mknod", "unlink", "link", "mkdir",
   "close", "audit"]

def NUM_SYS_CALLS : Nat := 21
def SYS_audit : Nat := 22

@[ext]
structure ProcName where
  bytes : List UInt8
  noNul : 0 ∉ bytes
  short : bytes.length < 16
deriving DecidableEq

structure Rec where
  name : ProcName
  num : Nat
  fd : Option (Bool × Bool)

def Rec.call (r : Rec) : List UInt8 := ascii (nameFromNum.getD r.num "")

def TAB : UInt8 := 9
def NL : UInt8 := 10

def strncpyBytes : List UInt8 → Nat → List UInt8
  | _, 0 => []
  | [], n+1 => 0 :: strncpyBytes [] n
  | c :: t, n+1 => c :: strncpyBytes t n

def putAt (o : Nat) : List UInt8 → List (Nat × UInt8)
  | [] => []
  | b :: bs => (o, b) :: putAt (o+1) bs

def digit (b : Bool) : UInt8 := if b then 49 else 48

def stores (o : Nat) (r : Rec) : List (Nat × UInt8) :=
  let o1 := o + r.name.bytes.length
  let o2 := o1 + 1
  match r.fd with
  | some (rd, wr) =>
    let o3 := o2 + r.call.length
    let o4 := o3 + 1
    let o5 := o4 + 1
    let o6 := o5 + 2
    putAt o (strncpyBytes r.name.bytes r.name.bytes.length) ++ [(o1, TAB)] ++
      putAt o2 (strncpyBytes r.call r.call.length) ++ [(o3, TAB)] ++ [(o4, digit rd)] ++
      [(o5, TAB), (o5+1, digit wr)] ++ [(o6, NL)]
  | none =>
    -- `offset += strlen(p->name)` after the call's name has been copied
    let o3 := o2 + r.name.bytes.length
    putAt o (strncpyBytes r.name.bytes r.name.bytes.length) ++ [(o1, TAB)] ++
      putAt o2 (strncpyBytes r.call r.call.length) ++ [(o3, NL)]

def advance (r : Rec) : Nat :=
  match r.fd with
  | some _ => r.name.bytes.length + 1 + r.call.length + 1 + 1 + 2 + 1
  | none => r.name.bytes.length + 1 + r.name.bytes.length + 1

def storeAll (m : Mem) (st : List (Nat × UInt8)) : Mem :=
  st.foldl (fun m w => update m w.1 w.2) m

structure AuditBuf where
  buff : Mem
  offset : Nat
  prevTickss : UInt32

/-- The globals the tail of `syscall()` works on; `whitelisted` is the memory from
`&whitelisted[0]` on. -/
structure Logger where
  log : AuditBuf
  whitelisted : Nat → UInt8

structure Call where
  req : Rec
  a0 : UInt32
  tick : UInt32

def maskLoop (wl : Nat → UInt8) (num : UInt32) (i : Nat) : Nat → (Nat → UInt8)
  | 0 => wl
  | k+1 =>
    let wl := update wl i 0
    let wl := if num &&& 1 ≠ 0 then update wl (NUM_SYS_CALLS - i) 1 else wl
    maskLoop wl (num >>> 1) (i+1) k

def maskAfter (wl : Nat → UInt8) (c : Call) : Nat → UInt8 :=
  if c.req.num = SYS_audit then maskLoop wl c.a0 0 NUM_SYS_CALLS else wl

def recorded (wl : Nat → UInt8) (c : Call) : Bool :=
  wl (c.req.num - 1) ≠ 0 || c.req.num == SYS_audit

def flushDue (prev tick : UInt32) : Bool := decide (100 < (tick - prev).toNat)

def cstr (m : Mem) (i : Nat) : Nat → List UInt8
  | 0 => []
  | n+1 => if m i = 0 then [] else m i :: cstr m (i+1) n

def RAMSIZE : Nat := 134217728

def payload (m : Mem) : List UInt8 := cstr m 0 RAMSIZE

def endFlush (s : AuditBuf) (tick : UInt32) : AuditBuf where
  prevTickss := tick
  offset := 0
  buff := update s.buff 0 0

def appendRec (s : AuditBuf) (r : Rec) : AuditBuf :=
  { s with buff := storeAll s.buff (stores s.offset r), offset := s.offset + advance r }

structure Effect where
  flushed : List (List UInt8)
  stored : List Nat

def Effect.append (e f : Effect) : Effect := ⟨e.flushed ++ f.flushed, e.stored ++ f.stored⟩

def logCall (s : AuditBuf) (c : Call) : Effect × AuditBuf :=
  if flushDue s.prevTickss c.tick then
    let s' := endFlush s c.tick
    (⟨[payload s.buff], 0 :: (stores s'.offset c.req).map Prod.fst⟩, appendRec s' c.req)
  else (⟨[], (stores s.offset c.req).map Prod.fst⟩, appendRec s c.req)

def tail (s : Logger) (c : Call) : Effect × Logger :=
  let wl := maskAfter s.whitelisted c
  if recorded wl c then ((logCall s.log c).1, ⟨(logCall s.log c).2, wl⟩)
  else (⟨[], []⟩, ⟨s.log, wl⟩)

def runTails : List Call → Logger → Effect × Logger
  | [], s => (⟨[], []⟩, s)
  | c :: cs, s =>
    (((tail s c).1.append (runTails cs (tail s c).2).1), (runTails cs (tail s c).2).2)

def recordedCalls (wl : Nat → UInt8) : List Call → List Call
  | [] => []
  | c :: cs =>
    if recorded (maskAfter wl c) c then c :: recordedCalls (maskAfter wl c) cs
    else recordedCalls (maskAfter wl c) cs

def bootWhitelist : Nat → UInt8 := fun i => if i < NUM_SYS_CALLS then 1 else 0

def boot (beyond : Mem) : Logger where
  log := ⟨fun i => if i < BUFFSIZE then 0 else beyond i, 0, 0⟩
  whitelisted := bootWhitelist

/-! Recorded calls alone drive the buffer. -/

def runLog : List Call → AuditBuf → Effect × AuditBuf
  | [], s => (⟨[], []⟩, s)
  | c :: cs, s =>
    (((logCall s c).1.append (runLog cs (logCall s c).2).1), (runLog cs (logCall s c).2).2)

theorem runTails_eq_runLog (cs : List Call) (s : Logger) :
    (runTails cs s).1 = (runLog (recordedCalls s.whitelisted cs) s.log).1 := by
  induction cs generalizing s with
  | nil => rfl
  | cons c cs ih =>
    by_cases hr : recorded (maskAfter s.whitelisted c) c = true
    · simp only [runTails, tail, recordedCalls, runLog, hr, if_true, ih]
    · simp only [runTails, tail, recordedCalls, hr, if_false, ih, Effect.append, List.nil_append,
        Bool.false_eq_true]

end Xv6Audit.Audit
