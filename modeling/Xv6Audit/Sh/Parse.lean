import Xv6Audit.Lib.Prog
import Xv6Audit.Param

/-! The parser of `user/sh.c` on a command string, which is followed by its NUL. The state is
the cursor `*ps`; a read behind the NUL is a fault. -/
namespace Xv6Audit.Sh

open Prog

def MAXARGS : Nat := 10

inductive Cmd (α : Type) where
  | exec (argv : List α)
  | redir (cmd : Cmd α) (file : α) (mode fd : Nat)
  | pipe (left right : Cmd α)
  | list (left right : Cmd α)
  | back (cmd : Cmd α)
deriving DecidableEq

namespace Cmd
variable {α β : Type}

def map (f : α → β) : Cmd α → Cmd β
  | exec argv => exec (argv.map f)
  | redir cmd file mode fd => redir (cmd.map f) (f file) mode fd
  | pipe left right => pipe (left.map f) (right.map f)
  | list left right => list (left.map f) (right.map f)
  | back cmd => back (cmd.map f)

def addArg (w : α) : Cmd α → Cmd α
  | exec argv => exec (argv ++ [w])
  | redir cmd file mode fd => redir (cmd.addArg w) file mode fd
  | cmd => cmd

end Cmd

structure Span where
  q : Nat
  eq : Nat
deriving DecidableEq

inductive Stop where
  | panic (msg : String)
  | fault
  | fuel
deriving DecidableEq

abbrev Parse := Prog Nat Stop

def BAR : UInt8 := 124
def LPAREN : UInt8 := 40
def RPAREN : UInt8 := 41
def SEMI : UInt8 := 59
def AMP : UInt8 := 38
def LT : UInt8 := 60
def GT : UInt8 := 62

def whitespace : List UInt8 := [32, 9, 13, 10, 11]
def symbols : List UInt8 := [LT, BAR, GT, AMP, SEMI, LPAREN, RPAREN]

def strchr (s : List UInt8) (c : UInt8) : Bool := c ∈ s

def load (s : List UInt8) (i : Nat) : Parse UInt8 :=
  if i < s.length then pure (s.getD i 0) else if i = s.length then pure 0 else throw .fault

def scan (s : List UInt8) (p : UInt8 → Bool) : Nat → Nat → Parse Nat
  | 0, _ => throw .fuel
  | fuel+1, i =>
    if i < s.length then do
      let c ← load s i
      if p c then scan s p fuel (i + 1) else pure i
    else pure i

def skip (s : List UInt8) (i : Nat) : Parse Nat := scan s (strchr whitespace) (s.length + 1) i

def isWord (c : UInt8) : Bool := !strchr whitespace c && !strchr symbols c

structure Token where
  ret : UInt8
  word : Span

def PLUS : UInt8 := 43
def WORD : UInt8 := 97

def token (s : List UInt8) (i : Nat) : Parse (UInt8 × Nat) := do
  let c ← load s i
  if c = 0 then pure (0, i)
  else if c = BAR ∨ c = LPAREN ∨ c = RPAREN ∨ c = SEMI ∨ c = AMP ∨ c = LT then pure (c, i + 1)
  else if c = GT then do
    let d ← load s (i + 1)
    if d = GT then pure (PLUS, i + 2) else pure (GT, i + 1)
  else do
    let j ← scan s isWord (s.length + 1) i
    pure (WORD, j)

def gettoken (s : List UInt8) : Parse Token := do
  let q ← skip s (← get)
  let (ret, eq) ← token s q
  set (← skip s eq)
  pure ⟨ret, q, eq⟩

def peek (s : List UInt8) (toks : List UInt8) : Parse Bool := do
  let i ← skip s (← get)
  set i
  let c ← load s i
  pure (c ≠ 0 && strchr toks c)

def redircmd (tok : UInt8) (cmd : Cmd Span) (file : Span) : Cmd Span :=
  if tok = LT then .redir cmd file O_RDONLY 0
  else if tok = GT then .redir cmd file (O_WRONLY + O_CREATE + O_TRUNC) 1
  else if tok = PLUS then .redir cmd file (O_WRONLY + O_CREATE) 1
  else cmd

def parseredirs (s : List UInt8) : Nat → Cmd Span → Parse (Cmd Span)
  | 0, _ => throw .fuel
  | fuel+1, cmd => do
    if ← peek s [LT, GT] then do
      let tok ← gettoken s
      let file ← gettoken s
      if file.ret = WORD then parseredirs s fuel (redircmd tok.ret cmd file.word)
      else throw (.panic "missing file for redirection")
    else pure cmd

def parseargs (s : List UInt8) : Nat → Nat → Cmd Span → Parse (Cmd Span)
  | 0, _, _ => throw .fuel
  | fuel+1, argc, ret => do
    if ← peek s [BAR, RPAREN, AMP, SEMI] then pure ret
    else do
      let tok ← gettoken s
      if tok.ret = 0 then pure ret
      else if tok.ret = WORD then
        if MAXARGS ≤ argc + 1 then throw (.panic "too many args")
        else do
          let ret ← parseredirs s (s.length + 1) (ret.addArg tok.word)
          parseargs s fuel (argc + 1) ret
      else throw (.panic "syntax")

def parseback (s : List UInt8) : Nat → Cmd Span → Parse (Cmd Span)
  | 0, _ => throw .fuel
  | fuel+1, cmd => do
    if ← peek s [AMP] then do
      let _ ← gettoken s
      parseback s fuel (.back cmd)
    else pure cmd

mutual

def parseline (s : List UInt8) : Nat → Parse (Cmd Span)
  | 0 => throw .fuel
  | fuel+1 => do
    let cmd ← parsepipe s fuel
    let cmd ← parseback s (s.length + 1) cmd
    if ← peek s [SEMI] then do
      let _ ← gettoken s
      let right ← parseline s fuel
      pure (.list cmd right)
    else pure cmd

def parsepipe (s : List UInt8) : Nat → Parse (Cmd Span)
  | 0 => throw .fuel
  | fuel+1 => do
    let cmd ← parseexec s fuel
    if ← peek s [BAR] then do
      let _ ← gettoken s
      let right ← parsepipe s fuel
      pure (.pipe cmd right)
    else pure cmd

def parseexec (s : List UInt8) : Nat → Parse (Cmd Span)
  | 0 => throw .fuel
  | fuel+1 => do
    if ← peek s [LPAREN] then parseblock s fuel
    else do
      let ret ← parseredirs s (s.length + 1) (.exec [])
      parseargs s (s.length + 1) 0 ret

def parseblock (s : List UInt8) : Nat → Parse (Cmd Span)
  | 0 => throw .fuel
  | fuel+1 => do
    if ← peek s [LPAREN] then do
      let _ ← gettoken s
      let cmd ← parseline s fuel
      if ← peek s [RPAREN] then do
        let _ ← gettoken s
        parseredirs s (s.length + 1) cmd
      else throw (.panic "syntax - missing )")
    else throw (.panic "parseblock")

end

def Cmd.ends : Cmd Span → List Nat
  | .exec argv => argv.map Span.eq
  | .redir cmd file _ _ => cmd.ends ++ [file.eq]
  | .pipe left right => left.ends ++ right.ends
  | .list left right => left.ends ++ right.ends
  | .back cmd => cmd.ends

def nulterminate (cmd : Cmd Span) (buf : List UInt8) : List UInt8 :=
  cmd.ends.foldl (fun buf e => buf.set e 0) buf

def parsecmd (s : List UInt8) : Parse (Cmd Span × List UInt8) := do
  let cmd ← parseline s (4 * s.length + 4)
  let _ ← peek s []
  if (← get) = s.length then pure (cmd, nulterminate cmd (s ++ [0]))
  else throw (.panic "syntax")

def cstring (buf : List UInt8) (w : Span) : List UInt8 := (buf.drop w.q).takeWhile (· ≠ 0)

end Xv6Audit.Sh
