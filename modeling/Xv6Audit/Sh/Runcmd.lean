import Xv6Audit.Sh.Parsecmd
import Xv6Audit.Param
import Mathlib.Logic.Function.Basic

/-! `runcmd` of `user/sh.c`: which files a command opens, and on which descriptors it runs. -/
namespace Xv6Audit.Sh

inductive Desc where
  | given (fd : Nat)
  | file (name : List UInt8) (mode : Nat)
  | pipe (id : Nat) (write : Bool)
deriving DecidableEq

/-- The process that runs a command: its descriptors, the calls of `open` made so far, and the
number of pipes made so far. -/
structure Shell where
  ofile : Nat → Option Desc
  opened : List (List UInt8 × Nat)
  pipes : Nat

namespace Shell

def setFd (p : Shell) (fd : Nat) (d : Option Desc) : Shell :=
  { p with ofile := Function.update p.ofile fd d }

def close (p : Shell) (fd : Nat) : Shell := p.setFd fd none

def fdalloc (p : Shell) (d : Desc) : Option (Nat × Shell) :=
  ((List.range NOFILE).find? fun fd => p.ofile fd = none).map fun fd => (fd, p.setFd fd (some d))

def openFile (ok : List UInt8 → Nat → Bool) (p : Shell) (name : List UInt8) (mode : Nat) :
    Option Shell :=
  if ok name mode then
    (p.fdalloc (.file name mode)).map fun r => { r.2 with opened := r.2.opened ++ [(name, mode)] }
  else none

def dup (p : Shell) (fd : Nat) : Shell :=
  match p.ofile fd with
  | none => p
  | some d => ((p.fdalloc d).map Prod.snd).getD p

def pipe (p : Shell) : Option (Nat × Nat × Shell) := do
  let (fd0, p0) ← p.fdalloc (.pipe p.pipes false)
  let (fd1, p1) ← p0.fdalloc (.pipe p.pipes true)
  pure (fd0, fd1, { p1 with pipes := p1.pipes + 1 })

end Shell

structure Exec where
  argv : List (List UInt8)
  proc : Shell

def runcmd (ok : List UInt8 → Nat → Bool) : Tree → Shell → List Exec
  | .exec argv, p => if argv = [] then [] else [⟨argv, p⟩]
  | .redir cmd file mode fd, p =>
    match (p.close fd).openFile ok file mode with
    | none => []
    | some q => runcmd ok cmd q
  | .list left right, p => runcmd ok left p ++ runcmd ok right p
  | .pipe left right, p =>
    match p.pipe with
    | none => []
    | some (fd0, fd1, q) =>
      runcmd ok left ((((q.close 1).dup fd1).close fd0).close fd1) ++
        runcmd ok right ((((q.close 0).dup fd0).close fd0).close fd1)
  | .back cmd, p => runcmd ok cmd p

/-- A simple command or a block: its tokens, the redirections in the order of the line, and the
command that they stand around. -/
inductive Redirected : List Tok → List Redir → Tree → Prop
  | simple (first : List Redir) (args : List Arg) (hn : args.length ≤ MAXARGS - 1) :
      Redirected (redirToks first ++ argToks args) (first ++ args.flatMap Prod.snd)
        (.exec (args.map Prod.fst))
  | block {l : List Tok} {t : Tree} (rs : List Redir) (hl : Derives .line l t) :
      Redirected (.lparen :: l ++ .rparen :: redirToks rs) rs t

/-- The files are opened in the order of `rs`, and of the redirections of a descriptor the last
one counts. -/
structure LastWins (rs : List Redir) (p q : Shell) : Prop where
  opened : q.opened = p.opened ++ rs.map fun r => (r.file, r.op.mode)
  last : ∀ fd, q.ofile fd = match (rs.filter fun r => r.op.fd = fd).getLast? with
    | some r => some (.file r.file r.op.mode)
    | none => p.ofile fd

section Redirections
variable {p q : Shell} {r : Redir} {rs : List Redir}

def Shell.Std (p : Shell) : Prop := p.ofile 0 ≠ none ∧ p.ofile 1 ≠ none

theorem LastWins.nil (p : Shell) : LastWins [] p p := ⟨by simp, fun _ => rfl⟩

theorem LastWins.concat (h : LastWins rs p q) (r : Redir) :
    LastWins (rs ++ [r]) p { q.setFd r.op.fd (some (.file r.file r.op.mode)) with
      opened := q.opened ++ [(r.file, r.op.mode)] } := by
  refine ⟨?_, fun fd => ?_⟩
  · simp only [h.opened, List.map_append, List.map_cons, List.map_nil, List.append_assoc]
  · rw [List.filter_append]
    by_cases hfd : r.op.fd = fd
    · subst hfd
      simp [Shell.setFd]
    · have hother : (q.setFd r.op.fd (some (.file r.file r.op.mode))).ofile fd = q.ofile fd :=
        Function.update_of_ne (Ne.symm hfd) _ _
      have hnone : [r].filter (fun r => r.op.fd = fd) = [] := by simp [hfd]
      rw [hnone, List.append_nil]
      exact hother.trans (h.last fd)

theorem Shell.Std.fdalloc (h : p.Std) (op : Op) (d : Desc) :
    (p.close op.fd).fdalloc d = some (op.fd, p.setFd op.fd (some d)) := by
  have hset : (p.close op.fd).setFd op.fd (some d) = p.setFd op.fd (some d) := by
    simp [Shell.close, Shell.setFd]
  obtain ⟨h0, h1⟩ := h
  have hfind : ((List.range NOFILE).find? fun fd => (p.close op.fd).ofile fd = none) =
      some op.fd := by
    have hrange : List.range NOFILE = 0 :: 1 :: (List.range NOFILE).drop 2 := by decide
    rw [hrange]
    cases op <;> simp [Shell.close, Shell.setFd, Op.fd, h0]
  rw [Shell.fdalloc, hfind, Option.map_some, hset]

theorem Shell.Std.setFd (h : p.Std) (fd : Nat) (d : Desc) : (p.setFd fd (some d)).Std := by
  refine ⟨?_, ?_⟩ <;> simp only [Shell.setFd, Function.update_apply]
  · split
    · simp
    · exact h.1
  · split
    · simp
    · exact h.2

/-- The files are opened from the outermost redirection inwards, so the last of the line comes
first. -/
theorem runcmd_wrap (rs : List Redir) (t : Tree) (h : p.Std) : ∃ q, LastWins rs.reverse p q ∧ q.Std ∧
    runcmd (fun _ _ => true) (wrap t rs) p = runcmd (fun _ _ => true) t q := by
  induction rs generalizing t with
  | nil => exact ⟨p, LastWins.nil p, h, rfl⟩
  | cons r rs ih =>
    obtain ⟨q, hq, hstd, hrun⟩ := ih (redirect t r)
    rw [List.reverse_cons]
    refine ⟨_, hq.concat r, hstd.setFd _ _, ?_⟩
    have hopen : (q.close r.op.fd).openFile (fun _ _ => true) r.file r.op.mode =
        some { q.setFd r.op.fd (some (.file r.file r.op.mode)) with
          opened := q.opened ++ [(r.file, r.op.mode)] } := by
      rw [Shell.openFile, if_pos rfl, hstd.fdalloc]
      rfl
    change runcmd _ (wrap (redirect t r) rs) p = _
    rw [hrun, redirect, runcmd, hopen]

end Redirections

theorem Redirected.derives {ts : List Tok} {rs : List Redir} {core : Tree}
    (h : Redirected ts rs core) : Derives .line ts (wrap core rs) := by
  have hexec : Derives .exec ts (wrap core rs) := by
    cases h with
    | simple first args hn => exact .simple first args hn
    | block rs hl => exact .block rs hl
  have hline := Derives.line 0 (.single hexec)
  rw [List.replicate_zero, List.append_nil] at hline
  exact hline

theorem Op.mode_injective : Function.Injective Op.mode := by
  intro a b
  cases a <;> cases b <;> decide

theorem Redir.openArgs_injective :
    Function.Injective fun r : Redir => (r.file, r.op.mode) := by
  rintro ⟨op, file⟩ ⟨op', file'⟩ h
  obtain ⟨rfl, hmode⟩ := Prod.mk.inj h
  obtain rfl := Op.mode_injective hmode
  rfl

/-- The order in which the files are opened is that of the line only if it is its own reverse. -/
theorem LastWins.reverse_iff {p q : Shell} {rs : List Redir} (h : LastWins rs.reverse p q) :
    LastWins rs p q ↔ rs.reverse = rs := by
  constructor
  · intro h'
    have hmap := List.append_cancel_left (h.opened.symm.trans h'.opened)
    exact Redir.openArgs_injective.list_map hmap
  · intro hrev
    rw [hrev] at h
    exact h

/-- A command with redirections `rs` runs as its core does in a process that has met them from the
last to the first; it has opened the files in the order of the line, and runs with descriptors 0
and 1 on the files of the last redirections, exactly if they read the same backwards. -/
theorem last_redirection_wins (s : List UInt8) (h0 : 0 ∉ s) {rs : List Redir} {core : Tree}
    (hline : Redirected (tokens s) rs core) (p : Shell) (hp : p.Std) :
    ∃ cmd buf i q, parsecmd s 0 = (.ok (cmd, buf), i) ∧
      runcmd (fun _ _ => true) (cmd.map (cstring buf)) p = runcmd (fun _ _ => true) core q ∧
      LastWins rs.reverse p q ∧ (LastWins rs p q ↔ rs.reverse = rs) := by
  obtain ⟨⟨cmd, buf⟩, i, hrun, hbuf, hr⟩ | ⟨_, _, _, he⟩ :=
    Prog.wp_cases (parsecmd_ok h0 hline.derives)
  · obtain rfl : buf = nulterminate cmd (s ++ [0]) := hbuf
    obtain ⟨q, hq, -, hexec⟩ := runcmd_wrap rs core hp
    refine ⟨cmd, _, i, q, hrun, ?_, hq, hq.reverse_iff⟩
    rw [map_cstring h0 hr.spans, hr.map_text, hexec]
  · exact he.elim

def console : Shell := ⟨fun fd => if fd < 3 then some (.given fd) else none, [], 0⟩

def oneRedir : List UInt8 := [97, 60, 98, 32, 99]

theorem last_redirection_wins_one : ∃ cmd buf i q, parsecmd oneRedir 0 = (.ok (cmd, buf), i) ∧
    runcmd (fun _ _ => true) (cmd.map (cstring buf)) console = [⟨[[97], [99]], q⟩] ∧
    LastWins [⟨.lt, [98]⟩] console q := by
  have htoks : tokens oneRedir =
      redirToks [] ++ argToks [([97], [⟨.lt, [98]⟩]), ([99], [])] := by decide +kernel
  have hline : Redirected (tokens oneRedir) [⟨.lt, [98]⟩] (.exec [[97], [99]]) := by
    rw [htoks]
    exact .simple [] _ (by decide)
  obtain ⟨cmd, buf, i, q, hparse, hrun, -, hiff⟩ :=
    last_redirection_wins oneRedir (by decide) hline console ⟨by decide, by decide⟩
  exact ⟨cmd, buf, i, q, hparse, hrun, hiff.mpr rfl⟩

def twoRedirs : List UInt8 := [120, 62, 97, 62, 98]

/-- Of two redirections the file of the last one, `b`, is opened first, and the command runs with
its output in the file of the first one, `a`. -/
theorem first_redirection_wins :
    Redirected (tokens twoRedirs) [⟨.gt, [97]⟩, ⟨.gt, [98]⟩] (.exec [[120]]) ∧ console.Std ∧
    ∃ cmd buf i q, parsecmd twoRedirs 0 = (.ok (cmd, buf), i) ∧
      runcmd (fun _ _ => true) (cmd.map (cstring buf)) console = [⟨[[120]], q⟩] ∧
      q.opened = [([98], 0x601), ([97], 0x601)] ∧ q.ofile 1 = some (.file [97] 0x601) := by
  have htoks : tokens twoRedirs =
      redirToks [] ++ argToks [([120], [⟨.gt, [97]⟩, ⟨.gt, [98]⟩])] := by decide +kernel
  have hrun : (parsecmd twoRedirs 0).1.toOption.map (fun r =>
      (runcmd (fun _ _ => true) (r.1.map (cstring r.2)) console).map fun e =>
        decide (e.argv = [[120]] ∧ e.proc.opened = [([98], 0x601), ([97], 0x601)] ∧
          e.proc.ofile 1 = some (.file [97] 0x601))) = some [true] := by decide +kernel
  obtain ⟨⟨cmd, buf⟩, hok, hexec⟩ := Option.map_eq_some_iff.mp hrun
  obtain ⟨⟨argv, q⟩, hone, he⟩ := List.map_eq_singleton_iff.mp hexec
  obtain ⟨rfl, hopened, hfile⟩ := of_decide_eq_true he
  refine ⟨?_, ⟨by decide, by decide⟩, cmd, buf, _, q, Prod.ext (Prog.toOption_eq_some hok) rfl,
    hone, hopened, hfile⟩
  rw [htoks]
  exact .simple [] _ (by decide)

end Xv6Audit.Sh
