import Xv6Audit.Sh.Lex

/-! The shell's grammar with the trees of its derivations, and what the commands built by the
parser say about the string. -/
namespace Xv6Audit.Sh

abbrev Tree := Cmd (List UInt8)

inductive Op where
  | lt | gt | append
deriving DecidableEq

namespace Op

def tok : Op → Tok
  | lt => .lt
  | gt => .gt
  | append => .append

def mode : Op → Nat
  | lt => O_RDONLY
  | gt => O_WRONLY + O_CREATE + O_TRUNC
  | append => O_WRONLY + O_CREATE

def fd : Op → Nat
  | lt => 0
  | _ => 1

end Op

structure Redir where
  op : Op
  file : List UInt8

def redirToks (rs : List Redir) : List Tok := rs.flatMap fun r => [r.op.tok, .word r.file]

abbrev Arg := List UInt8 × List Redir

def argToks (args : List Arg) : List Tok := args.flatMap fun a => .word a.1 :: redirToks a.2

def redirect (t : Tree) (r : Redir) : Tree := .redir t r.file r.op.mode r.op.fd

def wrap (t : Tree) (rs : List Redir) : Tree := rs.foldl redirect t

def simpleTree (first : List Redir) (args : List Arg) : Tree :=
  wrap (.exec (args.map Prod.fst)) (first ++ args.flatMap Prod.snd)

def backs : Nat → Tree → Tree
  | 0, t => t
  | n+1, t => backs n (.back t)

inductive NonTerm where
  | line | pipe | exec

inductive Derives : NonTerm → List Tok → Tree → Prop
  /-- `line ::= pipe '&'*` -/
  | line {p : List Tok} {t : Tree} (n : Nat) (hp : Derives .pipe p t) :
      Derives .line (p ++ List.replicate n .amp) (backs n t)
  /-- `line ::= pipe '&'* ';' line` -/
  | list {p l : List Tok} {t u : Tree} (n : Nat) (hp : Derives .pipe p t)
      (hl : Derives .line l u) :
      Derives .line (p ++ List.replicate n .amp ++ .semi :: l) (.list (backs n t) u)
  /-- `pipe ::= exec` -/
  | single {e : List Tok} {t : Tree} (he : Derives .exec e t) : Derives .pipe e t
  /-- `pipe ::= exec '|' pipe` -/
  | pipe {e p : List Tok} {t u : Tree} (he : Derives .exec e t) (hp : Derives .pipe p u) :
      Derives .pipe (e ++ .bar :: p) (.pipe t u)
  /-- `exec ::= '(' line ')' redir*` -/
  | block {l : List Tok} {t : Tree} (rs : List Redir) (hl : Derives .line l t) :
      Derives .exec (.lparen :: l ++ .rparen :: redirToks rs) (wrap t rs)
  /-- `exec ::= redir* (word redir*)*` -/
  | simple (first : List Redir) (args : List Arg) (hn : args.length ≤ MAXARGS - 1) :
      Derives .exec (redirToks first ++ argToks args) (simpleTree first args)

section Trees

theorem addArg_wrap (w : List UInt8) (t : Tree) (rs : List Redir) :
    (wrap t rs).addArg w = wrap (t.addArg w) rs := by
  induction rs generalizing t with
  | nil => rfl
  | cons r rs ih => exact ih (redirect t r)

theorem simpleTree_concat (first : List Redir) (args : List Arg) (w : List UInt8)
    (rs : List Redir) :
    wrap ((simpleTree first args).addArg w) rs = simpleTree first (args ++ [(w, rs)]) := by
  rw [simpleTree, addArg_wrap, simpleTree]
  simp [wrap, Cmd.addArg, List.foldl_append]

end Trees

namespace Cmd
variable {α β : Type}

def All (p : α → Prop) : Cmd α → Prop
  | exec argv => ∀ w ∈ argv, p w
  | redir cmd file _ _ => cmd.All p ∧ p file
  | pipe left right => left.All p ∧ right.All p
  | list left right => left.All p ∧ right.All p
  | back cmd => cmd.All p

theorem All.addArg {p : α → Prop} {c : Cmd α} {w : α} (h : c.All p) (hw : p w) :
    (c.addArg w).All p := by
  induction c with
  | exec argv =>
    intro v hv
    rcases List.mem_append.mp hv with hv | hv
    · exact h v hv
    · exact List.mem_singleton.mp hv ▸ hw
  | redir c file mode fd ih => exact ⟨ih h.1, h.2⟩
  | pipe | list | back => exact h

theorem map_addArg (f : α → β) (c : Cmd α) (w : α) : (c.addArg w).map f = (c.map f).addArg (f w) := by
  induction c with
  | exec argv => simp [addArg, map]
  | redir c file mode fd ih => simp [addArg, map, ih]
  | pipe | list | back => rfl

theorem All.map_eq {p : α → Prop} {f g : α → β} {c : Cmd α} (h : c.All p)
    (hfg : ∀ w, p w → f w = g w) : c.map f = c.map g := by
  induction c with
  | exec argv => rw [map, map, List.map_congr_left fun w hw => hfg w (h w hw)]
  | redir c file mode fd ih => rw [map, map, ih h.1, hfg file h.2]
  | pipe l r ihl ihr | list l r ihl ihr => rw [map, map, ihl h.1, ihr h.2]
  | back c ih => rw [map, map, ih h]

end Cmd

structure Reads (s : List UInt8) (c : Cmd Span) (t : Tree) : Prop where
  spans : c.All (IsSpan s)
  map_text : c.map (text s) = t

namespace Reads
variable {s : List UInt8} {c d : Cmd Span} {t u : Tree} {w : Span} {x : List UInt8}

theorem addArg (h : Reads s c t) (hw : IsSpan s w) (hx : text s w = x) :
    Reads s (c.addArg w) (t.addArg x) where
  spans := h.spans.addArg hw
  map_text := by rw [Cmd.map_addArg, h.map_text, hx]

theorem redircmd (op : Op) (h : Reads s c t) (hw : IsSpan s w) (hx : text s w = x) :
    Reads s (redircmd op.tok.code c w) (redirect t ⟨op, x⟩) := by
  subst hx
  cases op <;> exact ⟨⟨h.spans, hw⟩, congrArg (Cmd.redir · _ _ _) h.map_text⟩

theorem pipe (h : Reads s c t) (h' : Reads s d u) : Reads s (.pipe c d) (.pipe t u) :=
  ⟨⟨h.spans, h'.spans⟩, by rw [Cmd.map, h.map_text, h'.map_text]⟩

theorem list (h : Reads s c t) (h' : Reads s d u) : Reads s (.list c d) (.list t u) :=
  ⟨⟨h.spans, h'.spans⟩, by rw [Cmd.map, h.map_text, h'.map_text]⟩

theorem back (h : Reads s c t) : Reads s (.back c) (.back t) :=
  ⟨h.spans, by rw [Cmd.map, h.map_text]⟩

end Reads

section Tokens

theorem code_ne_zero (k : Tok) : k.code ≠ 0 := by
  have hcodes : ∀ c ∈ [WORD, BAR, LPAREN, RPAREN, SEMI, AMP, LT, GT, PLUS], c ≠ 0 := by
    decide +kernel
  cases k <;> exact hcodes _ (by simp [Tok.code])

theorem code_eq_word {k : Tok} (h : k.code = WORD) : ∃ x, k = .word x := by
  cases k with
  | word x => exact ⟨x, rfl⟩
  | _ => exact absurd h (by decide)

theorem op_of_starts {ts : List Tok} (h : starts [LT, GT] ts = true) :
    ∃ (op : Op) (us : List Tok), ts = op.tok :: us := by
  cases ts with
  | nil => simp [starts] at h
  | cons k us =>
    rw [starts] at h
    cases k with
    | lt => exact ⟨.lt, us, rfl⟩
    | gt => exact ⟨.gt, us, rfl⟩
    | append => exact ⟨.append, us, rfl⟩
    | word x => simp [Tok.lead] at h
    | _ => exact absurd h (by decide)

theorem of_starts {k : Tok} {ts : List Tok} (hk : k ∈ [Tok.amp, .semi, .bar, .lparen, .rparen])
    (h : starts [k.code] ts = true) : ∃ us, ts = k :: us := by
  cases ts with
  | nil => simp [starts] at h
  | cons j us =>
    have hl : j.lead = some k.code := by
      simpa [starts, Option.any_eq_true] using h
    have hinj : ∀ k ∈ [Tok.amp, .semi, .bar, .lparen, .rparen],
        ∀ j ∈ [Tok.bar, .lparen, .rparen, .semi, .amp, .lt, .gt, .append],
          j.lead = some k.code → j = k := by decide
    refine ⟨us, congrArg (· :: us) ?_⟩
    cases j with
    | word x => simp [Tok.lead] at hl
    | _ => exact hinj k hk _ (by decide) hl

end Tokens

end Xv6Audit.Sh
