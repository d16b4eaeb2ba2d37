import Xv6Audit.Sh.Grammar

/-! The parser accepts the grammar: what it consumes is derived from its nonterminal, and it
consumes every derivation that stands before something that may follow it. -/
namespace Xv6Audit.Sh

open Prog

def syntaxErrors : List String :=
  ["syntax", "missing file for redirection", "too many args", "syntax - missing )"]

def SyntaxError (e : Stop) (_ : Nat) : Prop := ∃ msg ∈ syntaxErrors, e = .panic msg

variable {s : List UInt8} {i fuel : Nat} {ts : List Tok} {c : Cmd Span} {t : Tree}

structure Rest (s : List UInt8) (j : Nat) (ts us vs : List Tok) : Prop where
  split : ts = us ++ vs
  pos : At s j vs

section Consumed

section
variable (h0 : 0 ∉ s)
include h0

theorem wp_take {k : Tok} {E : Stop → Nat → Prop} (h : At s i (k :: ts)) :
    wp (gettoken s) (fun r j => At s j ts ∧ r.ret = k.code) E i := by
  refine wp_post (wp_gettoken h0 h) ?_
  rintro r j ⟨us, hus, hret, rfl, -⟩
  exact ⟨hus, hret⟩

theorem wp_takeWord {x : List UInt8} {E : Stop → Nat → Prop} (h : At s i (.word x :: ts)) :
    wp (gettoken s)
      (fun r j => At s j ts ∧ r.ret = WORD ∧ IsSpan s r.word ∧ text s r.word = x) E i := by
  refine wp_post (wp_gettoken h0 h) ?_
  rintro r j ⟨us, hus, hret, rfl, hspan⟩
  exact ⟨hus, hret, hspan x rfl⟩

theorem wp_parseredirs (hf : ts.length < fuel) (h : At s i ts) (hc : Reads s c t) :
    wp (parseredirs s fuel c)
      (fun c' j => ∃ rs vs, Rest s j ts (redirToks rs) vs ∧ Reads s c' (wrap t rs))
      SyntaxError i := by
  induction fuel generalizing i ts c t with
  | zero => omega
  | succ fuel ih =>
    rw [parseredirs, wp_bind]
    refine wp_post (wp_peek h0 h (by simp [symbols])) ?_
    rintro b j ⟨hj, rfl, -⟩
    rw [wp_ite]
    refine ⟨fun hb => ?_, fun _ => ⟨[], ts, ⟨rfl, hj⟩, hc⟩⟩
    obtain ⟨op, us, rfl⟩ := op_of_starts hb
    rw [wp_bind]
    refine wp_post (wp_take h0 hj) ?_
    rintro r k ⟨hk, hret⟩
    rw [wp_bind]
    refine wp_post (wp_gettoken h0 hk) ?_
    rintro file l ⟨vs, hl, htook⟩
    rw [wp_ite]
    refine ⟨fun hw => ?_, fun _ => ⟨_, by decide, rfl⟩⟩
    cases us with
    | nil => exact absurd (htook.1.symm.trans hw) (by decide)
    | cons k' us =>
      obtain ⟨hfile, rfl, hspan⟩ := htook
      obtain ⟨x, rfl⟩ := code_eq_word (hfile.symm.trans hw)
      obtain ⟨hx, htext⟩ := hspan x rfl
      rw [hret]
      refine wp_post (ih (by simp at hf ⊢; omega) hl (hc.redircmd op hx htext)) ?_
      rintro c' m ⟨rs, ws, ⟨rfl, hm⟩, hr⟩
      exact ⟨⟨op, x⟩ :: rs, ws, ⟨by simp [redirToks], hm⟩, hr⟩

theorem wp_parseargs (first : List Redir) (args : List Arg) (hf : ts.length < fuel)
    (hn : args.length ≤ MAXARGS - 1) (h : At s i ts) (hc : Reads s c (simpleTree first args)) :
    wp (parseargs s fuel args.length c)
      (fun c' j => ∃ more vs, Rest s j ts (argToks more) vs ∧
        (args ++ more).length ≤ MAXARGS - 1 ∧ Reads s c' (simpleTree first (args ++ more)))
      SyntaxError i := by
  induction fuel generalizing i ts c args with
  | zero => omega
  | succ fuel ih =>
    rw [parseargs, wp_bind]
    refine wp_post (wp_peek h0 h (by simp [symbols])) ?_
    rintro b j ⟨hj, rfl, -⟩
    rw [wp_ite]
    have hdone : (args ++ []).length ≤ MAXARGS - 1 ∧ Reads s c (simpleTree first (args ++ [])) := by
      rw [List.append_nil]
      exact ⟨hn, hc⟩
    refine ⟨fun _ => ⟨[], ts, ⟨rfl, hj⟩, hdone⟩, fun _ => ?_⟩
    rw [wp_bind]
    refine wp_post (wp_gettoken h0 hj) ?_
    rintro tok k ⟨us, hk, htook⟩
    cases ts with
    | nil =>
      obtain ⟨hret, rfl⟩ := htook
      rw [if_pos hret]
      exact ⟨[], [], ⟨rfl, hk⟩, hdone⟩
    | cons a ts =>
      obtain ⟨hret, rfl, hspan⟩ := htook
      rw [if_neg (hret ▸ code_ne_zero a), wp_ite]
      refine ⟨fun hw => ?_, fun _ => ⟨_, by decide, rfl⟩⟩
      obtain ⟨x, rfl⟩ := code_eq_word (hret.symm.trans hw)
      obtain ⟨hx, htext⟩ := hspan x rfl
      rw [wp_ite]
      refine ⟨fun _ => ⟨_, by decide, rfl⟩, fun hlt => ?_⟩
      rw [wp_bind]
      refine wp_post (wp_parseredirs h0 (Nat.lt_succ_of_le hk.length_le) hk
        (hc.addArg hx htext)) ?_
      rintro c' l ⟨rs, vs, ⟨rfl, hl⟩, hr⟩
      rw [simpleTree_concat] at hr
      have hlen : (args ++ [(x, rs)]).length = args.length + 1 := by simp
      rw [← hlen] at hlt ⊢
      refine wp_post (ih (args ++ [(x, rs)]) (by simp at hf ⊢; omega) (by omega) hl hr) ?_
      rintro c'' m ⟨more, ws, ⟨rfl, hm⟩, hmore, hr'⟩
      rw [List.append_assoc] at hmore hr'
      exact ⟨(x, rs) :: more, ws, ⟨by simp [argToks], hm⟩, hmore, hr'⟩

theorem wp_parseback (hf : ts.length < fuel) (h : At s i ts) (hc : Reads s c t) :
    wp (parseback s fuel c)
      (fun c' j => ∃ n vs, Rest s j ts (List.replicate n .amp) vs ∧ Reads s c' (backs n t))
      SyntaxError i := by
  induction fuel generalizing i ts c t with
  | zero => omega
  | succ fuel ih =>
    rw [parseback, wp_bind]
    refine wp_post (wp_peek h0 h (by simp [symbols])) ?_
    rintro b j ⟨hj, rfl, -⟩
    rw [wp_ite]
    refine ⟨fun hb => ?_, fun _ => ⟨0, ts, ⟨rfl, hj⟩, hc⟩⟩
    obtain ⟨us, rfl⟩ := of_starts (k := .amp) (by decide) hb
    rw [wp_bind]
    refine wp_post (wp_take h0 hj) ?_
    rintro r k ⟨hk, -⟩
    refine wp_post (ih (by simp at hf; omega) hk hc.back) ?_
    rintro c' l ⟨n, vs, ⟨rfl, hl⟩, hr⟩
    exact ⟨n + 1, vs, ⟨rfl, hl⟩, hr⟩

end

def parser (s : List UInt8) : NonTerm → Nat → Parse (Cmd Span)
  | .line => parseline s
  | .pipe => parsepipe s
  | .exec => parseexec s

def NonTerm.rank : NonTerm → Nat
  | .line => 3
  | .pipe => 2
  | .exec => 1

def Sound (s : List UInt8) (nt : NonTerm) (fuel : Nat) : Prop :=
  ∀ i ts, At s i ts → 4 * ts.length + nt.rank ≤ fuel →
    wp (parser s nt fuel)
      (fun c j => ∃ us vs t, Rest s j ts us vs ∧ Derives nt us t ∧ Reads s c t) SyntaxError i

section
variable (h0 : 0 ∉ s)
include h0

theorem Sound.line (hp : Sound s .pipe fuel) (hl : Sound s .line fuel) :
    Sound s .line (fuel + 1) := by
  intro i ts h hf
  simp only [NonTerm.rank] at hf
  rw [parser, parseline, wp_bind]
  refine wp_post (hp i ts h (by simp only [NonTerm.rank]; omega)) ?_
  rintro c j ⟨us, vs, t, ⟨rfl, hj⟩, hd, hr⟩
  rw [wp_bind]
  refine wp_post (wp_parseback h0 (Nat.lt_succ_of_le hj.length_le) hj hr) ?_
  rintro c' k ⟨n, ws, ⟨rfl, hk⟩, hr'⟩
  rw [wp_bind]
  refine wp_post (wp_peek h0 hk (by simp [symbols])) ?_
  rintro b l ⟨hl', rfl, -⟩
  rw [wp_ite]
  refine ⟨fun hb => ?_, fun _ => ?_⟩
  · obtain ⟨xs, rfl⟩ := of_starts (k := .semi) (by decide) hb
    rw [wp_bind]
    refine wp_post (wp_take h0 hl') ?_
    rintro r m ⟨hm, -⟩
    rw [wp_bind]
    simp only [List.length_append, List.length_cons] at hf
    refine wp_post (hl m xs hm (by simp only [NonTerm.rank]; omega)) ?_
    rintro d o ⟨us', vs', u, ⟨rfl, ho⟩, hd', hu⟩
    exact ⟨_, vs', _, ⟨by simp, ho⟩, .list n hd hd', hr'.list hu⟩
  · exact ⟨_, ws, _, ⟨by simp, hl'⟩, .line n hd, hr'⟩

theorem Sound.pipe (he : Sound s .exec fuel) (hp : Sound s .pipe fuel) :
    Sound s .pipe (fuel + 1) := by
  intro i ts h hf
  simp only [NonTerm.rank] at hf
  rw [parser, parsepipe, wp_bind]
  refine wp_post (he i ts h (by simp only [NonTerm.rank]; omega)) ?_
  rintro c j ⟨us, vs, t, ⟨rfl, hj⟩, hd, hr⟩
  rw [wp_bind]
  refine wp_post (wp_peek h0 hj (by simp [symbols])) ?_
  rintro b k ⟨hk, rfl, -⟩
  rw [wp_ite]
  refine ⟨fun hb => ?_, fun _ => ⟨us, vs, t, ⟨rfl, hk⟩, .single hd, hr⟩⟩
  obtain ⟨xs, rfl⟩ := of_starts (k := .bar) (by decide) hb
  rw [wp_bind]
  refine wp_post (wp_take h0 hk) ?_
  rintro r m ⟨hm, -⟩
  rw [wp_bind]
  simp only [List.length_append, List.length_cons] at hf
  refine wp_post (hp m xs hm (by simp only [NonTerm.rank]; omega)) ?_
  rintro d o ⟨us', vs', u, ⟨rfl, ho⟩, hd', hu⟩
  exact ⟨_, vs', _, ⟨by simp, ho⟩, .pipe hd hd', hr.pipe hu⟩

theorem wp_parseblock (hl : Sound s .line fuel) (h : At s i (.lparen :: ts))
    (hf : 4 * ts.length + 3 ≤ fuel) :
    wp (parseblock s (fuel + 1))
      (fun c j => ∃ us vs t, Rest s j (.lparen :: ts) us vs ∧ Derives .exec us t ∧ Reads s c t)
      SyntaxError i := by
  rw [parseblock, wp_bind]
  refine wp_post (wp_peek h0 h (by simp [symbols])) ?_
  rintro b j ⟨hj, rfl, -⟩
  rw [if_pos (by rfl), wp_bind]
  refine wp_post (wp_take h0 hj) ?_
  rintro r k ⟨hk, -⟩
  rw [wp_bind]
  refine wp_post (hl k ts hk hf) ?_
  rintro c l ⟨us, vs, t, ⟨rfl, hl'⟩, hd, hr⟩
  rw [wp_bind]
  refine wp_post (wp_peek h0 hl' (by simp [symbols])) ?_
  rintro b m ⟨hm, rfl, -⟩
  rw [wp_ite]
  refine ⟨fun hb => ?_, fun _ => ⟨_, by decide, rfl⟩⟩
  obtain ⟨xs, rfl⟩ := of_starts (k := .rparen) (by decide) hb
  rw [wp_bind]
  refine wp_post (wp_take h0 hm) ?_
  rintro r' n ⟨hn, -⟩
  refine wp_post (wp_parseredirs h0 (Nat.lt_succ_of_le hn.length_le) hn hr) ?_
  rintro d o ⟨rs, ws, ⟨rfl, ho⟩, hrs⟩
  exact ⟨_, ws, _, ⟨by simp, ho⟩, .block rs hd, hrs⟩

theorem Sound.exec (hl : ∀ f, f < fuel → Sound s .line f) :
    Sound s .exec (fuel + 1) := by
  intro i ts h hf
  simp only [NonTerm.rank] at hf
  rw [parser, parseexec, wp_bind]
  refine wp_post (wp_peek h0 h (by simp [symbols])) ?_
  rintro b j ⟨hj, rfl, -⟩
  rw [wp_ite]
  refine ⟨fun hb => ?_, fun _ => ?_⟩
  · obtain ⟨us, rfl⟩ := of_starts (k := .lparen) (by decide) hb
    simp only [List.length_cons] at hf
    obtain ⟨f, rfl⟩ : ∃ f, fuel = f + 1 := ⟨fuel - 1, by omega⟩
    exact wp_parseblock h0 (hl f (by omega)) hj (by omega)
  · rw [wp_bind]
    have hnil : Reads s (.exec []) (.exec []) := ⟨by simp [Cmd.All], rfl⟩
    refine wp_post (wp_parseredirs h0 (Nat.lt_succ_of_le hj.length_le) hj hnil) ?_
    rintro c k ⟨rs, vs, ⟨rfl, hk⟩, hr⟩
    have hr' : Reads s c (simpleTree rs []) := by simpa [simpleTree] using hr
    refine wp_post (wp_parseargs h0 rs [] (Nat.lt_succ_of_le hk.length_le) (by decide) hk hr') ?_
    rintro d l ⟨args, ws, ⟨rfl, hl'⟩, hn, hd⟩
    exact ⟨_, ws, _, ⟨by simp, hl'⟩, .simple rs args hn, hd⟩

theorem sound (fuel : Nat) (nt : NonTerm) : Sound s nt fuel := by
  induction fuel using Nat.strongRecOn generalizing nt with
  | _ fuel ih =>
    cases fuel with
    | zero =>
      intro i ts _ hf
      cases nt <;> simp [NonTerm.rank] at hf
    | succ fuel =>
      cases nt with
      | line => exact .line h0 (ih fuel (by omega) .pipe) (ih fuel (by omega) .line)
      | pipe => exact .pipe h0 (ih fuel (by omega) .exec) (ih fuel (by omega) .pipe)
      | exec => exact .exec h0 fun f hf => ih f (by omega) .line

end

end Consumed

def followers : NonTerm → List Tok
  | .line => [.rparen]
  | .pipe => [.rparen, .amp, .semi]
  | .exec => [.rparen, .amp, .semi, .bar]

def Follows (nt : NonTerm) : List Tok → Prop
  | [] => True
  | k :: _ => k ∈ followers nt

section Accepted
variable {vs : List Tok} {E : Stop → Nat → Prop} {nt : NonTerm}

theorem Follows.starts_eq_false {toks : List UInt8} (h : Follows nt vs)
    (ht : ∀ k ∈ followers nt, k.lead.any (· ∈ toks) = false) : starts toks vs = false := by
  cases vs with
  | nil => rfl
  | cons k vs => exact ht k h

theorem Follows.mono {nt' : NonTerm} (h : Follows nt vs)
    (hsub : ∀ k ∈ followers nt, k ∈ followers nt') : Follows nt' vs := by
  cases vs with
  | nil => trivial
  | cons k vs => exact hsub k h

theorem parseredirs_ok (h0 : 0 ∉ s) (rs : List Redir) (hv : starts [LT, GT] vs = false)
    (hf : (redirToks rs ++ vs).length < fuel) (h : At s i (redirToks rs ++ vs)) (hc : Reads s c t) :
    wp (parseredirs s fuel c) (fun c' j => At s j vs ∧ Reads s c' (wrap t rs)) E i := by
  induction rs generalizing i fuel c t with
  | nil =>
    obtain ⟨f, rfl⟩ : ∃ f, fuel = f + 1 := ⟨fuel - 1, by simp at hf; omega⟩
    rw [parseredirs, wp_bind]
    refine wp_post (wp_peek h0 h (by simp [symbols])) ?_
    rintro b j ⟨hj, rfl, -⟩
    rw [if_neg (by simpa [redirToks] using hv)]
    exact ⟨hj, hc⟩
  | cons r rs ih =>
    obtain ⟨f, rfl⟩ : ∃ f, fuel = f + 1 := ⟨fuel - 1, by simp at hf; omega⟩
    obtain ⟨op, x⟩ := r
    change At s i (op.tok :: .word x :: (redirToks rs ++ vs)) at h
    rw [parseredirs, wp_bind]
    refine wp_post (wp_peek h0 h (by simp [symbols])) ?_
    rintro b j ⟨hj, rfl, -⟩
    rw [if_pos (by cases op <;> rfl), wp_bind]
    refine wp_post (wp_take h0 hj) ?_
    rintro r k ⟨hk, hret⟩
    rw [wp_bind]
    refine wp_post (wp_takeWord h0 hk) ?_
    rintro file l ⟨hl, hfile, hx, htext⟩
    rw [if_pos hfile, hret]
    exact ih (by simp [redirToks] at hf ⊢; omega) hl (hc.redircmd op hx htext)

theorem parseargs_ok (h0 : 0 ∉ s) (first : List Redir) (args more : List Arg)
    (hv : Follows .exec vs) (hf : (argToks more ++ vs).length < fuel)
    (hn : (args ++ more).length ≤ MAXARGS - 1) (h : At s i (argToks more ++ vs))
    (hc : Reads s c (simpleTree first args)) :
    wp (parseargs s fuel args.length c)
      (fun c' j => At s j vs ∧ Reads s c' (simpleTree first (args ++ more))) E i := by
  induction more generalizing i fuel c args with
  | nil =>
    obtain ⟨f, rfl⟩ : ∃ f, fuel = f + 1 := ⟨fuel - 1, by simp at hf; omega⟩
    rw [List.append_nil, parseargs, wp_bind]
    change At s i vs at h
    refine wp_post (wp_peek h0 h (by simp [symbols])) ?_
    rintro b j ⟨hj, rfl, -⟩
    cases vs with
    | nil =>
      -- the end of the string is seen by `gettoken`
      rw [if_neg (by decide), wp_bind]
      refine wp_post (wp_gettoken h0 hj) ?_
      rintro tok k ⟨us, hk, hret, rfl⟩
      rw [if_pos hret]
      exact ⟨hk, hc⟩
    | cons k vs =>
      have hk : ∀ k ∈ followers .exec, k.lead.any (· ∈ [BAR, RPAREN, AMP, SEMI]) = true := by
        decide
      rw [starts, if_pos (hk k hv)]
      exact ⟨hj, hc⟩
  | cons a more ih =>
    obtain ⟨f, rfl⟩ : ∃ f, fuel = f + 1 := ⟨fuel - 1, by simp at hf; omega⟩
    obtain ⟨x, rs⟩ := a
    have hat : At s i (.word x :: (redirToks rs ++ (argToks more ++ vs))) := by
      simpa [argToks] using h
    rw [parseargs, wp_bind]
    refine wp_post (wp_peek h0 hat (by simp [symbols])) ?_
    rintro b j ⟨hj, rfl, -⟩
    rw [if_neg (by simp [starts, Tok.lead]), wp_bind]
    refine wp_post (wp_takeWord h0 hj) ?_
    rintro tok k ⟨hk, hret, hx, htext⟩
    have hlt : ¬MAXARGS ≤ args.length + 1 := by
      simp only [List.length_append, List.length_cons] at hn
      unfold MAXARGS at *
      omega
    rw [if_neg (by rw [hret]; decide), if_pos hret, if_neg hlt, wp_bind]
    have hstop : starts [LT, GT] (argToks more ++ vs) = false := by
      cases more with
      | nil => exact hv.starts_eq_false (by decide)
      | cons a more => rfl
    refine wp_post (parseredirs_ok h0 rs hstop (Nat.lt_succ_of_le hk.length_le) hk
      (hc.addArg hx htext)) ?_
    rintro c' l ⟨hl, hr⟩
    rw [simpleTree_concat] at hr
    have hlen : args.length + 1 = (args ++ [(x, rs)]).length := by simp
    have happ : args ++ (x, rs) :: more = args ++ [(x, rs)] ++ more := by simp
    rw [hlen, happ]
    rw [happ] at hn
    exact ih (args ++ [(x, rs)]) (by simp [argToks] at hf ⊢; omega) hn hl hr

theorem parseback_ok (h0 : 0 ∉ s) (n : Nat) (hv : starts [AMP] vs = false)
    (hf : (List.replicate n Tok.amp ++ vs).length < fuel)
    (h : At s i (List.replicate n .amp ++ vs)) (hc : Reads s c t) :
    wp (parseback s fuel c) (fun c' j => At s j vs ∧ Reads s c' (backs n t)) E i := by
  induction n generalizing i fuel c t with
  | zero =>
    obtain ⟨f, rfl⟩ : ∃ f, fuel = f + 1 := ⟨fuel - 1, by simp at hf; omega⟩
    rw [parseback, wp_bind]
    refine wp_post (wp_peek h0 h (by simp [symbols])) ?_
    rintro b j ⟨hj, rfl, -⟩
    rw [if_neg (by simpa using hv)]
    exact ⟨hj, hc⟩
  | succ n ih =>
    obtain ⟨f, rfl⟩ : ∃ f, fuel = f + 1 := ⟨fuel - 1, by simp at hf; omega⟩
    rw [List.replicate_succ, List.cons_append] at h
    rw [parseback, wp_bind]
    refine wp_post (wp_peek h0 h (by simp [symbols])) ?_
    rintro b j ⟨hj, rfl, -⟩
    rw [if_pos (by rfl), wp_bind]
    refine wp_post (wp_take h0 hj) ?_
    rintro r k ⟨hk, -⟩
    exact ih (by simp at hf ⊢; omega) hk hc.back

theorem Follows.replicate {nt : NonTerm} {n : Nat} (h : Follows nt vs)
    (ha : Tok.amp ∈ followers nt) : Follows nt (List.replicate n .amp ++ vs) := by
  cases n with
  | zero => exact h
  | succ n => exact ha

def Accepts (s : List UInt8) (nt : NonTerm) (us : List Tok) (t : Tree) : Prop :=
  ∀ i fuel vs, Follows nt vs → At s i (us ++ vs) → 4 * (us ++ vs).length + nt.rank ≤ fuel →
    wp (parser s nt fuel) (fun c j => At s j vs ∧ Reads s c t) (fun _ _ => False) i

theorem Accepts.backs {p : List Tok} (n : Nat) (h0 : 0 ∉ s) (hp : Accepts s .pipe p t)
    (hv : Follows .pipe vs) (hamp : starts [AMP] vs = false)
    (h : At s i (p ++ List.replicate n Tok.amp ++ vs))
    (hf : 4 * (p ++ List.replicate n Tok.amp ++ vs).length + 2 ≤ fuel) :
    wp (parsepipe s fuel >>= parseback s (s.length + 1))
      (fun c j => At s j vs ∧ Reads s c (backs n t)) (fun _ _ => False) i := by
  rw [List.append_assoc] at h hf
  rw [wp_bind]
  refine wp_post (hp i fuel _ (hv.replicate (by decide)) h hf) ?_
  rintro c j ⟨hj, hr⟩
  exact parseback_ok h0 n hamp (Nat.lt_succ_of_le hj.length_le) hj hr

theorem Accepts.line {p : List Tok} (n : Nat) (h0 : 0 ∉ s) (hp : Accepts s .pipe p t) :
    Accepts s .line (p ++ List.replicate n .amp) (Sh.backs n t) := by
  intro i fuel vs hv h hf
  obtain ⟨f, rfl⟩ : ∃ f, fuel = f + 1 := ⟨fuel - 1, by simp only [NonTerm.rank] at hf; omega⟩
  have hpipe : Follows .pipe vs := hv.mono (by decide)
  have hf' : 4 * (p ++ List.replicate n Tok.amp ++ vs).length + 2 ≤ f := by
    simp only [NonTerm.rank] at hf
    omega
  have hb := hp.backs n h0 hpipe (hv.starts_eq_false (by decide)) h hf'
  rw [wp_bind] at hb
  rw [parser, parseline, wp_bind]
  refine wp_post hb fun c j hc => ?_
  rw [wp_bind]
  refine wp_post hc ?_
  rintro c' k ⟨hk, hr⟩
  rw [wp_bind]
  refine wp_post (wp_peek h0 hk (by simp [symbols])) ?_
  rintro b l ⟨hl, rfl, -⟩
  rw [hv.starts_eq_false (by decide)]
  exact ⟨hl, hr⟩

theorem Accepts.list {p l : List Tok} {u : Tree} (n : Nat) (h0 : 0 ∉ s)
    (hp : Accepts s .pipe p t) (hl : Accepts s .line l u) :
    Accepts s .line (p ++ List.replicate n .amp ++ .semi :: l) (.list (Sh.backs n t) u) := by
  intro i fuel vs hv h hf
  obtain ⟨f, rfl⟩ : ∃ f, fuel = f + 1 := ⟨fuel - 1, by simp only [NonTerm.rank] at hf; omega⟩
  rw [List.append_assoc, List.cons_append] at h hf
  simp only [NonTerm.rank] at hf
  have hsemi : Follows .pipe (.semi :: (l ++ vs)) := by simp [Follows, followers]
  have hf' : 4 * (p ++ List.replicate n Tok.amp ++ .semi :: (l ++ vs)).length + 2 ≤ f := by omega
  have hb := hp.backs n h0 hsemi rfl h hf'
  rw [wp_bind] at hb
  rw [parser, parseline, wp_bind]
  refine wp_post hb fun c j hc => ?_
  rw [wp_bind]
  refine wp_post hc ?_
  rintro c' k ⟨hk, hr⟩
  rw [wp_bind]
  refine wp_post (wp_peek h0 hk (by simp [symbols])) ?_
  rintro b m ⟨hm, rfl, -⟩
  rw [if_pos (by rfl), wp_bind]
  refine wp_post (wp_take h0 hm) ?_
  rintro r o ⟨ho, -⟩
  rw [wp_bind]
  simp only [List.length_append, List.length_cons] at hf
  refine wp_post (hl o f vs hv ho (by simp only [NonTerm.rank, List.length_append]; omega)) ?_
  rintro d q ⟨hq, hu⟩
  exact ⟨hq, hr.list hu⟩

theorem Accepts.single {e : List Tok} (h0 : 0 ∉ s) (he : Accepts s .exec e t) :
    Accepts s .pipe e t := by
  intro i fuel vs hv h hf
  obtain ⟨f, rfl⟩ : ∃ f, fuel = f + 1 := ⟨fuel - 1, by simp only [NonTerm.rank] at hf; omega⟩
  simp only [NonTerm.rank] at hf
  rw [parser, parsepipe, wp_bind]
  refine wp_post (he i f vs (hv.mono (by decide)) h (by simp only [NonTerm.rank]; omega)) ?_
  rintro c j ⟨hj, hr⟩
  rw [wp_bind]
  refine wp_post (wp_peek h0 hj (by simp [symbols])) ?_
  rintro b k ⟨hk, rfl, -⟩
  rw [hv.starts_eq_false (by decide)]
  exact ⟨hk, hr⟩

theorem Accepts.pipe {e p : List Tok} {u : Tree} (h0 : 0 ∉ s) (he : Accepts s .exec e t)
    (hp : Accepts s .pipe p u) : Accepts s .pipe (e ++ .bar :: p) (.pipe t u) := by
  intro i fuel vs hv h hf
  obtain ⟨f, rfl⟩ : ∃ f, fuel = f + 1 := ⟨fuel - 1, by simp only [NonTerm.rank] at hf; omega⟩
  rw [List.append_assoc, List.cons_append] at h hf
  simp only [NonTerm.rank] at hf
  have hbar : Follows .exec (.bar :: (p ++ vs)) := by simp [Follows, followers]
  rw [parser, parsepipe, wp_bind]
  refine wp_post (he i f _ hbar h (by simp only [NonTerm.rank]; omega)) ?_
  rintro c j ⟨hj, hr⟩
  rw [wp_bind]
  refine wp_post (wp_peek h0 hj (by simp [symbols])) ?_
  rintro b k ⟨hk, rfl, -⟩
  rw [if_pos (by rfl), wp_bind]
  refine wp_post (wp_take h0 hk) ?_
  rintro r o ⟨ho, -⟩
  rw [wp_bind]
  simp only [List.length_append, List.length_cons] at hf
  refine wp_post (hp o f vs hv ho (by simp only [NonTerm.rank, List.length_append]; omega)) ?_
  rintro d q ⟨hq, hu⟩
  exact ⟨hq, hr.pipe hu⟩

theorem Accepts.block {l : List Tok} (rs : List Redir) (h0 : 0 ∉ s) (hl : Accepts s .line l t) :
    Accepts s .exec (.lparen :: l ++ .rparen :: redirToks rs) (wrap t rs) := by
  intro i fuel vs hv h hf
  have hsplit : (Tok.lparen :: l ++ .rparen :: redirToks rs) ++ vs =
      .lparen :: (l ++ .rparen :: (redirToks rs ++ vs)) := by simp
  rw [hsplit] at h hf
  simp only [NonTerm.rank, List.length_cons] at hf
  obtain ⟨f, rfl⟩ : ∃ f, fuel = f + 2 := ⟨fuel - 2, by omega⟩
  have hparen : Follows .line (.rparen :: (redirToks rs ++ vs)) := List.mem_singleton.mpr rfl
  rw [parser, parseexec, wp_bind]
  refine wp_post (wp_peek h0 h (by simp [symbols])) ?_
  rintro b i' ⟨hi', rfl, -⟩
  rw [if_pos (by rfl), parseblock, wp_bind]
  refine wp_post (wp_peek h0 hi' (by simp [symbols])) ?_
  rintro b j ⟨hj, rfl, -⟩
  rw [if_pos (by rfl), wp_bind]
  refine wp_post (wp_take h0 hj) ?_
  rintro r k ⟨hk, -⟩
  rw [wp_bind]
  refine wp_post (hl k f _ hparen hk (by simp only [NonTerm.rank]; omega)) ?_
  rintro c m ⟨hm, hr⟩
  rw [wp_bind]
  refine wp_post (wp_peek h0 hm (by simp [symbols])) ?_
  rintro b m' ⟨hm', rfl, -⟩
  rw [if_pos (by rfl), wp_bind]
  refine wp_post (wp_take h0 hm') ?_
  rintro r' n ⟨hn, -⟩
  exact parseredirs_ok h0 rs (hv.starts_eq_false (by decide)) (Nat.lt_succ_of_le hn.length_le)
    hn hr

theorem Accepts.simple (h0 : 0 ∉ s) (first : List Redir) (args : List Arg)
    (hn : args.length ≤ MAXARGS - 1) :
    Accepts s .exec (redirToks first ++ argToks args) (simpleTree first args) := by
  intro i fuel vs hv h hf
  obtain ⟨f, rfl⟩ : ∃ f, fuel = f + 1 := ⟨fuel - 1, by simp only [NonTerm.rank] at hf; omega⟩
  rw [List.append_assoc] at h
  have hredir : starts [LT, GT] (argToks args ++ vs) = false := by
    cases args with
    | nil => exact hv.starts_eq_false (by decide)
    | cons a args => rfl
  have hparen : starts [LPAREN] (redirToks first ++ (argToks args ++ vs)) = false := by
    cases first with
    | nil =>
      cases args with
      | nil => exact hv.starts_eq_false (by decide)
      | cons a args => rfl
    | cons r first =>
      obtain ⟨op, x⟩ := r
      cases op <;> rfl
  rw [parser, parseexec, wp_bind]
  refine wp_post (wp_peek h0 h (by simp [symbols])) ?_
  rintro b j ⟨hj, rfl, -⟩
  rw [if_neg (by simp [hparen]), wp_bind]
  have hnil : Reads s (.exec []) (.exec []) := ⟨by simp [Cmd.All], rfl⟩
  refine wp_post (parseredirs_ok h0 first hredir (Nat.lt_succ_of_le hj.length_le) hj hnil) ?_
  rintro c k ⟨hk, hr⟩
  have hr' : Reads s c (simpleTree first []) := by simpa [simpleTree] using hr
  exact parseargs_ok h0 first [] args hv (Nat.lt_succ_of_le hk.length_le) hn hk hr'

theorem accepts (h0 : 0 ∉ s) {us : List Tok} (hd : Derives nt us t) : Accepts s nt us t := by
  induction hd with
  | line n _ ih => exact ih.line n h0
  | list n _ _ ihp ihl => exact ihp.list n h0 ihl
  | single _ ih => exact ih.single h0
  | pipe _ _ ihe ihp => exact ihe.pipe h0 ihp
  | block rs _ ih => exact ih.block rs h0
  | simple first args hn => exact .simple h0 first args hn

end Accepted

end Xv6Audit.Sh
