import Xv6Audit.Sh.Parse

/-! What `gettoken` and `peek` do to the token sequence of the rest of the string. -/
namespace Xv6Audit.Sh

open Prog

inductive Tok where
  | word (w : List UInt8)
  | bar | lparen | rparen | semi | amp | lt | gt | append
deriving DecidableEq

namespace Tok

def code : Tok → UInt8
  | word _ => WORD
  | bar => BAR
  | lparen => LPAREN
  | rparen => RPAREN
  | semi => SEMI
  | amp => AMP
  | lt => LT
  | gt => GT
  | append => PLUS

def lead : Tok → Option UInt8
  | word _ => none
  | append => some GT
  | t => some t.code

end Tok

def single (c : UInt8) : Option Tok :=
  [Tok.bar, .lparen, .rparen, .semi, .amp, .lt].find? (·.code = c)

/-- The token sequence of a string: `>>` is one token, words are as long as they can be, and
whitespace only separates. -/
def tokens : List UInt8 → List Tok
  | [] => []
  | c :: s =>
    if c ∈ whitespace then tokens s
    else match single c with
      | some t => t :: tokens s
      | none =>
        if c = GT then
          if s.head? = some GT then .append :: tokens s.tail else .gt :: tokens s
        else .word (c :: s.takeWhile isWord) :: tokens (s.dropWhile isWord)
termination_by s => s.length
decreasing_by
  all_goals simp only [List.length_cons, List.length_tail]
  any_goals omega
  exact Nat.lt_succ_of_le (List.dropWhile_suffix _).length_le

def starts (toks : List UInt8) : List Tok → Bool
  | [] => false
  | t :: _ => t.lead.any (· ∈ toks)

def text (s : List UInt8) (w : Span) : List UInt8 := (s.take w.eq).drop w.q

structure IsSpan (s : List UInt8) (w : Span) : Prop where
  le : w.q ≤ w.eq
  length : w.eq ≤ s.length
  chars : ∀ c ∈ text s w, isWord c
  ends : ∀ c, s[w.eq]? = some c → ¬isWord c

structure At (s : List UInt8) (i : Nat) (ts : List Tok) : Prop where
  le : i ≤ s.length
  toks : tokens (s.drop i) = ts

def Took (s : List UInt8) : List Tok → Token → List Tok → Prop
  | [], t, us => t.ret = 0 ∧ us = []
  | k :: ts, t, us =>
    t.ret = k.code ∧ us = ts ∧ ∀ x, k = .word x → IsSpan s t.word ∧ text s t.word = x

section Tokens

@[simp] theorem tokens_nil : tokens [] = [] := by rw [tokens]

theorem tokens_skip (l : List UInt8) :
    tokens (l.dropWhile (strchr whitespace)) = tokens l := by
  induction l with
  | nil => rfl
  | cons c l ih =>
    by_cases hc : c ∈ whitespace
    · have hl : tokens (c :: l) = tokens l := by
        rw [tokens, if_pos hc]
      rw [hl, ← ih, List.dropWhile_cons_of_pos (by simpa [strchr] using hc)]
    · rw [List.dropWhile_cons_of_neg (by simpa [strchr] using hc)]

theorem length_tokens_le (l : List UInt8) : (tokens l).length ≤ l.length := by
  fun_induction tokens l with
  | case1 => simp
  | case2 c s hc ih | case3 c s hc t ht ih => simp only [List.length_cons]; omega
  | case4 s hc hs ht ih =>
    simp only [List.length_cons, List.length_tail] at *
    omega
  | case5 s hc hs ht ih => simp only [List.length_cons]; omega
  | case6 c s hc hs hg ih =>
    have h := (List.dropWhile_suffix isWord (l := s)).length_le
    simp only [List.length_cons]
    omega

theorem At.length_le {s : List UInt8} {i : Nat} {ts : List Tok} (h : At s i ts) :
    ts.length ≤ s.length := by
  rw [← h.toks]
  have hl := length_tokens_le (s.drop i)
  rw [List.length_drop] at hl
  omega

end Tokens

section Cursor
variable {s : List UInt8} {i st : Nat} {ts : List Tok} {E : Stop → Nat → Prop}

theorem wp_load {R : UInt8 → Nat → Prop} (hi : i ≤ s.length)
    (hR : R ((s.drop i).headD 0) st) : wp (load s i) R E st := by
  unfold load
  rcases Nat.lt_or_eq_of_le hi with h | h
  · have hd : (s.drop i).headD 0 = s.getD i 0 := by
      rw [List.headD_eq_head?_getD, List.head?_drop, List.getD_eq_getElem?_getD]
    rw [if_pos h, wp_pure, ← hd]
    exact hR
  · subst h
    rw [if_neg (by omega), if_pos rfl, wp_pure]
    simpa using hR

theorem wp_scan {p : UInt8 → Bool} {R : Nat → Nat → Prop} {k : Nat} (hi : i ≤ s.length)
    (hk : s.length < i + k)
    (hR : ∀ j, i ≤ j → j ≤ s.length → s.drop j = (s.drop i).dropWhile p →
      (s.take j).drop i = (s.drop i).takeWhile p → R j st) :
    wp (scan s p k i) R E st := by
  induction k generalizing i with
  | zero => omega
  | succ k ih =>
    rw [scan]
    by_cases h : i < s.length
    · have hd : s.drop i = s[i] :: s.drop (i + 1) := List.drop_eq_getElem_cons h
      rw [if_pos h, wp_bind]
      refine wp_load hi ?_
      rw [hd, List.headD_cons, wp_ite]
      refine ⟨fun hp => ih (by omega) (by omega) fun j hij hj hdrop htake => ?_, fun hp => ?_⟩
      · refine hR j (by omega) hj ?_ ?_
        · rw [hd, List.dropWhile_cons_of_pos hp, hdrop]
        · have hij' : i < (s.take j).length := by rw [List.length_take]; omega
          rw [hd, List.takeWhile_cons_of_pos hp, List.drop_eq_getElem_cons hij', htake,
            List.getElem_take]
      · refine hR i (Nat.le_refl i) hi ?_ ?_
        · rw [hd, List.dropWhile_cons_of_neg hp]
        · rw [hd, List.takeWhile_cons_of_neg hp]
          simp
    · have hi' : i = s.length := by omega
      rw [if_neg h, wp_pure]
      refine hR i (Nat.le_refl i) hi ?_ ?_ <;> simp [hi']

theorem wp_skip {R : Nat → Nat → Prop} (h : At s i ts)
    (hR : ∀ j, At s j ts → (∀ c l, s.drop j = c :: l → c ∉ whitespace) → R j st) :
    wp (skip s i) R E st := by
  refine wp_scan h.le (by omega) fun j _ hj hdrop _ => hR j ⟨hj, ?_⟩ fun c l hc => ?_
  · rw [hdrop, tokens_skip, h.toks]
  · rw [hdrop] at hc
    have hne : (s.drop i).dropWhile (strchr whitespace) ≠ [] := by simp [hc]
    have hnot := List.head_dropWhile_not (strchr whitespace) hne
    simpa only [hc, List.head_cons, strchr, decide_eq_false_iff_not] using hnot

theorem single_iff (c : UInt8) :
    (c = BAR ∨ c = LPAREN ∨ c = RPAREN ∨ c = SEMI ∨ c = AMP ∨ c = LT) ↔
      ∃ t, single c = some t := by
  rw [← Option.isSome_iff_exists, single, List.find?_isSome]
  simp [Tok.code, eq_comm]

theorem code_of_single {c : UInt8} {t : Tok} (h : single c = some t) :
    t.code = c ∧ t.lead = some c := by
  have hc := List.find?_some h
  have hm := List.mem_of_find?_eq_some h
  simp only [decide_eq_true_eq] at hc
  refine ⟨hc, ?_⟩
  rw [← hc]
  revert hm
  cases t <;> simp [Tok.lead]

theorem isWord_of_single {c : UInt8} (hw : c ∉ whitespace) (hs : single c = none)
    (hg : c ≠ GT) : isWord c := by
  have hc : c ∉ symbols := by
    intro hm
    have hall : ∀ d ∈ symbols, single d = none → d = GT := by decide +kernel
    exact hg (hall c hm hs)
  simp [isWord, strchr, hw, hc]

theorem tokens_lead {c : UInt8} (l : List UInt8) (hc : c ∉ whitespace) :
    ∃ t us, tokens (c :: l) = t :: us ∧
      (t.lead = some c ∨ t.lead = none ∧ c ∉ symbols) := by
  rw [tokens, if_neg hc]
  cases hs : single c with
  | some t => exact ⟨t, _, rfl, .inl (code_of_single hs).2⟩
  | none =>
    by_cases hg : c = GT
    · simp only [if_pos hg]
      split
      · exact ⟨_, _, rfl, .inl (by rw [hg]; rfl)⟩
      · exact ⟨_, _, rfl, .inl (by rw [hg]; rfl)⟩
    · have hw := isWord_of_single hc hs hg
      simp only [if_neg hg]
      refine ⟨_, _, rfl, .inr ⟨rfl, ?_⟩⟩
      simp only [isWord, strchr, Bool.and_eq_true, Bool.not_eq_true', decide_eq_false_iff_not] at hw
      exact hw.2

theorem drop_succ_of_cons {c : UInt8} {l : List UInt8} (h : s.drop i = c :: l) :
    i < s.length ∧ s.drop (i + 1) = l := by
  have hi : i < s.length := by
    by_contra hn
    rw [List.drop_eq_nil_of_le (by omega)] at h
    cases h
  refine ⟨hi, ?_⟩
  rw [List.drop_eq_getElem_cons hi] at h
  exact (List.cons.inj h).2

theorem wp_token (h0 : 0 ∉ s) (h : At s i ts)
    (hw : ∀ c l, s.drop i = c :: l → c ∉ whitespace) :
    wp (token s i) (fun r st' => st' = st ∧
      ∃ us, At s r.2 us ∧ Took s ts ⟨r.1, i, r.2⟩ us) E st := by
  unfold token
  rw [wp_bind]
  refine wp_load h.le ?_
  cases hd : s.drop i with
  | nil =>
    have hts : ts = [] := by rw [← h.toks, hd, tokens_nil]
    subst hts
    exact ⟨rfl, [], h, rfl, rfl⟩
  | cons c l =>
    obtain ⟨hi, hl⟩ := drop_succ_of_cons hd
    have hcw : c ∉ whitespace := hw c l hd
    have hc0 : c ≠ 0 := by
      rintro rfl
      exact h0 (List.mem_of_mem_drop (hd ▸ List.mem_cons_self))
    have hts : ts = tokens (c :: l) := by rw [← h.toks, hd]
    have hat : At s (i + 1) (tokens l) := ⟨hi, by rw [hl]⟩
    rw [tokens, if_neg hcw] at hts
    rw [List.headD_cons, if_neg hc0]
    by_cases hg : ∃ t, single c = some t
    · rw [if_pos ((single_iff c).mpr hg)]
      obtain ⟨t, ht⟩ := hg
      rw [ht] at hts
      subst hts
      obtain ⟨hcode, hlead⟩ := code_of_single ht
      refine ⟨rfl, _, hat, hcode.symm, rfl, ?_⟩
      rintro x rfl
      simp [Tok.lead] at hlead
    · have hn : single c = none := by
        rw [← Option.not_isSome_iff_eq_none, Option.isSome_iff_exists]
        exact hg
      rw [hn] at hts
      rw [if_neg (mt (single_iff c).mp hg)]
      by_cases hgt : c = GT
      · -- the second character decides between `>` and `>>`
        simp only [if_pos hgt] at hts ⊢
        rw [wp_bind]
        refine wp_load hi ?_
        rw [hl]
        cases l with
        | nil =>
          rw [if_neg (by decide)]
          subst hts
          exact ⟨rfl, _, hat, rfl, rfl, by simp⟩
        | cons d l' =>
          obtain ⟨hi', hl'⟩ := drop_succ_of_cons hl
          by_cases hd' : d = GT
          · rw [List.headD_cons, if_pos hd']
            rw [if_pos (by simp [hd'])] at hts
            subst hts
            exact ⟨rfl, _, ⟨hi', by rw [hl']; rfl⟩, rfl, rfl, by simp⟩
          · rw [List.headD_cons, if_neg hd']
            rw [if_neg (by simp [hd'])] at hts
            subst hts
            exact ⟨rfl, _, hat, rfl, rfl, by simp⟩
      · have hcc : isWord c := isWord_of_single hcw hn hgt
        simp only [if_neg hgt] at hts ⊢
        subst hts
        rw [wp_bind]
        refine wp_scan h.le (by omega) fun j hij hj hdrop htake => ?_
        rw [hd] at hdrop htake
        refine ⟨rfl, _, ⟨hj, by rw [hdrop, List.dropWhile_cons_of_pos hcc]⟩, rfl, rfl, ?_⟩
        rintro x hx
        cases hx
        have htext : text s ⟨i, j⟩ = c :: l.takeWhile isWord := by
          rw [text, htake, List.takeWhile_cons_of_pos hcc]
        refine ⟨⟨hij, hj, fun d hm => ?_, fun d hm => ?_⟩, htext⟩
        · rw [text, htake] at hm
          exact (List.all_eq_true.mp (List.all_takeWhile)) d hm
        · rw [← List.head?_drop, hdrop] at hm
          have hne := List.head?_dropWhile_not isWord (c :: l)
          rw [hm] at hne
          simpa using hne

theorem wp_gettoken (h0 : 0 ∉ s) (h : At s i ts) :
    wp (gettoken s) (fun t j => ∃ us, At s j us ∧ Took s ts t us) E i := by
  unfold gettoken
  simp only [wp_bind, wp_get]
  refine wp_skip h fun q hq hw => ?_
  refine wp_post (wp_token h0 hq hw) ?_
  rintro ⟨ret, e⟩ _ ⟨rfl, us, hus, htook⟩
  exact wp_skip hus fun j hj _ => ⟨us, hj, htook⟩

theorem wp_peek {toks : List UInt8} (h0 : 0 ∉ s) (h : At s i ts) (hs : ∀ c ∈ toks, c ∈ symbols) :
    wp (peek s toks) (fun b j => At s j ts ∧ b = starts toks ts ∧ (ts = [] → j = s.length))
      E i := by
  unfold peek
  simp only [wp_bind, wp_get]
  refine wp_skip h fun j hj hw => ?_
  rw [wp_set]
  refine wp_load hj.le ⟨hj, ?_⟩
  cases hd : s.drop j with
  | nil =>
    have hts : ts = [] := by rw [← hj.toks, hd, tokens_nil]
    subst hts
    have hl := hj.le
    have hl' : s.length ≤ j := List.drop_eq_nil_iff.mp hd
    exact ⟨by simp [starts], fun _ => by omega⟩
  | cons c l =>
    have hcw : c ∉ whitespace := hw c l hd
    have hc0 : c ≠ 0 := by
      rintro rfl
      exact h0 (List.mem_of_mem_drop (hd ▸ List.mem_cons_self))
    obtain ⟨t, us, htu, hlead⟩ := tokens_lead l hcw
    have hts : ts = t :: us := by rw [← hj.toks, hd, htu]
    subst hts
    refine ⟨?_, by simp⟩
    rw [List.headD_cons, starts]
    rcases hlead with hlead | ⟨hlead, hc⟩
    · simp [hlead, hc0, strchr]
    · have hct : c ∉ toks := fun hm => hc (hs c hm)
      simp [hlead, hct, strchr]

end Cursor

end Xv6Audit.Sh
