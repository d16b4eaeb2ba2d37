import Mathlib.Data.List.Basic
import Mathlib.Tactic.Common

/-! The matcher and the read loop of `user/grep.c`. A string is what stands before its NUL. -/
namespace Xv6Audit.Grep

def scan (more : UInt8 → Bool) (here : List UInt8 → Bool) : List UInt8 → Bool
  | [] => here []
  | x :: text => here (x :: text) || (more x && scan more here text)

def matchstar (c : UInt8) (here : List UInt8 → Bool) : List UInt8 → Bool :=
  scan (fun x => x == c || c == 46) here

def matchone (c : UInt8) (here : List UInt8 → Bool) : List UInt8 → Bool
  | [] => false
  | x :: text => (c == 46 || c == x) && here text

def matchhere : List UInt8 → List UInt8 → Bool
  | [], _ => true
  | [c], text => if c = 36 then text.isEmpty else matchone c (matchhere []) text
  | c :: d :: re, text =>
    if d = 42 then matchstar c (matchhere re) text else matchone c (matchhere (d :: re)) text

def reMatch : List UInt8 → List UInt8 → Bool
  | [], text => scan (fun _ => true) (matchhere []) text
  | c :: re, text =>
    if c = 94 then matchhere re text else scan (fun _ => true) (matchhere (c :: re)) text

inductive Item
  | one (c : UInt8)
  | star (c : UInt8)
  | eot

def items : List UInt8 → List Item
  | [] => []
  | [c] => [if c = 36 then .eot else .one c]
  | c :: d :: re => if d = 42 then .star c :: items re else .one c :: items (d :: re)

def Fits (c x : UInt8) : Prop := c = 46 ∨ c = x

def Lang : List Item → List UInt8 → List UInt8 → Prop
  | [], w, _ => w = []
  | .one c :: l, w, rest => ∃ x u, w = x :: u ∧ Fits c x ∧ Lang l u rest
  | .star c :: l, w, rest => ∃ u v, w = u ++ v ∧ (∀ x ∈ u, Fits c x) ∧ Lang l v rest
  | .eot :: l, w, rest => w ++ rest = [] ∧ Lang l w rest

def Front (l : List Item) (text : List UInt8) : Prop := ∃ w rest, text = w ++ rest ∧ Lang l w rest

section Match
variable {here : List UInt8 → Bool} {c : UInt8} {l : List Item}

theorem front_nil (text : List UInt8) : Front [] text := ⟨[], text, rfl, rfl⟩

theorem front_eot (text : List UInt8) : Front [.eot] text ↔ text = [] := by
  constructor
  · rintro ⟨w, rest, rfl, hw, -⟩
    exact hw
  · rintro rfl
    exact ⟨[], [], rfl, rfl, rfl⟩

theorem front_one (text : List UInt8) :
    Front (.one c :: l) text ↔ ∃ x t, text = x :: t ∧ Fits c x ∧ Front l t := by
  constructor
  · rintro ⟨w, rest, rfl, x, u, rfl, hx, hu⟩
    exact ⟨x, u ++ rest, rfl, hx, u, rest, rfl, hu⟩
  · rintro ⟨x, t, rfl, hx, w, rest, rfl, hw⟩
    exact ⟨x :: w, rest, rfl, x, w, rfl, hx, hw⟩

theorem front_star (text : List UInt8) :
    Front (.star c :: l) text ↔ ∃ u v, text = u ++ v ∧ (∀ x ∈ u, Fits c x) ∧ Front l v := by
  constructor
  · rintro ⟨w, rest, rfl, u, v, rfl, hu, hv⟩
    exact ⟨u, v ++ rest, List.append_assoc .., hu, v, rest, rfl, hv⟩
  · rintro ⟨u, v, rfl, hu, w, rest, rfl, hw⟩
    exact ⟨u ++ w, rest, (List.append_assoc ..).symm, u, w, rfl, hu, hw⟩

theorem scan_iff (more : UInt8 → Bool) (text : List UInt8) :
    scan more here text = true ↔
      ∃ u v, text = u ++ v ∧ (∀ x ∈ u, more x = true) ∧ here v = true := by
  induction text with
  | nil => simp [scan]
  | cons x text ih =>
    rw [scan, Bool.or_eq_true, Bool.and_eq_true, ih]
    constructor
    · rintro (h | ⟨hx, u, v, rfl, hu, hv⟩)
      · exact ⟨[], _, rfl, by simp, h⟩
      · exact ⟨x :: u, v, rfl, List.forall_mem_cons.mpr ⟨hx, hu⟩, hv⟩
    · rintro ⟨_ | ⟨y, u⟩, v, he, hu, hv⟩
      · exact .inl (he ▸ hv)
      · obtain ⟨rfl, rfl⟩ := List.cons.inj he
        exact .inr ⟨(List.forall_mem_cons.mp hu).1, u, v, rfl, (List.forall_mem_cons.mp hu).2, hv⟩

theorem matchstar_iff (hhere : ∀ t, here t = true ↔ Front l t) (text : List UInt8) :
    matchstar c here text = true ↔ Front (.star c :: l) text := by
  have hmore : ∀ x, (x == c || c == 46) = true ↔ Fits c x := fun x => by
    rw [Fits, Bool.or_eq_true, beq_iff_eq, beq_iff_eq, or_comm, eq_comm (a := x)]
  simp only [matchstar, scan_iff, hmore, hhere, front_star]

theorem matchone_iff (hhere : ∀ t, here t = true ↔ Front l t) (text : List UInt8) :
    matchone c here text = true ↔ Front (.one c :: l) text := by
  rw [front_one]
  cases text with
  | nil => simp [matchone]
  | cons x text => simp [matchone, Fits, hhere]

theorem matchhere_iff (re : List UInt8) : ∀ text, matchhere re text = true ↔ Front (items re) text := by
  induction re using items.induct with
  | case1 => exact fun text => iff_of_true (by rw [matchhere]) (front_nil text)
  | case2 c =>
    intro text
    rw [matchhere, items]
    split
    · rw [List.isEmpty_iff, front_eot]
    · exact matchone_iff (fun t => iff_of_true (by rw [matchhere]) (front_nil t)) text
  | case3 c re ih =>
    intro text
    rw [matchhere, items, if_pos rfl, if_pos rfl]
    exact matchstar_iff ih text
  | case4 c d re hd ih =>
    intro text
    rw [matchhere, items, if_neg hd, if_neg hd]
    exact matchone_iff ih text

/-- `match` finds a substring in the language of the pattern, at the front if this starts with
`^`. -/
theorem match_iff_substring (re text : List UInt8) :
    reMatch re text = true ↔ ∃ a w b, text = a ++ (w ++ b) ∧ (re.head? = some 94 → a = []) ∧
      Lang (items (if re.head? = some 94 then re.tail else re)) w b := by
  have hscan : ∀ re, scan (fun _ => true) (matchhere re) text = true ↔
      ∃ a w b, text = a ++ (w ++ b) ∧ Lang (items re) w b := by
    intro re
    simp only [scan_iff, matchhere_iff, Front, implies_true, true_and]
    constructor
    · rintro ⟨a, v, rfl, w, b, rfl, hw⟩
      exact ⟨a, w, b, rfl, hw⟩
    · rintro ⟨a, w, b, rfl, hw⟩
      exact ⟨a, w ++ b, rfl, w, b, rfl, hw⟩
  cases re with
  | nil => simpa [reMatch] using hscan []
  | cons c re =>
    by_cases hc : c = 94
    · subst hc
      rw [reMatch, if_pos rfl, matchhere_iff]
      simp [Front]
    · simpa [reMatch, hc] using hscan (c :: re)

end Match

/-- The inner loop: `line` is what stands from `p` to where `strchr` has come. Returns what is
written and what is left from `p` on. -/
def grepLines (pattern : List UInt8) : List UInt8 → List UInt8 → List UInt8 × List UInt8
  | line, [] => ([], line)
  | line, x :: buf =>
    if x = 10 then
      let r := grepLines pattern [] buf
      ((if reMatch pattern line then line ++ [10] else []) ++ r.1, r.2)
    else grepLines pattern (line ++ [x]) buf

def BUFSIZE : Nat := 1023

/-- `grep` with the first `m` bytes of the buffer filled, and what is still to be read. A `read()`
gives as many bytes as `split` says for this moment, but one at least and no more than there are
and are asked for. -/
def grep (pattern : List UInt8) (split : Nat → Nat) (m input : List UInt8) : List UInt8 :=
  let n := min (split input.length + 1) (min (BUFSIZE - m.length) input.length)
  if _ : n = 0 then []
  else
    let r := grepLines pattern [] (m ++ input.take n)
    r.1 ++ grep pattern split r.2 (input.drop n)
  termination_by input.length
  decreasing_by
    rw [List.length_drop]
    omega

structure IsLine (l : List UInt8) : Prop where
  newline : 10 ∉ l
  nul : 0 ∉ l

def joined (lines : List (List UInt8)) : List UInt8 := lines.flatMap fun l => l ++ [10]

section
variable (pattern : List UInt8) {lines : List (List UInt8)} {l m b rest : List UInt8}

theorem joined_cons : joined (l :: lines) = l ++ 10 :: joined lines := by
  simp [joined]

theorem joined_append (a b : List (List UInt8)) : joined (a ++ b) = joined a ++ joined b :=
  List.flatMap_append ..

theorem grepLines_line (hl : 10 ∉ l) (line b : List UInt8) :
    grepLines pattern line (l ++ b) = grepLines pattern (line ++ l) b := by
  induction l generalizing line with
  | nil => rw [List.append_nil, List.nil_append]
  | cons x l ih =>
    rw [List.mem_cons, not_or] at hl
    rw [List.cons_append, grepLines, if_neg (Ne.symm hl.1), ih hl.2, List.append_assoc]
    rfl

theorem grepLines_front (hl : ∀ l ∈ lines, 10 ∉ l) (he : joined lines = b ++ rest) :
    ∃ done todo m, lines = done ++ todo ∧ 10 ∉ m ∧ joined todo = m ++ rest ∧
      grepLines pattern [] b = (joined (done.filter (reMatch pattern)), m) := by
  induction lines generalizing b with
  | nil =>
    obtain ⟨rfl, rfl⟩ := List.append_eq_nil_iff.mp he.symm
    exact ⟨[], [], [], rfl, by simp, rfl, rfl⟩
  | cons l ls ih =>
    obtain ⟨hnew, hls⟩ := List.forall_mem_cons.mp hl
    rw [joined_cons] at he
    rcases List.append_eq_append_iff.mp he with ⟨_ | ⟨x, c⟩, rfl, hc⟩ | ⟨c, rfl, hc⟩
    · exact ⟨[], l :: ls, l, rfl, hnew, by rw [joined_cons]; exact congrArg _ hc,
        grepLines_line pattern hnew [] []⟩
    · obtain ⟨rfl, hrest⟩ := List.cons.inj hc
      obtain ⟨done, todo, m, rfl, hm, htodo, hrun⟩ := ih hls hrest
      refine ⟨l :: done, todo, m, rfl, hm, htodo, ?_⟩
      rw [grepLines_line pattern hnew, List.nil_append, grepLines, if_pos rfl, hrun,
        List.filter_cons]
      split <;> simp [joined]
    · have hb : 10 ∉ b := fun h => hnew (List.mem_append_left _ h)
      refine ⟨[], (b ++ c) :: ls, b, rfl, hb, ?_, ?_⟩
      · rw [joined_cons, List.append_assoc, hc]
      · simpa [grepLines, joined] using grepLines_line pattern hb [] []

theorem front_le (hm : 10 ∉ m) (he : joined (l :: lines) = m ++ rest) :
    m.length ≤ l.length ∧ 0 < rest.length := by
  rw [joined_cons] at he
  rcases List.append_eq_append_iff.mp he with ⟨_ | ⟨x, c⟩, rfl, hc⟩ | ⟨c, rfl, rfl⟩
  · exact ⟨by simp, by simp [← show 10 :: joined lines = rest from hc]⟩
  · obtain ⟨rfl, -⟩ := List.cons.inj hc
    exact absurd (by simp) hm
  · exact ⟨by simp, by rw [List.length_append]; exact Nat.add_pos_right _ (Nat.succ_pos _)⟩

theorem length_lt_joined (h : l ∈ lines) : l.length < (joined lines).length := by
  have hsub : (l ++ [10]).Sublist (joined lines) :=
    List.sublist_flatten_of_mem (List.mem_map_of_mem h)
  have hlen := hsub.length_le
  rw [List.length_append] at hlen
  exact hlen

theorem joined_eq_nil : joined lines = [] ↔ lines = [] := by
  cases lines with
  | nil => simp [joined]
  | cons l ls => simp [joined_cons]

def fitting (lines : List (List UInt8)) : List (List UInt8) :=
  lines.takeWhile fun l => l.length < BUFSIZE

theorem grep_from (split : Nat → Nat) {input : List UInt8} (hl : ∀ l ∈ lines, 10 ∉ l) (hm : 10 ∉ m)
    (he : joined lines = m ++ input) :
    grep pattern split m input = joined ((fitting lines).filter (reMatch pattern)) := by
  induction hk : input.length using Nat.strongRecOn generalizing lines m input with
  | _ k ih =>
    rw [grep]
    generalize hn : min (split input.length + 1) (min (BUFSIZE - m.length) input.length) = n
    have hall : joined lines = (m ++ input.take n) ++ input.drop n := by
      rw [he, List.append_assoc, List.take_append_drop]
    split
    case isTrue h0 =>
      cases lines with
      | nil => rfl
      | cons l ls =>
        -- no byte is asked for: the buffer is full of a front of `l`
        have hlen := front_le hm he
        rw [fitting, List.takeWhile_cons_of_neg (by simp only [decide_eq_true_eq]; omega)]
        rfl
    case isFalse h0 =>
      obtain ⟨done, todo, m', rfl, hm', htodo, hrun⟩ := grepLines_front pattern hl hall
      have hdone : ∀ l ∈ done, decide (l.length < BUFSIZE) = true := by
        intro l hmem
        have hlt := length_lt_joined hmem
        have hlen := congrArg List.length hall
        simp only [joined_append, htodo, List.length_append, List.length_take,
          List.length_drop] at hlen
        rw [decide_eq_true_eq]
        omega
      rw [hrun, fitting, List.takeWhile_append_of_pos hdone, List.filter_append, joined_append]
      exact congrArg _ (ih _ (by rw [List.length_drop]; omega)
        (fun l h => hl l (List.mem_append_right _ h)) hm' htodo rfl)

/-- However `read()` splits the input, `grep` writes the matching lines up to the first of
`BUFSIZE` or more bytes, so exactly the matching lines if none of these comes behind. -/
theorem grep_writes_matching_lines (split : Nat → Nat) (hl : ∀ l ∈ lines, IsLine l) :
    grep pattern split [] (joined lines) = joined ((fitting lines).filter (reMatch pattern)) ∧
    (grep pattern split [] (joined lines) = joined (lines.filter (reMatch pattern)) ↔
      ∀ l ∈ lines.drop (fitting lines).length, reMatch pattern l = false) := by
  have hrun := grep_from pattern split (fun l h => (hl l h).newline) (by simp)
    (show joined lines = [] ++ joined lines from rfl)
  have hsplit : lines = fitting lines ++ lines.drop (fitting lines).length :=
    (List.prefix_iff_eq_append.mp (List.takeWhile_prefix _)).symm
  refine ⟨hrun, ?_⟩
  rw [hrun]
  nth_rewrite 2 [hsplit]
  rw [List.filter_append, joined_append, List.self_eq_append_right, joined_eq_nil,
    List.filter_eq_nil_iff]
  simp only [Bool.not_eq_true]

end

theorem grep_writes_matching_lines_two :
    grep [97] (fun _ => 0) [] (joined [[98], [98, 97]]) = joined [[98, 97]] :=
  (grep_writes_matching_lines [97] (fun _ => 0) (by
    simp only [List.forall_mem_cons]
    exact ⟨⟨by decide, by decide⟩, ⟨by decide, by decide⟩, by simp⟩)).1

/-- A line that fills the buffer: the next `read()` is asked for no byte, and its 0 ends the
loop. -/
theorem long_line_not_written : let l := List.replicate BUFSIZE 97
    IsLine l ∧ reMatch [] l = true ∧ grep [] (fun n => n) [] (joined [l]) = [] ∧
      joined [l] ≠ [] := by
  intro l
  have hl : IsLine l := ⟨fun h => absurd (List.eq_of_mem_replicate h) (by decide),
    fun h => absurd (List.eq_of_mem_replicate h) (by decide)⟩
  have hlen : l.length = BUFSIZE := List.length_replicate ..
  have hj : joined [l] = l ++ [10] := joined_cons
  refine ⟨hl, rfl, ?_, by simp [hj]⟩
  have hstuck : grep [] (fun n => n) l [10] = [] := by
    rw [grep, dif_pos (by simp [hlen])]
  have hn : min ((l ++ [10]).length + 1) (min (BUFSIZE - 0) (l ++ [10]).length) = l.length := by
    rw [List.length_append, hlen]
    rfl
  have hbuf : grepLines [] [] l = ([], l) := by
    simpa [grepLines] using grepLines_line [] hl.newline [] []
  rw [hj, grep]
  simp only [List.length_nil, hn, List.nil_append]
  rw [dif_neg (by rw [hlen]; decide), List.take_left, List.drop_left, hbuf]
  exact hstuck

end Xv6Audit.Grep
