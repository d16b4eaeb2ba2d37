import Xv6Audit.Sh.Correct

/-! `parsecmd`: the words that `nulterminate` ends in place, and the command as a whole. -/
namespace Xv6Audit.Sh

open Prog

variable {s : List UInt8} {c : Cmd Span} {w : Span}

section Words

theorem getElem?_zeroed (ends : List Nat) (buf : List UInt8) (k : Nat) :
    (ends.foldl (fun buf e => buf.set e 0) buf)[k]? =
      if k ∈ ends then buf[k]?.map fun _ => 0 else buf[k]? := by
  induction ends generalizing buf with
  | nil => simp
  | cons e ends ih =>
    rw [List.foldl_cons, ih, List.getElem?_set']
    by_cases hk : k ∈ ends <;> by_cases he : e = k <;> simp [hk, he, Ne.symm, Function.const_def]

theorem Cmd.All.of_ends {p : Span → Prop} (h : c.All p) : ∀ e ∈ c.ends, ∃ w, p w ∧ w.eq = e := by
  induction c with
  | exec argv =>
    intro e he
    obtain ⟨w, hw, rfl⟩ := List.mem_map.mp he
    exact ⟨w, h w hw, rfl⟩
  | redir c file mode fd ih =>
    intro e he
    rcases List.mem_append.mp he with he | he
    · exact ih h.1 e he
    · exact ⟨file, h.2, (List.mem_singleton.mp he).symm⟩
  | pipe l r ihl ihr | list l r ihl ihr =>
    exact fun e he => (List.mem_append.mp he).elim (ihl h.1 e) (ihr h.2 e)
  | back c ih => exact ih h

theorem Cmd.All.ended {p : Span → Prop} {ends : List Nat} (h : c.All p) (hsub : c.ends ⊆ ends) :
    c.All fun w => p w ∧ w.eq ∈ ends := by
  induction c with
  | exec argv => exact fun w hw => ⟨h w hw, hsub (List.mem_map_of_mem hw)⟩
  | redir c file mode fd ih =>
    obtain ⟨hc, hf⟩ := List.append_subset.mp hsub
    exact ⟨ih h.1 hc, h.2, hf List.mem_cons_self⟩
  | pipe l r ihl ihr | list l r ihl ihr =>
    obtain ⟨hl, hr⟩ := List.append_subset.mp hsub
    exact ⟨ihl h.1 hl, ihr h.2 hr⟩
  | back c ih => exact ih h hsub

theorem Cmd.All.imp {p q : Span → Prop} (h : c.All p) (hpq : ∀ w, p w → q w) : c.All q := by
  induction c with
  | exec argv => exact fun w hw => hpq w (h w hw)
  | redir c file mode fd ih => exact ⟨ih h.1, hpq file h.2⟩
  | pipe l r ihl ihr | list l r ihl ihr => exact ⟨ihl h.1, ihr h.2⟩
  | back c ih => exact ih h

theorem text_getElem? (w : Span) (k : Nat) :
    (text s w)[k]? = if w.q + k < w.eq then s[w.q + k]? else none := by
  rw [text, List.getElem?_drop, List.getElem?_take]

theorem IsSpan.not_inside {v : Span} {k : Nat} (hw : IsSpan s w) (hv : IsSpan s v)
    (hk : w.q + k < w.eq) : w.q + k ≠ v.eq := by
  intro heq
  have hlt : w.q + k < s.length := Nat.lt_of_lt_of_le hk hw.length
  have hm : s[w.q + k] ∈ text s w := by
    refine List.mem_of_getElem? (i := k) ?_
    rw [text_getElem?, if_pos hk, List.getElem?_eq_getElem hlt]
  refine hv.ends _ ?_ (hw.chars _ hm)
  rw [← heq, List.getElem?_eq_getElem hlt]

theorem cstring_nulterminate (h0 : 0 ∉ s) (hc : c.All (IsSpan s)) (hw : IsSpan s w)
    (he : w.eq ∈ c.ends) : cstring (nulterminate c (s ++ [0])) w = text s w := by
  generalize hb : nulterminate c (s ++ [0]) = buf
  have hget : ∀ k, buf[k]? =
      if k ∈ c.ends then (s ++ [0])[k]?.map fun _ => 0 else (s ++ [0])[k]? := by
    intro k
    rw [← hb, nulterminate, getElem?_zeroed]
  have hinside : (buf.drop w.q).take (w.eq - w.q) = text s w := by
    refine List.ext_getElem? fun k => ?_
    rw [text_getElem?, List.getElem?_take]
    by_cases hk : w.q + k < w.eq
    · have hnot : w.q + k ∉ c.ends := by
        intro hm
        obtain ⟨v, hv, heq⟩ := hc.of_ends _ hm
        exact hw.not_inside hv hk heq.symm
      have hlt : w.q + k < s.length := Nat.lt_of_lt_of_le hk hw.length
      rw [if_pos hk, if_pos (by omega), List.getElem?_drop, hget, if_neg hnot,
        List.getElem?_append_left hlt]
    · rw [if_neg hk, if_neg (by omega)]
  have hend : buf[w.eq]? = some 0 := by
    have hlt : w.eq < (s ++ [0]).length := by
      rw [List.length_append]
      exact Nat.lt_succ_of_le hw.length
    rw [hget, if_pos he, List.getElem?_eq_getElem hlt]
    rfl
  have hdrop : buf.drop w.q = text s w ++ 0 :: buf.drop (w.eq + 1) := by
    obtain ⟨hlt, hz⟩ := List.getElem?_eq_some_iff.mp hend
    have hle := hw.le
    have hadd : w.q + (w.eq - w.q) = w.eq := by omega
    calc buf.drop w.q
        = (buf.drop w.q).take (w.eq - w.q) ++ (buf.drop w.q).drop (w.eq - w.q) :=
          (List.take_append_drop _ _).symm
      _ = text s w ++ buf.drop w.eq := by rw [hinside, List.drop_drop, hadd]
      _ = text s w ++ 0 :: buf.drop (w.eq + 1) := by rw [List.drop_eq_getElem_cons hlt, hz]
  have hne : ∀ d ∈ text s w, decide (d ≠ 0) = true := by
    intro d hd
    have hds : d ∈ s := List.mem_of_mem_take (List.mem_of_mem_drop hd)
    exact decide_eq_true fun h => h0 (h ▸ hds)
  rw [cstring, hdrop, List.takeWhile_append_of_pos hne, List.takeWhile_cons_of_neg (by simp),
    List.append_nil]

theorem map_cstring (h0 : 0 ∉ s) (hc : c.All (IsSpan s)) :
    c.map (cstring (nulterminate c (s ++ [0]))) = c.map (text s) :=
  (hc.ended (List.Subset.refl c.ends)).map_eq fun _ hw => cstring_nulterminate h0 hc hw.1 hw.2

end Words

theorem wp_parsecmd (h0 : 0 ∉ s) :
    wp (parsecmd s)
      (fun r _ => r.2 = nulterminate r.1 (s ++ [0]) ∧
        ∃ t, Derives .line (tokens s) t ∧ Reads s r.1 t) SyntaxError 0 := by
  have hat : At s 0 (tokens s) := ⟨Nat.zero_le _, by rw [List.drop_zero]⟩
  have hlen := hat.length_le
  rw [parsecmd, wp_bind]
  refine wp_post (sound h0 (4 * s.length + 4) .line 0 _ hat
    (by simp only [NonTerm.rank]; omega)) ?_
  rintro c j ⟨us, vs, t, ⟨hsplit, hj⟩, hd, hr⟩
  rw [wp_bind]
  refine wp_post (wp_peek h0 hj (by simp)) ?_
  rintro b k ⟨hk, -, -⟩
  rw [wp_bind, wp_get, wp_ite]
  refine ⟨fun hend => ⟨rfl, t, ?_, hr⟩, fun _ => ⟨_, by decide, rfl⟩⟩
  have hvs : vs = [] := by rw [← hk.toks, hend, List.drop_length, tokens_nil]
  rw [hsplit, hvs, List.append_nil]
  exact hd

theorem parsecmd_ok (h0 : 0 ∉ s) {t : Tree} (hd : Derives .line (tokens s) t) :
    wp (parsecmd s)
      (fun r _ => r.2 = nulterminate r.1 (s ++ [0]) ∧ Reads s r.1 t) (fun _ _ => False) 0 := by
  have hat : At s 0 (tokens s ++ []) := ⟨Nat.zero_le _, by rw [List.drop_zero, List.append_nil]⟩
  have hlen := hat.length_le
  rw [parsecmd, wp_bind]
  refine wp_post (accepts h0 hd 0 (4 * s.length + 4) [] trivial hat
    (by simp only [NonTerm.rank]; omega)) ?_
  rintro c j ⟨hj, hr⟩
  rw [wp_bind]
  refine wp_post (wp_peek h0 hj (by simp)) ?_
  rintro b k ⟨-, -, hend⟩
  rw [wp_bind, wp_get, if_pos (hend rfl)]
  exact ⟨rfl, hr⟩

/-- `parsecmd` on a string that stands before its NUL: either the tokens are derived from
`line`, and the words that the result points to make it the one tree of the derivation, or they
are not, and the parser stops with the message of a syntax error. It reads nothing behind the
NUL in both cases. -/
theorem parsecmd_accepts_grammar (s : List UInt8) (h0 : 0 ∉ s) :
    (∃ cmd buf i, parsecmd s 0 = (.ok (cmd, buf), i) ∧
      ∀ t, Derives .line (tokens s) t ↔ t = cmd.map (cstring buf)) ∨
    ∃ msg i, parsecmd s 0 = (.error (.panic msg), i) ∧ msg ∈ syntaxErrors ∧
      ∀ t, ¬Derives .line (tokens s) t := by
  rcases wp_cases (wp_parsecmd h0) with
    ⟨⟨cmd, buf⟩, i, hrun, hbuf, t, hd, hr⟩ | ⟨e, i, hrun, msg, hmsg, rfl⟩
  · refine .inl ⟨cmd, buf, i, hrun, fun u => ?_⟩
    have htree : cmd.map (cstring buf) = t := by
      change buf = nulterminate cmd (s ++ [0]) at hbuf
      rw [hbuf, map_cstring h0 hr.spans, hr.map_text]
    refine ⟨fun hu => ?_, fun hu => hu.trans htree ▸ hd⟩
    obtain ⟨-, hu'⟩ := wp_of_run (parsecmd_ok h0 hu) hrun
    rw [htree, ← hr.map_text, ← hu'.map_text]
  · exact .inr ⟨msg, i, hrun, hmsg, fun u hu => wp_of_stop (parsecmd_ok h0 hu) hrun⟩

/-- When `parsecmd` accepts, the words that the command points to are words of the string, each
reads from the buffer as it stood there, and with what is read the command is the tree of the
string's tokens. -/
theorem words_survive_nulterminate (s : List UInt8) (h0 : 0 ∉ s) {cmd : Cmd Span}
    {buf : List UInt8} {i : Nat} (hrun : parsecmd s 0 = (.ok (cmd, buf), i)) :
    cmd.All (fun w => IsSpan s w ∧ cstring buf w = text s w) ∧
      Derives .line (tokens s) (cmd.map (cstring buf)) := by
  obtain ⟨hbuf, t, hd, hr⟩ := wp_of_run (wp_parsecmd h0) hrun
  obtain rfl : buf = nulterminate cmd (s ++ [0]) := hbuf
  refine ⟨?_, ?_⟩
  · refine (hr.spans.ended (List.Subset.refl cmd.ends)).imp fun w hw => ⟨hw.1, ?_⟩
    exact cstring_nulterminate h0 hr.spans hw.1 hw.2
  · rw [map_cstring h0 hr.spans, hr.map_text]
    exact hd

def blockLine : List UInt8 := [40, 97, 62, 98, 41, 124, 99, 32, 100, 38]

theorem parsecmd_accepts_grammar_block :
    0 ∉ blockLine ∧ ∀ t, Derives .line (tokens blockLine) t ↔
      t = .back (.pipe (.redir (.exec [[97]]) [98] 0x601 1) (.exec [[99], [100]])) := by
  have hrun : (match (parsecmd blockLine 0).1 with
      | .ok (cmd, buf) => decide (cmd.map (cstring buf) =
          .back (.pipe (.redir (.exec [[97]]) [98] 0x601 1) (.exec [[99], [100]])))
      | .error _ => false) = true := by decide +kernel
  refine ⟨by decide, ?_⟩
  rcases parsecmd_accepts_grammar blockLine (by decide) with
    ⟨cmd, buf, i, hok, htree⟩ | ⟨msg, i, hstop, -⟩
  · rw [hok] at hrun
    rw [← of_decide_eq_true hrun]
    exact htree
  · rw [hstop] at hrun
    cases hrun

def packedLine : List UInt8 := [97, 62, 98, 59, 40, 99, 60, 100, 41, 124, 101]

theorem words_survive_nulterminate_packed :
    ∃ cmd buf i, parsecmd packedLine 0 = (.ok (cmd, buf), i) ∧
    buf = [97, 0, 98, 0, 40, 99, 0, 100, 0, 124, 101, 0] ∧
      cmd.All (fun w => IsSpan packedLine w ∧ cstring buf w = text packedLine w) := by
  have hrun : (parsecmd packedLine 0).1.toOption.map Prod.snd =
      some [97, 0, 98, 0, 40, 99, 0, 100, 0, 124, 101, 0] := by decide +kernel
  obtain ⟨⟨cmd, buf⟩, hok, hbuf⟩ := Option.map_eq_some_iff.mp hrun
  have hpair : parsecmd packedLine 0 = (.ok (cmd, buf), (parsecmd packedLine 0).2) :=
    Prod.ext (toOption_eq_some hok) rfl
  exact ⟨cmd, buf, _, hpair, hbuf, (words_survive_nulterminate packedLine (by decide) hpair).1⟩

end Xv6Audit.Sh
