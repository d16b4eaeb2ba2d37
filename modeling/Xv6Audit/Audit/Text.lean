import Xv6Audit.Audit.Record

/-! What the audit buffer holds against what was recorded: the flushed text, and the bounds
of the stores. -/
namespace Xv6Audit.Audit
open Function

def render (r : Rec) : List UInt8 :=
  match r.fd with
  | some (rd, wr) => r.name.bytes ++ [TAB] ++ r.call ++ [TAB, digit rd, TAB, digit wr, NL]
  | none => r.name.bytes ++ [TAB] ++ r.call ++ [NL]

def text (rs : List Rec) : List UInt8 := rs.flatMap render

/-- Recorded calls grouped by flushes: the records between two of them, with `cur` already
recorded since the last. The last group is still in the buffer at the end. -/
def epochs (prev : UInt32) (cur : List Rec) : List Call → List (List Rec)
  | [] => [cur]
  | c :: cs =>
    if flushDue prev c.tick then cur :: epochs c.tick [c.req] cs
    else epochs prev (cur ++ [c.req]) cs

theorem epochs_ne_nil (prev : UInt32) (cur : List Rec) (cs : List Call) :
    epochs prev cur cs ≠ [] := by
  induction cs generalizing prev cur with
  | nil => simp [epochs]
  | cons c cs ih =>
    unfold epochs
    split
    · simp
    · exact ih _ _

/-! Stores. -/

theorem strncpyBytes_length_self (t : List UInt8) : strncpyBytes t t.length = t := by
  induction t with
  | nil => rfl
  | cons c t ih => simp [strncpyBytes, ih]

theorem putAt_append (o : Nat) (a b : List UInt8) :
    putAt o (a ++ b) = putAt o a ++ putAt (o + a.length) b := by
  induction a generalizing o with
  | nil => rfl
  | cons c a ih =>
    simp only [List.cons_append, putAt, ih, List.length_cons]
    rw [show o + 1 + a.length = o + (a.length + 1) by omega]

theorem storeAll_putAt (m : Mem) (o : Nat) (bs : List UInt8) (i : Nat) :
    storeAll m (putAt o bs) i =
      if o ≤ i ∧ i < o + bs.length then bs.getD (i - o) 0 else m i := by
  induction bs generalizing m o with
  | nil =>
    rw [if_neg (by simp)]
    rfl
  | cons b bs ih =>
    have hstep : storeAll m (putAt o (b :: bs)) =
        storeAll (update m o b) (putAt (o+1) bs) := rfl
    rw [hstep, ih]
    by_cases hi : i = o
    · subst i
      rw [if_neg (by omega), if_pos (by simp), Nat.sub_self, update_self]
      rfl
    · by_cases hr : o + 1 ≤ i ∧ i < o + 1 + bs.length
      · have hk : i - o = (i - (o+1)) + 1 := by omega
        rw [if_pos hr, if_pos (by simp only [List.length_cons]; omega), hk,
          List.getD_cons_succ]
      · rw [if_neg hr, if_neg (by simp only [List.length_cons]; omega),
          update_of_ne hi]

theorem mem_putAt_fst (o : Nat) (bs : List UInt8) (i : Nat) :
    i ∈ (putAt o bs).map Prod.fst ↔ o ≤ i ∧ i < o + bs.length := by
  induction bs generalizing o with
  | nil => simp [putAt]
  | cons b bs ih =>
    simp only [putAt, List.map_cons, List.mem_cons, ih, List.length_cons]
    omega

theorem putAt_lt (o N : Nat) (bs : List UInt8) :
    (∀ i ∈ (putAt o bs).map Prod.fst, i < N) ↔ bs.length = 0 ∨ o + bs.length ≤ N := by
  simp only [mem_putAt_fst]
  refine ⟨fun h => ?_, fun h i hi => by omega⟩
  by_cases hl : bs.length = 0
  · exact .inl hl
  · have hlast := h (o + bs.length - 1) (by omega)
    omega

/-- The record's text is stored whole: a descriptor was used, or the caller's name happens
to be as long as the call's. -/
def Plain (r : Rec) : Prop := r.fd = none → r.name.bytes.length = r.call.length

instance (r : Rec) : Decidable (Plain r) := inferInstanceAs (Decidable (_ → _))

theorem stores_plain {r : Rec} (h : Plain r) (o : Nat) : stores o r = putAt o (render r) := by
  unfold stores render
  cases hf : r.fd with
  | some p =>
    obtain ⟨rd, wr⟩ := p
    simp only [strncpyBytes_length_self, putAt_append, putAt, List.append_assoc,
      List.cons_append, List.nil_append]
  | none =>
    have hl := h hf
    have hname : strncpyBytes r.name.bytes r.call.length = r.name.bytes := by
      rw [← hl, strncpyBytes_length_self]
    simp only [strncpyBytes_length_self, hname, putAt_append, putAt, List.append_assoc,
      List.cons_append, List.nil_append, hl]

theorem advance_plain {r : Rec} (h : Plain r) : advance r = (render r).length := by
  unfold advance render
  cases hf : r.fd with
  | some p =>
    obtain ⟨rd, wr⟩ := p
    simp only [List.length_append, List.length_cons, List.length_nil]
  | none =>
    have hl := h hf
    simp only [List.length_append, List.length_cons, List.length_nil, hl]

theorem call_noNul (r : Rec) : 0 ∉ r.call := by
  have htab : ∀ n ∈ nameFromNum, (0 : UInt8) ∉ ascii n := by decide
  unfold Rec.call
  by_cases hn : r.num < nameFromNum.length
  · rw [List.getD_eq_getElem _ _ hn]
    exact htab _ (List.getElem_mem hn)
  · rw [List.getD_eq_default _ _ (by omega)]
    decide

theorem render_noNul (r : Rec) : 0 ∉ render r := by
  have hname := r.name.noNul
  have hcall := call_noNul r
  have hd : ∀ v : Bool, 0 ≠ digit v := by decide
  have htab : 0 ≠ TAB := by decide
  have hnl : 0 ≠ NL := by decide
  unfold render
  cases r.fd with
  | some p =>
    obtain ⟨rd, wr⟩ := p
    simp only [List.mem_append, List.mem_cons, List.not_mem_nil, or_false, hname, hcall, htab,
      hd rd, hd wr, hnl, not_false_eq_true]
  | none =>
    simp only [List.mem_append, List.mem_cons, List.not_mem_nil, or_false, hname, hcall, htab,
      hnl, not_false_eq_true]

theorem text_noNul (rs : List Rec) : 0 ∉ text rs := by
  intro hb
  obtain ⟨r, _, hbr⟩ := List.mem_flatMap.mp hb
  exact render_noNul r hbr

theorem text_append (rs : List Rec) (r : Rec) : text (rs ++ [r]) = text rs ++ render r := by
  simp [text]

/-! Flushed text. -/

theorem cstr_eq (m : Mem) (i n : Nat) (t : List UInt8) (hn : t.length < n)
    (ht : ∀ j, j < t.length → m (i+j) = t.getD j 0) (hz : 0 ∉ t)
    (hend : m (i + t.length) = 0) : cstr m i n = t := by
  induction t generalizing i n with
  | nil =>
    cases n with
    | zero => rfl
    | succ n =>
      have h0 : m i = 0 := hend
      simp [cstr, h0]
  | cons b t ih =>
    cases n with
    | zero => simp at hn
    | succ n =>
      have hb : m i = b := ht 0 (by simp)
      have hb0 : b ≠ 0 := fun h => hz (h ▸ List.mem_cons_self)
      simp only [cstr, hb, hb0, if_false, List.cons.injEq, true_and]
      refine ih (i+1) n (by simpa using hn) ?_ (fun h => hz (List.mem_cons_of_mem _ h)) ?_
      · intro j hj
        have h1 := ht (j+1) (by simp; omega)
        rwa [List.getD_cons_succ, show i + (j+1) = i + 1 + j by omega] at h1
      · rw [List.length_cons, show i + (t.length+1) = i + 1 + t.length by omega] at hend
        exact hend

/-- The buffer holds the text of `cur`, and zeroes behind everything written so far (`hw`
bytes in earlier epochs). -/
structure Holds (s : AuditBuf) (cur : List Rec) (hw : Nat) : Prop where
  offset : s.offset = (text cur).length
  txt : ∀ i, i < (text cur).length → s.buff i = (text cur).getD i 0
  zero : ∀ i, hw ≤ i → (text cur).length ≤ i → i < BUFFSIZE → s.buff i = 0

variable {cur : List Rec} {s : AuditBuf}

theorem Holds.append {hw : Nat} (h : Holds s cur hw) {r : Rec} (hr : Plain r) :
    Holds (appendRec s r) (cur ++ [r]) hw := by
  have hst : (appendRec s r).buff = storeAll s.buff (putAt (text cur).length (render r)) := by
    simp only [appendRec, stores_plain hr, h.offset]
  refine ⟨?_, ?_, ?_⟩
  · simp only [appendRec, h.offset, advance_plain hr, text_append, List.length_append]
  · intro i hi
    rw [text_append, List.length_append] at hi
    rw [hst, storeAll_putAt, text_append]
    by_cases hlt : i < (text cur).length
    · rw [if_neg (by omega), h.txt i hlt, List.getD_append _ _ _ _ hlt]
    · rw [if_pos (by omega), List.getD_append_right _ _ _ _ (by omega)]
  · intro i hhw hlen hi
    rw [text_append, List.length_append] at hlen
    rw [hst, storeAll_putAt, if_neg (by omega)]
    exact h.zero i hhw (by omega) hi

theorem Holds.flush {hw : Nat} (h : Holds s cur hw) (hhw : hw ≤ (text cur).length) (tick : UInt32) :
    Holds (endFlush s tick) [] (text cur).length := by
  refine ⟨rfl, by intro i hi; exact absurd hi (Nat.not_lt_zero i), ?_⟩
  intro i hi _ hb
  by_cases h0 : i = 0
  · subst i; simp [endFlush]
  · simp only [endFlush, update_of_ne h0]
    exact h.zero i (by omega) hi hb

theorem Holds.payload {hw : Nat} (h : Holds s cur hw) (hhw : hw ≤ (text cur).length)
    (hlen : (text cur).length < BUFFSIZE) :
    payload s.buff = text cur := by
  refine cstr_eq s.buff 0 RAMSIZE (text cur) ?_ ?_ (text_noNul cur) ?_
  · unfold BUFFSIZE at hlen; unfold RAMSIZE; omega
  · intro j hj; rw [Nat.zero_add]; exact h.txt j hj
  · rw [Nat.zero_add]; exact h.zero _ hhw (Nat.le_refl _) hlen

/-- When the flushed epochs say exactly what was recorded: every record stored whole, and no
epoch shorter than an earlier one or too long for the buffer and its terminator. -/
structure Clear (eps : List (List Rec)) : Prop where
  plain : ∀ ep ∈ eps, ∀ r ∈ ep, Plain r
  fits : ∀ ep ∈ eps, (text ep).length < BUFFSIZE
  growing : eps.Pairwise fun a b => (text a).length ≤ (text b).length

theorem Clear.tail {ep : List Rec} {eps : List (List Rec)} (h : Clear (ep :: eps)) : Clear eps :=
  ⟨fun e he => h.plain e (List.mem_cons_of_mem _ he), fun e he => h.fits e (List.mem_cons_of_mem _ he),
    (List.pairwise_cons.mp h.growing).2⟩

/-- Run lemma. The invariant is kept while the current epoch is plain; an epoch that is not
plain is never flushed under `Clear`, so it is the last one. -/
theorem runLog_flushed (cs : List Call) (s : AuditBuf) (cur : List Rec) (hw : Nat)
    (hI : (∀ r ∈ cur, Plain r) → Holds s cur hw)
    (hc : Clear (epochs s.prevTickss cur cs).dropLast)
    (hhw : ∀ ep ∈ (epochs s.prevTickss cur cs).dropLast, hw ≤ (text ep).length) :
    (runLog cs s).1.flushed = (epochs s.prevTickss cur cs).dropLast.map text := by
  induction cs generalizing s cur hw with
  | nil => rfl
  | cons c cs ih =>
    by_cases hd : flushDue s.prevTickss c.tick = true
    · have hE : (epochs s.prevTickss cur (c :: cs)).dropLast =
          cur :: (epochs c.tick [c.req] cs).dropLast := by
        rw [epochs, if_pos hd, List.dropLast_cons_of_ne_nil (epochs_ne_nil _ _ _)]
      rw [hE] at hc hhw ⊢
      have hcur := hI (hc.plain cur List.mem_cons_self)
      have h0 := hhw cur List.mem_cons_self
      have hp := hcur.payload h0 (hc.fits cur List.mem_cons_self)
      have hrun : (runLog (c :: cs) s).1.flushed =
          payload s.buff :: (runLog cs (appendRec (endFlush s c.tick) c.req)).1.flushed := by
        simp only [runLog, logCall, hd, if_true, Effect.append, List.cons_append, List.nil_append]
      rw [hrun, hp, List.map_cons, List.cons.injEq]
      refine ⟨rfl, ih (appendRec (endFlush s c.tick) c.req) [c.req] (text cur).length ?_ hc.tail ?_⟩
      · intro hr
        exact (hcur.flush h0 c.tick).append (hr c.req List.mem_cons_self)
      · exact fun ep he => (List.pairwise_cons.mp hc.growing).1 ep he
    · have hE : epochs s.prevTickss cur (c :: cs) = epochs s.prevTickss (cur ++ [c.req]) cs := by
        rw [epochs, if_neg hd]
      rw [hE] at hc hhw ⊢
      have hrun : (runLog (c :: cs) s).1.flushed = (runLog cs (appendRec s c.req)).1.flushed := by
        simp only [runLog, logCall, hd, Effect.append, List.nil_append, Bool.false_eq_true, if_false]
      rw [hrun]
      refine ih (appendRec s c.req) (cur ++ [c.req]) hw ?_ hc hhw
      intro hr
      exact (hI fun r h => hr r (List.mem_append_left _ h)).append
        (hr c.req (List.mem_append_right _ List.mem_cons_self))

/-- The payloads are the recorded text, epoch by epoch, in every run whose flushed epochs
are clear. -/
theorem payloads_are_recorded_text (beyond : Mem) (cs : List Call)
    (h : Clear (epochs 0 [] (recordedCalls bootWhitelist cs)).dropLast) :
    (runTails cs (boot beyond)).1.flushed =
      (epochs 0 [] (recordedCalls bootWhitelist cs)).dropLast.map text := by
  rw [runTails_eq_runLog]
  refine runLog_flushed _ (boot beyond).log [] 0 ?_ h fun _ _ => Nat.zero_le _
  intro _
  refine ⟨rfl, fun i hi => absurd hi (Nat.not_lt_zero i), ?_⟩
  intro i _ _ hi
  simp [boot, hi]

def initName : ProcName := ⟨ascii "init", by decide, by decide⟩
def shName : ProcName := ⟨ascii "sh", by decide, by decide⟩

theorem payloads_of_init_fork :
    (runTails [⟨⟨initName, 1, none⟩, 0, 7⟩, ⟨⟨initName, 5, some (true, false)⟩, 0, 150⟩]
        (boot fun _ => 1)).1.flushed =
      (epochs 0 [] (recordedCalls bootWhitelist
        [⟨⟨initName, 1, none⟩, 0, 7⟩, ⟨⟨initName, 5, some (true, false)⟩, 0, 150⟩])).dropLast.map
        text := by
  refine payloads_are_recorded_text _ _ ⟨?_, ?_, ?_⟩
  · decide
  · decide
  · decide

/-- `sh` calls `fork` at tick 0 and again at tick 150: the second call flushes the text
`sh TAB fo NEWLINE k`. -/
theorem payload_of_sh_fork_differs :
    (runTails [⟨⟨shName, 1, none⟩, 0, 0⟩, ⟨⟨shName, 1, none⟩, 0, 150⟩] (boot fun _ => 0)).1.flushed ≠
      (epochs 0 [] (recordedCalls bootWhitelist
        [⟨⟨shName, 1, none⟩, 0, 0⟩, ⟨⟨shName, 1, none⟩, 0, 150⟩])).dropLast.map text := by
  decide

/-! Bounds of the stores. -/

def extent (r : Rec) : Nat :=
  match r.fd with
  | some _ => advance r
  | none => max (r.name.bytes.length + 1 + r.call.length) (advance r)

def total (rs : List Rec) : Nat := (rs.map advance).sum

def FitsFrom : Nat → List Rec → Prop
  | _, [] => True
  | o, r :: rs => o + extent r ≤ BUFFSIZE ∧ FitsFrom (o + advance r) rs

instance FitsFrom.decidable : (o : Nat) → (rs : List Rec) → Decidable (FitsFrom o rs)
  | _, [] => inferInstanceAs (Decidable True)
  | o, r :: rs =>
    have := FitsFrom.decidable (o + advance r) rs
    inferInstanceAs (Decidable (_ ∧ _))

theorem fitsFrom_append (o : Nat) (rs : List Rec) (r : Rec) :
    FitsFrom o (rs ++ [r]) ↔ FitsFrom o rs ∧ o + total rs + extent r ≤ BUFFSIZE := by
  induction rs generalizing o with
  | nil => simp [FitsFrom, total]
  | cons a rs ih =>
    simp only [List.cons_append, FitsFrom, ih, total, List.map_cons, List.sum_cons, and_assoc,
      Nat.add_assoc]

theorem stores_lt (o N : Nat) (r : Rec) :
    (∀ i ∈ (stores o r).map Prod.fst, i < N) ↔ o + extent r ≤ N := by
  have hmax : ∀ a b, o + max a b ≤ N ↔ o + a ≤ N ∧ o + b ≤ N := by
    intro a b
    omega
  unfold stores extent advance
  cases hf : r.fd with
  | some p =>
    obtain ⟨rd, wr⟩ := p
    simp only [strncpyBytes_length_self, List.map_append, List.forall_mem_append, List.map_cons,
      List.map_nil, List.forall_mem_cons, List.not_mem_nil, false_imp_iff, implies_true, and_true,
      putAt_lt]
    omega
  | none =>
    simp only [strncpyBytes_length_self, List.map_append, List.forall_mem_append, List.map_cons,
      List.map_nil, List.forall_mem_cons, List.not_mem_nil, false_imp_iff, implies_true, and_true,
      putAt_lt, hmax]
    omega

/-- Run lemma: with `cur` already appended since the last flush, the remaining stores are in
bounds exactly when the remaining epochs fit. -/
theorem runLog_stored_lt (cs : List Call) (s : AuditBuf) (cur : List Rec)
    (ho : s.offset = total cur) :
    (FitsFrom 0 cur ∧ ∀ i ∈ (runLog cs s).1.stored, i < BUFFSIZE) ↔
      ∀ ep ∈ epochs s.prevTickss cur cs, FitsFrom 0 ep := by
  induction cs generalizing s cur with
  | nil => simp [runLog, epochs]
  | cons c cs ih =>
    by_cases hd : flushDue s.prevTickss c.tick = true
    · have hih := ih (appendRec (endFlush s c.tick) c.req) [c.req]
        (by simp [appendRec, endFlush, total])
      have hprev : (appendRec (endFlush s c.tick) c.req).prevTickss = c.tick := rfl
      rw [hprev] at hih
      simp only [epochs, hd, if_true, List.forall_mem_cons, ← hih, runLog, logCall, Effect.append,
        List.cons_append, List.forall_mem_append, stores_lt, FitsFrom, and_true, endFlush]
      simp only [show (0 < BUFFSIZE) = True by decide, true_and]
    · have hih := ih (appendRec s c.req) (cur ++ [c.req])
        (by simp [appendRec, ho, total])
      have hprev : (appendRec s c.req).prevTickss = s.prevTickss := rfl
      rw [hprev, fitsFrom_append, Nat.zero_add, and_assoc] at hih
      simp only [epochs, hd, Bool.false_eq_true, if_false, ← hih, runLog, logCall, Effect.append,
        List.forall_mem_append, stores_lt, ho]

/-- All stores are inside `buff` exactly when every epoch's records fit in it. -/
theorem stores_in_bounds_iff (beyond : Mem) (cs : List Call) :
    (∀ i ∈ (runTails cs (boot beyond)).1.stored, i < BUFFSIZE) ↔
      ∀ ep ∈ epochs 0 [] (recordedCalls bootWhitelist cs), FitsFrom 0 ep := by
  rw [runTails_eq_runLog]
  have h := runLog_stored_lt (recordedCalls bootWhitelist cs) (boot beyond).log [] rfl
  simp only [FitsFrom, true_and] at h
  exact h

def longName : ProcName := ⟨ascii "abcdefghijklmno", by decide, by decide⟩

/-- 65 calls of `fork` by a process with a 15 byte name inside one epoch: the last one
stores behind `buff`. -/
theorem sixty_five_forks_overflow :
    ¬ ∀ i ∈ (runTails (List.replicate 65 ⟨⟨longName, 1, none⟩, 0, 0⟩) (boot fun _ => 0)).1.stored,
      i < BUFFSIZE := by
  intro h
  rw [runTails_eq_runLog] at h
  have hfit := (runLog_stored_lt _ _ [] rfl).mp ⟨trivial, h⟩
  revert hfit
  decide

end Xv6Audit.Audit
