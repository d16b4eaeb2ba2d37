import Xv6Audit.Lib.Shared
import Xv6Audit.Log.Redo

/-! The operations of several processes in one transaction of `kernel/log.c`. A step is a
critical section under `log.lock`, or what `commit()` does up to its next block write. -/
namespace Xv6Audit.Log
open Function

def MAXOPBLOCKS : Nat := 10

inductive CommitAt where
  | enter
  | writeLog (tail : Nat)
  | writeHead
  | install (tail : Nat)
  | clear
  | eraseHead
  | leave
deriving DecidableEq, Repr

inductive Place where
  | outside
  | asleep
  | woken
  | inside
  | commit (c : CommitAt)
deriving DecidableEq, Repr

structure Note where
  op : Nat
  block : Nat
  txn : Nat
deriving DecidableEq, Repr

def LogHeader.blocks (lh : LogHeader) : List Nat := (List.range lh.n).map lh.block

/-- `struct log` and where each process is. The last four fields are history: the number of
the operation a process began last, how many were begun, what was logged, and the headers
that `write_head` committed. -/
structure Logger (n : Nat) where
  size : Int
  outstanding : Int
  committing : Bool
  lh : LogHeader
  place : Fin n → Place
  op : Fin n → Nat
  begun : Nat
  notes : List Note
  headers : List (List Nat)

inductive LogAct (n : Nat) where
  | beginOp (p : Fin n)
  | logWrite (p : Fin n) (b : Nat)
  | endOp (p : Fin n)
  | commit (p : Fin n)
  | kill (p : Fin n)
deriving DecidableEq, Repr

namespace Logger
variable {n : Nat}

def move (s : Logger n) (p : Fin n) (x : Place) : Logger n :=
  { s with place := update s.place p x }

def wakeup (s : Logger n) : Logger n :=
  { s with place := fun q => if s.place q = .asleep then .woken else s.place q }

def beginOp (s : Logger n) (p : Fin n) : Logger n :=
  if s.committing then s.move p .asleep
  else if s.lh.n + (s.outstanding + 1) * MAXOPBLOCKS > LOGSIZE then s.move p .asleep
  else { s.move p .inside with
    outstanding := s.outstanding + 1
    op := update s.op p s.begun
    begun := s.begun + 1 }

def logWrite (s : Logger n) (p : Fin n) (b : Nat) : Except Halt (Logger n) :=
  if s.lh.n ≥ LOGSIZE ∨ s.lh.n ≥ s.size - 1 then .error (.panic "too big a transaction")
  else if s.outstanding < 1 then .error (.panic "log_write outside of trans")
  else
    let i := absorb s.lh b s.lh.n
    .ok { s with
      lh := ⟨if i = s.lh.n then s.lh.n + 1 else s.lh.n, update s.lh.block i b⟩
      notes := ⟨s.op p, b, s.headers.length⟩ :: s.notes }

def endOp (s : Logger n) (p : Fin n) : Except Halt (Logger n) :=
  if s.committing then .error (.panic "log.committing")
  else if s.outstanding - 1 = 0 then
    .ok { s.move p (.commit .enter) with outstanding := s.outstanding - 1, committing := true }
  else .ok { s.move p .outside with outstanding := s.outstanding - 1 }.wakeup

def commitStep (s : Logger n) (p : Fin n) : CommitAt → Logger n
  | .enter => s.move p (.commit (if 0 < s.lh.n then .writeLog 0 else .leave))
  | .writeLog tail => s.move p (.commit (if tail < s.lh.n then .writeLog (tail + 1) else .writeHead))
  | .writeHead => { s.move p (.commit (.install 0)) with headers := s.headers ++ [s.lh.blocks] }
  | .install tail => s.move p (.commit (if tail < s.lh.n then .install (tail + 1) else .clear))
  | .clear => { s.move p (.commit .eraseHead) with lh := { s.lh with n := 0 } }
  | .eraseHead => s.move p (.commit .leave)
  | .leave => { s.move p .outside with committing := false }.wakeup

def act (s : Logger n) : LogAct n → Except Halt (Logger n)
  | .beginOp p =>
    if s.place p = .outside ∨ s.place p = .woken then .ok (s.beginOp p) else .error .blocked
  | .logWrite p b => if s.place p = .inside then s.logWrite p b else .error .blocked
  | .endOp p => if s.place p = .inside then s.endOp p else .error .blocked
  | .commit p =>
    match s.place p with
    | .commit c => .ok (s.commitStep p c)
    | _ => .error .blocked
  | .kill p => if s.place p = .asleep then .ok (s.move p .woken) else .error .blocked

def boot (n : Nat) (size : Int) : Logger n where
  size := size
  outstanding := 0
  committing := false
  lh := ⟨0, fun _ => 0⟩
  place := fun _ => .outside
  op := fun _ => 0
  begun := 0
  notes := []
  headers := []

/-! Operations, commits and headers. -/

def weight (x : Place) : Int := if x = .inside then 1 else 0

structure Orderly (s : Logger n) : Prop where
  count : s.outstanding = ∑ p, weight (s.place p)
  alone : ∀ p c, s.place p = .commit c → s.committing = true ∧
    ∀ q c', s.place q = .commit c' → q = p
  quiet : s.committing = true → s.outstanding = 0
  idle : s.committing = false → s.outstanding = 0 → s.lh.n = 0
  cleared : ∀ p, s.place p = .commit .eraseHead ∨ s.place p = .commit .leave → s.lh.n = 0
  nodup : s.lh.blocks.Nodup
  past : ∀ a ∈ s.notes, a.txn ≤ s.headers.length
  pending : ∀ a ∈ s.notes, a.txn = s.headers.length → a.block ∈ s.lh.blocks
  installing : ∀ p, (∃ t, s.place p = .commit (.install t)) ∨ s.place p = .commit .clear →
    ∀ a ∈ s.notes, a.txn < s.headers.length
  committed : ∀ a ∈ s.notes, ∀ h, s.headers[a.txn]? = some h → a.block ∈ h
  old : ∀ a ∈ s.notes, a.op < s.begun
  own : ∀ p, s.place p = .inside → s.op p < s.begun
  apart : ∀ p q, s.place p = .inside → s.place q = .inside → s.op p = s.op q → p = q
  current : ∀ p, s.place p = .inside → ∀ a ∈ s.notes, a.op = s.op p → a.txn = s.headers.length
  whole : ∀ a ∈ s.notes, ∀ a' ∈ s.notes, a.op = a'.op → a.txn = a'.txn

section Orderly
variable {s : Logger n} {p : Fin n}

theorem weight_nonneg (x : Place) : 0 ≤ weight x := by
  unfold weight
  split <;> decide

theorem Orderly.nobody (h : Orderly s) (h0 : s.outstanding = 0) (p : Fin n) :
    s.place p ≠ .inside := by
  intro hp
  have hle : weight (s.place p) ≤ ∑ q, weight (s.place q) :=
    Finset.single_le_sum (fun q _ => weight_nonneg (s.place q)) (Finset.mem_univ p)
  rw [← h.count, h0, hp] at hle
  exact absurd hle (by decide)

theorem boot_orderly (n : Nat) (size : Int) : Orderly (boot n size) where
  count := by simp [boot, weight]
  alone := by simp [boot]
  quiet := by simp [boot]
  idle := fun _ _ => rfl
  cleared := by simp [boot]
  nodup := List.nodup_nil
  past := by simp [boot]
  pending := by simp [boot]
  installing := by simp [boot]
  committed := by simp [boot]
  old := by simp [boot]
  own := by simp [boot]
  apart := by simp [boot]
  current := by simp [boot]
  whole := by simp [boot]

theorem Orderly.places (h : Orderly s) {f : Fin n → Place}
    (hin : ∀ q, f q = .inside ↔ s.place q = .inside)
    (hc : ∀ q c, f q = .commit c ↔ s.place q = .commit c) : Orderly { s with place := f } where
  count := by
    rw [h.count]
    refine Finset.sum_congr rfl fun q _ => ?_
    unfold weight
    simp only [hin q]
  alone := by simpa only [hc] using h.alone
  quiet := h.quiet
  idle := h.idle
  cleared := by simpa only [hc] using h.cleared
  nodup := h.nodup
  past := h.past
  pending := h.pending
  installing := by simpa only [hc] using h.installing
  committed := h.committed
  old := h.old
  own := by simpa only [hin] using h.own
  apart := by simpa only [hin] using h.apart
  current := by simpa only [hin] using h.current
  whole := h.whole

theorem weight_move {x y : Place} (hs : s.place p = x) :
    ∑ q, weight ((s.move p y).place q) = ∑ q, weight (s.place q) - weight x + weight y := by
  rw [← hs]
  exact Shared.sum_update s.place p y weight

theorem Orderly.sleep (h : Orderly s) (hp : s.place p = .outside ∨ s.place p = .woken) :
    Orderly (s.move p .asleep) := by
  refine h.places (fun q => ?_) fun q c => ?_
  all_goals
    by_cases hq : q = p
    · subst q
      rcases hp with hp | hp <;> simp [hp]
    · simp [hq]

theorem Orderly.beginOp (h : Orderly s) (hp : s.place p = .outside ∨ s.place p = .woken) :
    Orderly (s.beginOp p) := by
  unfold Logger.beginOp
  split
  · exact h.sleep hp
  · split
    · exact h.sleep hp
    · rename_i hcom _
      have hcom' : s.committing = false := by simpa using hcom
      have hcommit : ∀ q c, (s.move p .inside).place q = .commit c → s.place q = .commit c := by
        intro q c hq
        by_cases hqp : q = p
        · simp [move, hqp] at hq
        · simpa [move, hqp] using hq
      have hnone : ∀ q c, (s.move p .inside).place q ≠ .commit c := by
        intro q c hq
        rw [(h.alone q c (hcommit q c hq)).1] at hcom'
        cases hcom'
      have hin : ∀ q, q ≠ p → (s.move p .inside).place q = .inside → s.place q = .inside := by
        intro q hqp hq
        simpa [move, hqp] using hq
      have hop : ∀ q, q ≠ p → update s.op p s.begun q = s.op q := fun q hq =>
        update_of_ne hq _ _
      have hself : update s.op p s.begun p = s.begun := update_self ..
      refine ⟨?_, fun q c hq => absurd hq (hnone q c), fun hc => ?_, fun _ h0 => ?_, ?_, h.nodup,
        h.past, h.pending, ?_, h.committed, fun a ha => ?_, fun q hq => ?_, fun q r hq hr hqr => ?_,
        fun q hq a ha haq => ?_, h.whole⟩
      · have hw : weight (s.place p) = 0 := by rcases hp with hp | hp <;> rw [hp] <;> decide
        have hsum := weight_move (p := p) (y := .inside) (s := s) rfl
        rw [hw, ← h.count] at hsum
        exact (hsum.trans (by simp [weight])).symm
      · rw [show s.committing = true from hc] at hcom'
        cases hcom'
      · have hnn : 0 ≤ s.outstanding := by
          rw [h.count]
          exact Finset.sum_nonneg fun q _ => weight_nonneg _
        have h0' : s.outstanding + 1 = 0 := h0
        omega
      · rintro q (hq | hq) <;> exact absurd hq (hnone q _)
      · rintro q (⟨t, hq⟩ | hq) <;> exact absurd hq (hnone q _)
      · exact Nat.lt_succ_of_lt (h.old a ha)
      · by_cases hqp : q = p
        · subst q
          change update s.op p s.begun p < s.begun + 1
          rw [hself]
          omega
        · change update s.op p s.begun q < s.begun + 1
          rw [hop q hqp]
          exact Nat.lt_succ_of_lt (h.own q (hin q hqp hq))
      · -- the new operation has a number nobody had before
        have hqr' : update s.op p s.begun q = update s.op p s.begun r := hqr
        by_cases hqp : q = p
        · by_cases hrp : r = p
          · rw [hqp, hrp]
          · rw [hqp, hself, hop r hrp] at hqr'
            have := h.own r (hin r hrp hr)
            omega
        · by_cases hrp : r = p
          · rw [hrp, hself, hop q hqp] at hqr'
            have := h.own q (hin q hqp hq)
            omega
          · rw [hop q hqp, hop r hrp] at hqr'
            exact h.apart q r (hin q hqp hq) (hin r hrp hr) hqr'
      · have haq' : a.op = update s.op p s.begun q := haq
        by_cases hqp : q = p
        · rw [hqp, hself] at haq'
          have := h.old a ha
          omega
        · rw [hop q hqp] at haq'
          exact h.current q (hin q hqp hq) a ha haq'

/-! `log_write`. -/

theorem blocks_absorb (lh : LogHeader) (b : Nat) :
    (∃ i, absorb lh b lh.n = i ∧ i ≠ lh.n ∧ b ∈ lh.blocks ∧
      (LogHeader.mk lh.n (update lh.block i b)).blocks = lh.blocks) ∨
    absorb lh b lh.n = lh.n ∧ b ∉ lh.blocks ∧
      (LogHeader.mk (lh.n + 1) (update lh.block lh.n b)).blocks = lh.blocks ++ [b] := by
  rcases absorb_spec lh b lh.n (Nat.le_refl _) with h | ⟨hlt, hb⟩
  · refine .inr ⟨h, fun hmem => ?_, ?_⟩
    · obtain ⟨i, hi, hib⟩ := List.mem_map.mp hmem
      exact absorb_new lh b lh.n (Nat.le_refl _) h (by omega) (List.mem_range.mp hi) hib
    · simp only [LogHeader.blocks, List.range_succ, List.map_append, List.map_cons, List.map_nil,
        update_self]
      congr 1
      refine List.map_congr_left fun i hi => ?_
      exact update_of_ne (by have := List.mem_range.mp hi; omega) _ _
  · refine .inl ⟨_, rfl, by omega, ?_, ?_⟩
    · exact List.mem_map.mpr ⟨_, List.mem_range.mpr hlt, hb⟩
    · have hsame : update lh.block (absorb lh b lh.n) b = lh.block := by
        exact update_eq_iff.mpr ⟨hb.symm, fun _ _ => rfl⟩
      rw [hsame]

section
variable (h : Orderly s)
include h

theorem Orderly.logWrite (hp : s.place p = .inside) {b : Nat} {s' : Logger n}
    (hs : s.logWrite p b = .ok s') : Orderly s' ∧ s'.place = s.place := by
  have hnc : s.committing = false := by
    cases hc : s.committing with
    | false => rfl
    | true => exact absurd hp (h.nobody (h.quiet hc) p)
  have hcommit : ∀ q c, s.place q ≠ .commit c := by
    intro q c hq
    rw [(h.alone q c hq).1] at hnc
    cases hnc
  obtain ⟨-, hs⟩ := unless_ok.mp hs
  split at hs
  · cases hs
  · rename_i hout
    obtain ⟨lh, hlh, hnodup, hsub, hmem⟩ : ∃ lh : LogHeader, lh = ⟨if absorb s.lh b s.lh.n = s.lh.n
        then s.lh.n + 1 else s.lh.n, update s.lh.block (absorb s.lh b s.lh.n) b⟩ ∧
        lh.blocks.Nodup ∧ (∀ x ∈ s.lh.blocks, x ∈ lh.blocks) ∧ b ∈ lh.blocks := by
      refine ⟨_, rfl, ?_⟩
      rcases blocks_absorb s.lh b with ⟨i, hi, hne, hb, heq⟩ | ⟨hi, hb, heq⟩
      · rw [hi, if_neg hne, heq]
        exact ⟨h.nodup, fun _ hx => hx, hb⟩
      · rw [hi, if_pos rfl, heq]
        refine ⟨List.nodup_append.mpr ⟨h.nodup, List.nodup_singleton b, ?_⟩, ?_, by simp⟩
        · intro x hx y hy hxy
          rw [List.mem_singleton] at hy
          exact hb (hy ▸ hxy ▸ hx)
        · exact fun x hx => List.mem_append_left _ hx
    simp only [← hlh, Except.ok.injEq] at hs
    subst hs
    refine ⟨⟨h.count, h.alone, h.quiet, fun _ h0 => ?_, ?_, hnodup, ?_, ?_, ?_, ?_, ?_, h.own,
      h.apart, ?_, ?_⟩, rfl⟩
    · exact absurd (show s.outstanding = 0 from h0) (by omega)
    · rintro q (hq | hq) <;> exact absurd hq (hcommit q _)
    · intro a ha
      rcases List.mem_cons.mp ha with rfl | ha
      · exact Nat.le_refl _
      · exact h.past a ha
    · intro a ha hat
      rcases List.mem_cons.mp ha with rfl | ha
      · exact hmem
      · exact hsub _ (h.pending a ha hat)
    · rintro q (⟨t, hq⟩ | hq) <;> exact absurd hq (hcommit q _)
    · intro a ha hd hh
      rcases List.mem_cons.mp ha with rfl | ha
      · simp at hh
      · exact h.committed a ha hd hh
    · intro a ha
      rcases List.mem_cons.mp ha with rfl | ha
      · exact h.own p hp
      · exact h.old a ha
    · intro q hq a ha haq
      rcases List.mem_cons.mp ha with rfl | ha
      · rfl
      · exact h.current q hq a ha haq
    · intro a ha a' ha' haa
      rcases List.mem_cons.mp ha with rfl | ha
      · rcases List.mem_cons.mp ha' with rfl | ha'
        · rfl
        · exact (h.current p hp a' ha' haa.symm).symm
      · rcases List.mem_cons.mp ha' with rfl | ha'
        · exact h.current p hp a ha haa
        · exact h.whole a ha a' ha' haa

/-! `end_op`. -/

theorem Orderly.wakeup : Orderly s.wakeup := by
  refine h.places (fun q => ?_) fun q c => ?_
  all_goals
    split
    · rename_i hq
      simp [hq]
    · rfl

theorem Orderly.leave (hp : s.place p = .inside) (hc : s.committing = false) {x : Place} {o : Int}
    (ho : o = s.outstanding - 1) (hx : x = .outside ∧ o ≠ 0 ∨ x = .commit .enter ∧ o = 0) :
    Orderly { s.move p x with outstanding := o, committing := decide (o = 0) } := by
  have hcommit : ∀ q c, s.place q ≠ .commit c := by
    intro q c hq
    rw [(h.alone q c hq).1] at hc
    cases hc
  have hin : ∀ q, (s.move p x).place q = .inside → s.place q = .inside := by
    intro q hq
    by_cases hqp : q = p
    · rw [hqp]
      exact hp
    · simpa [move, hqp] using hq
  have henter : ∀ q c, (s.move p x).place q = .commit c → q = p ∧ c = .enter ∧ o = 0 := by
    intro q c hq
    by_cases hqp : q = p
    · subst q
      have hq' : x = .commit c := by simpa [move] using hq
      rcases hx with ⟨hx, -⟩ | ⟨hx, h0⟩
      · rw [hx] at hq'
        cases hq'
      · rw [hx] at hq'
        cases hq'
        exact ⟨rfl, rfl, h0⟩
    · exact absurd (by simpa [move, hqp] using hq) (hcommit q c)
  refine ⟨?_, fun q c hq => ⟨?_, fun r c' hr => ?_⟩, fun ht => ?_, fun ht h0 => ?_, ?_, h.nodup,
    h.past, h.pending, ?_, h.committed, h.old, fun q hq => h.own q (hin q hq),
    fun q r hq hr => h.apart q r (hin q hq) (hin r hr), fun q hq => h.current q (hin q hq), h.whole⟩
  · have hsum := weight_move (y := x) hp
    have hwx : weight x = 0 := by rcases hx with ⟨hx, -⟩ | ⟨hx, -⟩ <;> rw [hx] <;> rfl
    rw [hwx, ← h.count] at hsum
    exact (hsum.trans (by rw [ho]; simp [weight])).symm
  · exact decide_eq_true (henter q c hq).2.2
  · exact (henter r c' hr).1.trans (henter q c hq).1.symm
  · exact of_decide_eq_true ht
  · exact absurd h0 (of_decide_eq_false ht)
  · rintro q (hq | hq)
    · exact absurd (henter q _ hq).2.1 (by decide)
    · exact absurd (henter q _ hq).2.1 (by decide)
  · rintro q (⟨t, hq⟩ | hq)
    · exact absurd (henter q _ hq).2.1 (by simp)
    · exact absurd (henter q _ hq).2.1 (by decide)

theorem Orderly.endOp (hp : s.place p = .inside) {s' : Logger n} (hs : s.endOp p = .ok s') :
    Orderly s' := by
  obtain ⟨hc, hs⟩ := unless_ok.mp hs
  have hc' : s.committing = false := by simpa using hc
  split at hs
  · rename_i h0
    have hl := h.leave hp hc' rfl (.inr ⟨rfl, h0⟩)
    rw [decide_eq_true h0] at hl
    cases hs
    exact hl
  · rename_i h0
    have hl := h.leave hp hc' rfl (.inl ⟨rfl, h0⟩)
    rw [decide_eq_false h0, ← hc'] at hl
    cases hs
    exact hl.wakeup

/-! `commit`. -/

theorem Orderly.commitMove {c : CommitAt} (hp : s.place p = .commit c) {d : CommitAt}
    {lh : LogHeader} {hs : List (List Nat)} (hcleared : d = .eraseHead ∨ d = .leave → lh.n = 0)
    (hnodup : lh.blocks.Nodup) (hlen : s.headers.length ≤ hs.length)
    (hpending : ∀ a ∈ s.notes, a.txn = hs.length → a.block ∈ lh.blocks)
    (hinst : (∃ t, d = .install t) ∨ d = .clear → ∀ a ∈ s.notes, a.txn < hs.length)
    (hcommitted : ∀ a ∈ s.notes, ∀ hd, hs[a.txn]? = some hd → a.block ∈ hd) :
    Orderly { s.move p (.commit d) with lh := lh, headers := hs } := by
  obtain ⟨hcom, huniq⟩ := h.alone p c hp
  have hzero := h.quiet hcom
  have hplace : ∀ q e, (s.move p (.commit d)).place q = .commit e → q = p ∧ e = d := by
    intro q e hq
    by_cases hqp : q = p
    · subst q
      have hd : d = e := by simpa [move] using hq
      exact ⟨rfl, hd.symm⟩
    · exact absurd (huniq q e (by simpa [move, hqp] using hq)) hqp
  have hin : ∀ q, (s.move p (.commit d)).place q ≠ .inside := by
    intro q hq
    by_cases hqp : q = p
    · simp [move, hqp] at hq
    · exact h.nobody hzero q (by simpa [move, hqp] using hq)
  refine ⟨?_, fun q e hq => ⟨hcom, fun r e' hr => ?_⟩, h.quiet, fun hf => ?_, ?_, hnodup, ?_,
    hpending, ?_, hcommitted, h.old, fun q hq => absurd hq (hin q),
    fun q r hq => absurd hq (hin q), fun q hq => absurd hq (hin q), h.whole⟩
  · have hsum := weight_move (y := .commit d) hp
    exact h.count.trans (hsum.trans (by simp [weight])).symm
  · exact (hplace r e' hr).1.trans (hplace q e hq).1.symm
  · rw [show s.committing = false from hf] at hcom
    cases hcom
  · rintro q (hq | hq)
    · exact hcleared (.inl (hplace q _ hq).2.symm)
    · exact hcleared (.inr (hplace q _ hq).2.symm)
  · exact fun a ha => (h.past a ha).trans hlen
  · rintro q (⟨t, hq⟩ | hq)
    · exact hinst (.inl ⟨t, (hplace q _ hq).2.symm⟩)
    · exact hinst (.inr (hplace q _ hq).2.symm)

theorem Orderly.leaveCommit (hp : s.place p = .commit .leave) :
    Orderly { s.move p .outside with committing := false } := by
  obtain ⟨hcom, huniq⟩ := h.alone p _ hp
  have hzero := h.quiet hcom
  have hn := h.cleared p (.inr hp)
  have hnone : ∀ q c, (s.move p .outside).place q ≠ .commit c := by
    intro q c hq
    by_cases hqp : q = p
    · simp [move, hqp] at hq
    · exact hqp (huniq q c (by simpa [move, hqp] using hq))
  have hin : ∀ q, (s.move p .outside).place q ≠ .inside := by
    intro q hq
    by_cases hqp : q = p
    · simp [move, hqp] at hq
    · exact h.nobody hzero q (by simpa [move, hqp] using hq)
  refine ⟨?_, fun q c hq => absurd hq (hnone q c), (fun hf => by cases hf), fun _ _ => hn, ?_,
    h.nodup, h.past, h.pending, ?_, h.committed, h.old, fun q hq => absurd hq (hin q),
    fun q r hq => absurd hq (hin q), fun q hq => absurd hq (hin q), h.whole⟩
  · have hsum := weight_move (y := .outside) hp
    exact h.count.trans (hsum.trans (by simp [weight])).symm
  · rintro q (hq | hq) <;> exact absurd hq (hnone q _)
  · rintro q (⟨t, hq⟩ | hq) <;> exact absurd hq (hnone q _)

theorem Orderly.commitStep {c : CommitAt} (hp : s.place p = .commit c) :
    Orderly (s.commitStep p c) := by
  -- places at which neither the header in memory nor those on disk change
  have hgo : ∀ d : CommitAt, (d = .eraseHead ∨ d = .leave → s.lh.n = 0) →
      ((∃ t, d = .install t) ∨ d = .clear → ∀ a ∈ s.notes, a.txn < s.headers.length) →
      Orderly (s.move p (.commit d)) := fun d hcl hin =>
    h.commitMove hp hcl h.nodup (Nat.le_refl _) h.pending hin h.committed
  cases c with
  | enter =>
    refine hgo _ (fun hd => ?_) fun hd => ?_
    · split at hd
      · simp at hd
      · omega
    · split at hd <;> simp at hd
  | writeLog tail =>
    refine hgo _ (fun hd => ?_) fun hd => ?_
    · split at hd <;> simp at hd
    · split at hd <;> simp at hd
  | writeHead =>
    -- from here on every note belongs to a committed transaction
    have hlen : (s.headers ++ [s.lh.blocks]).length = s.headers.length + 1 := by simp
    refine h.commitMove hp (fun hd => ?_) h.nodup (by omega) (fun a ha hat => ?_) (fun _ a ha => ?_)
      fun a ha hd hhd => ?_
    · simp at hd
    · have := h.past a ha
      omega
    · have := h.past a ha
      omega
    · by_cases hat : a.txn < s.headers.length
      · rw [List.getElem?_append_left hat] at hhd
        exact h.committed a ha hd hhd
      · have hat' : a.txn = s.headers.length := by
          have := h.past a ha
          omega
        rw [hat', List.getElem?_concat_length] at hhd
        cases hhd
        exact h.pending a ha hat'
  | install tail =>
    refine hgo _ (fun hd => ?_) fun _ => h.installing p (.inl ⟨tail, hp⟩)
    split at hd <;> simp at hd
  | clear =>
    refine h.commitMove hp (fun _ => rfl) List.nodup_nil (Nat.le_refl _) (fun a ha hat => ?_)
      (fun hd => by simp at hd) h.committed
    exact absurd hat (Nat.ne_of_lt (h.installing p (.inr hp) a ha))
  | eraseHead =>
    refine hgo _ (fun _ => h.cleared p (.inl hp)) fun hd => ?_
    simp at hd
  | leave => exact (h.leaveCommit hp).wakeup

theorem Orderly.act {a : LogAct n} {s' : Logger n} (hs : s.act a = .ok s') : Orderly s' := by
  cases a with
  | beginOp p =>
    obtain ⟨hp, hs⟩ := guard_ok.mp hs
    cases hs
    exact h.beginOp hp
  | logWrite p b =>
    obtain ⟨hp, hs⟩ := guard_ok.mp hs
    exact (h.logWrite hp hs).1
  | endOp p =>
    obtain ⟨hp, hs⟩ := guard_ok.mp hs
    exact h.endOp hp hs
  | commit p =>
    simp only [Logger.act] at hs
    split at hs
    · rename_i c hp
      cases hs
      exact h.commitStep hp
    · cases hs
  | kill p =>
    obtain ⟨hp, hs⟩ := guard_ok.mp hs
    cases hs
    refine h.places (fun q => ?_) fun q c => ?_
    all_goals
      by_cases hq : q = p
      · subst q
        simp [hp]
      · simp [hq]

end

theorem Orderly.reached {size : Int} (h : Shared.Reaches Logger.act (boot n size) s) : Orderly s :=
  h.inv (boot_orderly n size) fun hi hs => hi.act hs

end Orderly

/-- In every interleaving: `commit` runs only while nobody is in an operation; meanwhile nobody
gets into one and nobody logs; `end_op` does not panic; the header lists no block twice; and
what an operation logs is all committed by one header, or all still in memory. -/
theorem operations_commit_whole (n : Nat) (size : Int) (s : Logger n)
    (h : Shared.Reaches Logger.act (boot n size) s) :
    (∀ p c, s.place p = .commit c → s.committing = true ∧ s.outstanding = 0) ∧
    (s.committing = true → (∀ p, s.place p ≠ .inside) ∧
      (∀ p s', s.act (.beginOp p) = .ok s' → s'.place p ≠ .inside) ∧
      ∀ p b s', s.act (.logWrite p b) ≠ .ok s') ∧
    (∀ p, s.act (.endOp p) ≠ .error (.panic "log.committing")) ∧
    s.lh.blocks.Nodup ∧
    (∀ a ∈ s.notes, ∀ a' ∈ s.notes, a.op = a'.op → a.txn = a'.txn) ∧
    ∀ a ∈ s.notes, (∃ hd, s.headers[a.txn]? = some hd ∧ a.block ∈ hd) ∨
      a.txn = s.headers.length ∧ a.block ∈ s.lh.blocks := by
  have ho := Orderly.reached h
  have hnobody : s.committing = true → ∀ p, s.place p ≠ .inside := fun hc =>
    ho.nobody (ho.quiet hc)
  refine ⟨fun p c hp => ?_, fun hc => ⟨hnobody hc, fun p s' hs => ?_, fun p b s' hs => ?_⟩,
    fun p hs => ?_, ho.nodup, ho.whole, fun a ha => ?_⟩
  · exact ⟨(ho.alone p c hp).1, ho.quiet (ho.alone p c hp).1⟩
  · simp only [Logger.act, Logger.beginOp, hc] at hs
    obtain ⟨-, hs⟩ := guard_ok.mp hs
    cases hs
    simp [move]
  · simp only [Logger.act, if_neg (hnobody hc p)] at hs
    cases hs
  · simp only [Logger.act] at hs
    split at hs
    · rename_i hp
      unfold Logger.endOp at hs
      split at hs
      · rename_i hc
        exact hnobody hc p hp
      · split at hs <;> cases hs
    · cases hs
  · by_cases hat : a.txn < s.headers.length
    · exact .inl ⟨_, List.getElem?_eq_getElem hat, ho.committed a ha _ (List.getElem?_eq_getElem hat)⟩
    · have hat' : a.txn = s.headers.length := by
        have := ho.past a ha
        omega
      exact .inr ⟨hat', ho.pending a ha hat'⟩

def sharedTxn {n : Nat} (p q : Fin n) : List (LogAct n) :=
  [.beginOp p, .beginOp q, .logWrite p 50, .logWrite q 60, .logWrite q 50, .endOp p, .endOp q,
   .beginOp p, .commit q, .commit q, .commit q, .commit q, .commit q, .commit q]

theorem operations_commit_whole_sharedTxn : ∃ s : Logger 2,
    Shared.Reaches Logger.act (boot 2 LOGSIZE) s ∧ s.headers = [[50, 60]] ∧
    s.place 0 = .asleep ∧ s.committing = true ∧ (∀ p, s.place p ≠ .inside) ∧
    ∀ a ∈ s.notes, (∃ hd, s.headers[a.txn]? = some hd ∧ a.block ∈ hd) ∨
      a.txn = s.headers.length ∧ a.block ∈ s.lh.blocks := by
  have hrun : (Run.exec (Shared.step Logger.act) (boot 2 LOGSIZE) (sharedTxn 0 1)).map
      (fun s => (s.headers, s.place 0, s.committing)) = some ([[50, 60]], .asleep, true) := by
    decide +kernel
  obtain ⟨s, hs, hst⟩ := Option.map_eq_some_iff.mp hrun
  simp only [Prod.mk.injEq] at hst
  have hall := operations_commit_whole 2 LOGSIZE s ⟨_, hs⟩
  exact ⟨s, ⟨_, hs⟩, hst.1, hst.2.1, hst.2.2, (hall.2.1 hst.2.2).1, hall.2.2.2.2.2⟩

end Logger

end Xv6Audit.Log
