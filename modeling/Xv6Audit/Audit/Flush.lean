import Xv6Audit.Lib.Run
import Xv6Audit.Param
import Xv6Audit.Audit.Text

/-! Several processes in the tail of `syscall()` at once. `write_to_logs` can sleep, so a
flush is two steps and other processes run between them. -/
namespace Xv6Audit.Audit
open Function

inductive Phase where
  | idle
  | flushing
  | ready
deriving DecidableEq

structure Shared where
  log : AuditBuf
  owner : Nat → Option Nat
  phase : Fin NPROC → Phase
  recs : List Rec
  payloads : List (List (UInt8 × Option Nat))

def Shared.slice (s : Shared) (n : Nat) : List (UInt8 × Option Nat) :=
  (List.range n).map fun i => (s.log.buff i, s.owner i)

inductive Act where
  | enter (p : Fin NPROC) (tick : UInt32)
  | finish (p : Fin NPROC) (tick : UInt32)
  | append (p : Fin NPROC) (r : Rec)

def Shared.setPhase (s : Shared) (p : Fin NPROC) (ph : Phase) : Shared :=
  { s with phase := update s.phase p ph }

def startFlush (s : Shared) (p : Fin NPROC) : Shared :=
  { s.setPhase p .flushing with
    payloads := s.payloads ++ [s.slice (payload s.log.buff).length] }

def finishFlush (s : Shared) (p : Fin NPROC) (tick : UInt32) : Shared :=
  { s.setPhase p .ready with
    log := endFlush s.log tick
    owner := update s.owner 0 none }

def appendShared (s : Shared) (p : Fin NPROC) (r : Rec) : Shared :=
  { s.setPhase p .idle with
    log := appendRec s.log r
    owner := fun i =>
      if i ∈ (stores s.log.offset r).map Prod.fst then some s.recs.length else s.owner i
    recs := s.recs ++ [r] }

def step (s : Shared) : Act → Option Shared
  | .enter p tick =>
    if s.phase p = .idle then
      if flushDue s.log.prevTickss tick then some (startFlush s p)
      else some (s.setPhase p .ready)
    else none
  | .finish p tick => if s.phase p = .flushing then some (finishFlush s p tick) else none
  | .append p r => if s.phase p = .ready then some (appendShared s p r) else none

def bootShared (beyond : Mem) : Shared where
  log := (boot beyond).log
  owner := fun _ => none
  phase := fun _ => .idle
  recs := []
  payloads := []

def own (k : Nat) (cells : List (UInt8 × Option Nat)) : List UInt8 :=
  (cells.filter fun c => c.2 = some k).map Prod.fst

def copies (k : Nat) (s : Shared) : List (List UInt8) :=
  (s.payloads.map (own k)).filter fun t => !t.isEmpty

/-- The record of append `k` is whole in exactly one payload and in no part in another, or
whole in the buffer and in no part in a payload. -/
def Accounted (s : Shared) (k : Nat) (r : Rec) : Prop :=
  copies k s = [render r] ∨ (copies k s = [] ∧ own k (s.slice s.log.offset) = render r)

instance (s : Shared) (k : Nat) (r : Rec) : Decidable (Accounted s k r) :=
  inferInstanceAs (Decidable (_ ∨ _))

/-- No flush starts and nothing is appended during another flush, a flush finds the text
terminated right behind `offset`, and an append stores its whole text inside `buff`. -/
def Orderly (s : Shared) : Act → Prop
  | .enter _ tick => flushDue s.log.prevTickss tick →
      (∀ q, s.phase q ≠ .flushing) ∧ (payload s.log.buff).length = s.log.offset
  | .finish _ _ => True
  | .append _ r =>
      (∀ q, s.phase q ≠ .flushing) ∧ Plain r ∧ s.log.offset + extent r ≤ BUFFSIZE

instance (s : Shared) : (a : Act) → Decidable (Orderly s a)
  | .enter _ _ => inferInstanceAs (Decidable (_ → _))
  | .finish _ _ => inferInstanceAs (Decidable True)
  | .append _ _ => inferInstanceAs (Decidable (_ ∧ _))

/-! Cells laid out record by record. -/

def tagged (e : Rec × Nat) : List (UInt8 × Option Nat) := (render e.1).map fun b => (b, some e.2)

def layout (l : List (Rec × Nat)) : List (UInt8 × Option Nat) := l.flatMap tagged

theorem own_append (k : Nat) (u v : List (UInt8 × Option Nat)) :
    own k (u ++ v) = own k u ++ own k v := by
  simp [own]

theorem own_tagged (k : Nat) (e : Rec × Nat) :
    own k (tagged e) = if e.2 = k then render e.1 else [] := by
  unfold own tagged
  by_cases h : e.2 = k
  · simp [h, List.filter_map, Function.comp_def]
  · simp [h, List.filter_map, Function.comp_def]

variable {k : Nat} {r : Rec} {s : Shared}

theorem own_layout_nil {l : List (Rec × Nat)} (h : k ∉ l.map Prod.snd) :
    own k (layout l) = [] := by
  induction l with
  | nil => rfl
  | cons e l ih =>
    simp only [List.map_cons, List.mem_cons, not_or] at h
    have hsplit : layout (e :: l) = tagged e ++ layout l := rfl
    rw [hsplit, own_append, own_tagged, if_neg (Ne.symm h.1), ih h.2, List.nil_append]

theorem own_layout_mem {l : List (Rec × Nat)} (hn : (l.map Prod.snd).Nodup) (h : (r, k) ∈ l) :
    own k (layout l) = render r := by
  induction l with
  | nil => simp at h
  | cons e l ih =>
    have hsplit : layout (e :: l) = tagged e ++ layout l := rfl
    rw [List.map_cons, List.nodup_cons] at hn
    rw [hsplit, own_append, own_tagged]
    rcases List.mem_cons.mp h with rfl | h
    · rw [if_pos rfl, own_layout_nil hn.1, List.append_nil]
    · have hk : k ∈ l.map Prod.snd := List.mem_map_of_mem (f := Prod.snd) h
      have hne : e.2 ≠ k := fun he => hn.1 (he ▸ hk)
      rw [if_neg hne, List.nil_append, ih hn.2 h]

theorem render_ne_nil (r : Rec) : render r ≠ [] := by
  unfold render
  split <;> simp

theorem copies_nil {G : List (List (Rec × Nat))} (h : k ∉ G.flatten.map Prod.snd) :
    ((G.map layout).map (own k)).filter (fun t => !t.isEmpty) = [] := by
  induction G with
  | nil => rfl
  | cons g G ih =>
    simp only [List.flatten_cons, List.map_append, List.mem_append, not_or] at h
    rw [List.map_cons, List.map_cons, own_layout_nil h.1, List.filter_cons_of_neg (by simp),
      ih h.2]

theorem copies_mem {G : List (List (Rec × Nat))} (hn : (G.flatten.map Prod.snd).Nodup)
    (h : (r, k) ∈ G.flatten) :
    ((G.map layout).map (own k)).filter (fun t => !t.isEmpty) = [render r] := by
  induction G with
  | nil => simp at h
  | cons g G ih =>
    simp only [List.flatten_cons, List.map_append, List.nodup_append] at hn
    obtain ⟨hg, hG, hdis⟩ := hn
    rw [List.flatten_cons, List.mem_append] at h
    rw [List.map_cons, List.map_cons]
    rcases h with h | h
    · have hk : k ∈ g.map Prod.snd := List.mem_map_of_mem (f := Prod.snd) h
      have hrest : k ∉ G.flatten.map Prod.snd := fun hk' => hdis k hk k hk' rfl
      rw [own_layout_mem hg h, List.filter_cons_of_pos (by simp [render_ne_nil]),
        copies_nil hrest]
    · have hk : k ∈ G.flatten.map Prod.snd := List.mem_map_of_mem (f := Prod.snd) h
      have hgk : k ∉ g.map Prod.snd := fun hk' => hdis k hk' k hk rfl
      rw [own_layout_nil hgk, List.filter_cons_of_neg (by simp), ih hG h]

/-! The invariant of orderly runs. -/

/-- The appends so far are cut into the flushed groups and the current one, which is what
lies in the buffer; during a flush the current group is in the last payload as well. -/
structure Grouped (s : Shared) : Prop where
  cut : ∃ G cur, G.flatten ++ cur = s.recs.zipIdx ∧ s.slice s.log.offset = layout cur ∧
    s.payloads = (if ∃ q, s.phase q = .flushing then G ++ [cur] else G).map layout
  one : ∀ p q, s.phase p = .flushing → s.phase q = .flushing → p = q

theorem layout_append (l : List (Rec × Nat)) (e : Rec × Nat) :
    layout (l ++ [e]) = layout l ++ tagged e := by
  simp [layout]

theorem slice_length (s : Shared) (n : Nat) : (s.slice n).length = n := by
  simp [Shared.slice]

theorem slice_appendShared (s : Shared) (p : Fin NPROC) (hr : Plain r) :
    (appendShared s p r).slice (appendShared s p r).log.offset =
      s.slice s.log.offset ++ tagged (r, s.recs.length) := by
  have hoff : (appendShared s p r).log.offset = s.log.offset + (render r).length := by
    simp only [appendShared, appendRec, advance_plain hr]
  have hmem : ∀ i, i ∈ (stores s.log.offset r).map Prod.fst ↔
      s.log.offset ≤ i ∧ i < s.log.offset + (render r).length := by
    intro i
    rw [stores_plain hr, mem_putAt_fst]
  refine List.ext_getElem ?_ ?_
  · simp [slice_length, hoff, tagged]
  · intro i hi hi'
    rw [slice_length, hoff] at hi
    have hbyte : (appendShared s p r).log.buff i = if s.log.offset ≤ i ∧
        i < s.log.offset + (render r).length then (render r).getD (i - s.log.offset) 0
        else s.log.buff i := by
      simp only [appendShared, appendRec, stores_plain hr, storeAll_putAt]
    have howner : (appendShared s p r).owner i = if s.log.offset ≤ i ∧
        i < s.log.offset + (render r).length then some s.recs.length else s.owner i := by
      simp only [appendShared, hmem]
    by_cases hlt : i < s.log.offset
    · rw [List.getElem_append_left (by rw [slice_length]; exact hlt)]
      simp only [Shared.slice, List.getElem_map, List.getElem_range, hbyte, howner]
      rw [if_neg (by omega), if_neg (by omega)]
    · rw [List.getElem_append_right (by rw [slice_length]; omega)]
      simp only [Shared.slice, tagged, List.getElem_map, List.getElem_range, List.length_map,
        List.length_range, hbyte, howner]
      rw [if_pos (by omega), if_pos (by omega), List.getD_eq_getElem _ _ (by omega)]

section
variable (h : Grouped s)
include h

theorem Grouped.start (p : Fin NPROC) (hq : ∀ q, s.phase q ≠ .flushing)
    (hlen : (payload s.log.buff).length = s.log.offset) :
    Grouped (startFlush s p) := by
  obtain ⟨G, cur, hcut, hbuf, hpay⟩ := h.cut
  rw [if_neg (fun ⟨q, h⟩ => hq q h)] at hpay
  refine ⟨⟨G, cur, hcut, hbuf, ?_⟩, ?_⟩
  · rw [if_pos ⟨p, by simp [startFlush, Shared.setPhase]⟩]
    simp only [startFlush, hlen, hbuf, hpay, List.map_append, List.map_cons, List.map_nil]
  · have honly : ∀ q, (startFlush s p).phase q = .flushing → q = p := by
      intro q hfl
      by_contra hne
      simp only [startFlush, Shared.setPhase, update_of_ne hne] at hfl
      exact hq q hfl
    intro a b ha hb
    rw [honly a ha, honly b hb]

theorem Grouped.finish (p : Fin NPROC) (tick : UInt32) (hp : s.phase p = .flushing) :
    Grouped (finishFlush s p tick) := by
  obtain ⟨G, cur, hcut, _, hpay⟩ := h.cut
  rw [if_pos ⟨p, hp⟩] at hpay
  have hnone : ∀ q, (finishFlush s p tick).phase q ≠ .flushing := by
    intro q hfl
    by_cases hqp : q = p
    · subst q
      simp [finishFlush, Shared.setPhase] at hfl
    · simp only [finishFlush, Shared.setPhase, update_of_ne hqp] at hfl
      exact hqp (h.one q p hfl hp)
  refine ⟨⟨G ++ [cur], [], ?_, rfl, ?_⟩, fun a _ ha => absurd ha (hnone a)⟩
  · simpa [finishFlush, Shared.setPhase] using hcut
  · rw [if_neg (fun ⟨q, h⟩ => hnone q h)]
    exact hpay

theorem Grouped.append (p : Fin NPROC) (hq : ∀ q, s.phase q ≠ .flushing) (hr : Plain r) :
    Grouped (appendShared s p r) := by
  obtain ⟨G, cur, hcut, hbuf, hpay⟩ := h.cut
  rw [if_neg (fun ⟨q, h⟩ => hq q h)] at hpay
  have hnone : ∀ q, (appendShared s p r).phase q ≠ .flushing := by
    intro q
    by_cases hqp : q = p
    · simp [appendShared, Shared.setPhase, hqp]
    · simp only [appendShared, Shared.setPhase, update_of_ne hqp]
      exact hq q
  refine ⟨⟨G, cur ++ [(r, s.recs.length)], ?_, ?_, ?_⟩, fun a _ ha => absurd ha (hnone a)⟩
  · rw [← List.append_assoc, hcut]
    simp [appendShared, Shared.setPhase, List.zipIdx_append]
  · rw [slice_appendShared s p hr, hbuf, layout_append]
  · rw [if_neg (fun ⟨q, h⟩ => hnone q h)]
    exact hpay

theorem Grouped.ready (p : Fin NPROC) (hp : s.phase p = .idle) :
    Grouped (s.setPhase p .ready) := by
  have hiff : ∀ q, (s.setPhase p .ready).phase q = .flushing ↔ s.phase q = .flushing := by
    intro q
    by_cases hqp : q = p
    · simp [Shared.setPhase, hqp, hp]
    · simp only [Shared.setPhase, update_of_ne hqp]
  obtain ⟨G, cur, hcut, hbuf, hpay⟩ := h.cut
  refine ⟨⟨G, cur, hcut, hbuf, ?_⟩, ?_⟩
  · simp only [hiff]
    exact hpay
  · intro a b ha hb
    exact h.one a b ((hiff a).mp ha) ((hiff b).mp hb)

theorem Grouped.step {s' : Shared} {a : Act} (ho : Orderly s a) (hs : step s a = some s') :
    Grouped s' := by
  cases a with
  | enter p tick =>
    by_cases hp : s.phase p = .idle
    · by_cases hd : flushDue s.log.prevTickss tick = true
      · obtain ⟨hq, hlen⟩ := ho hd
        obtain rfl : startFlush s p = s' := by simpa [Audit.step, hp, hd] using hs
        exact h.start p hq hlen
      · obtain rfl : s.setPhase p .ready = s' := by simpa [Audit.step, hp, hd] using hs
        exact h.ready p hp
    · simp [Audit.step, hp] at hs
  | finish p tick =>
    by_cases hp : s.phase p = .flushing
    · obtain rfl : finishFlush s p tick = s' := by simpa [Audit.step, hp] using hs
      exact h.finish p tick hp
    · simp [Audit.step, hp] at hs
  | append p r =>
    by_cases hp : s.phase p = .ready
    · obtain rfl : appendShared s p r = s' := by simpa [Audit.step, hp] using hs
      exact h.append p ho.1 ho.2.1
    · simp [Audit.step, hp] at hs

theorem Grouped.accounted (hk : s.recs[k]? = some r) : Accounted s k r := by
  obtain ⟨G, cur, hcut, hbuf, hpay⟩ := h.cut
  have hmem : (r, k) ∈ s.recs.zipIdx := by simpa [List.mem_zipIdx_iff_getElem?] using hk
  have hnodup : (s.recs.zipIdx.map Prod.snd).Nodup := by
    simp [List.nodup_range']
  rw [← hcut] at hmem hnodup
  unfold Accounted copies
  rw [hpay]
  by_cases hfl : ∃ q, s.phase q = .flushing
  · -- the current group is in the last payload
    left
    rw [if_pos hfl]
    refine copies_mem ?_ ?_
    · simpa using hnodup
    · simpa using hmem
  · rw [if_neg hfl, hbuf]
    rw [List.map_append, List.nodup_append] at hnodup
    obtain ⟨hG, hcur, hdis⟩ := hnodup
    rcases List.mem_append.mp hmem with hm | hm
    · exact .inl (copies_mem hG hm)
    · have hnot : k ∉ G.flatten.map Prod.snd := fun hk' =>
        hdis k hk' k (List.mem_map_of_mem (f := Prod.snd) hm) rfl
      exact .inr ⟨copies_nil hnot, own_layout_mem hcur hm⟩

end

theorem Grouped.boot (beyond : Mem) : Grouped (bootShared beyond) := by
  have hnone : ∀ q, (bootShared beyond).phase q ≠ .flushing := fun q h => by cases h
  refine ⟨⟨[], [], rfl, rfl, ?_⟩, fun a _ ha => absurd ha (hnone a)⟩
  rw [if_neg (fun ⟨q, h⟩ => hnone q h)]
  rfl

/-- In every interleaving whose steps are all orderly, every record appended so far is in
exactly one payload or still in the buffer. -/
theorem records_accounted_in_orderly_runs (beyond : Mem) (acts : List Act) (s : Shared)
    (hrun : Run.exec step (bootShared beyond) acts = some s)
    (ho : Run.Along step Orderly (bootShared beyond) acts) (k : Nat) (r : Rec)
    (hk : s.recs[k]? = some r) : Accounted s k r :=
  (Run.exec_inv (fun h ho hs => Grouped.step h ho hs) (Grouped.boot beyond) ho hrun).accounted hk

def initRead : Rec := ⟨initName, 5, some (true, false)⟩

def orderlyActs : List Act :=
  [.enter 0 7, .append 0 initRead, .enter 1 150, .finish 1 151, .append 1 initRead]

theorem orderlyActs_accounted :
    ∃ s, Run.exec step (bootShared fun _ => 0) orderlyActs = some s ∧
      s.recs[0]? = some initRead ∧ Accounted s 0 initRead :=
  ⟨_, rfl, rfl, records_accounted_in_orderly_runs (fun _ => 0) orderlyActs _ rfl (by decide) 0
    initRead rfl⟩

def doubleFlush : List Act :=
  [.enter 0 7, .append 0 initRead, .enter 0 150, .enter 1 150, .finish 0 151, .finish 1 151]

theorem doubleFlush_not_accounted :
    ∃ s, Run.exec step (bootShared fun _ => 0) doubleFlush = some s ∧
      s.recs[0]? = some initRead ∧ ¬ Accounted s 0 initRead ∧
      copies 0 s = [render initRead, render initRead] ∧ s.log.offset = 0 :=
  ⟨_, rfl, rfl, by decide, by decide, rfl⟩

end Xv6Audit.Audit
