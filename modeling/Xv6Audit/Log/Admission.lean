import Mathlib.Data.Finset.Card
import Xv6Audit.Log.Ops

/-! How many blocks the operations of one transaction can log. `begin_op` reserves
`MAXOPBLOCKS` blocks of `LOGSIZE` for each operation, but one block of the log holds the
header. -/
namespace Xv6Audit.Log.Logger
variable {n : Nat}

def opBlocks (s : Logger n) (p : Fin n) : Finset Nat :=
  ((s.notes.filter fun a => a.op = s.op p).map Note.block).toFinset

def Within (m : Nat) (s : Logger n) : LogAct n → Prop
  | .logWrite p b => (insert b (s.opBlocks p)).card ≤ m
  | .beginOp _ => True
  | .endOp _ => True
  | .commit _ => True
  | .kill _ => True

instance (m : Nat) (s : Logger n) : (a : LogAct n) → Decidable (Within m s a)
  | .logWrite p b => inferInstanceAs (Decidable ((insert b (s.opBlocks p)).card ≤ m))
  | .beginOp _ => inferInstanceAs (Decidable True)
  | .endOp _ => inferInstanceAs (Decidable True)
  | .commit _ => inferInstanceAs (Decidable True)
  | .kill _ => inferInstanceAs (Decidable True)

def spare (s : Logger n) (p : Fin n) : Int :=
  if s.place p = .inside then (MAXOPBLOCKS - 1 : Nat) - (s.opBlocks p).card else 0

structure Roomy (s : Logger n) : Prop where
  orderly : Orderly s
  size : s.size = LOGSIZE
  small : ∀ p, s.place p = .inside → (s.opBlocks p).card ≤ MAXOPBLOCKS - 1
  room : s.lh.n + ∑ p, s.spare p ≤ 28

section Roomy
variable {s s' : Logger n} {p : Fin n}

theorem spare_nonneg (h : ∀ p, s.place p = .inside → (s.opBlocks p).card ≤ MAXOPBLOCKS - 1)
    (p : Fin n) : 0 ≤ s.spare p := by
  unfold spare
  split
  · have := h p ‹_›
    omega
  · exact Int.le_refl 0

section
variable (h : Roomy s)
include h

theorem Roomy.lt : s.lh.n ≤ 28 := by
  have h1 := h.room
  have h2 : 0 ≤ ∑ p, s.spare p := Finset.sum_nonneg fun p _ => spare_nonneg h.small p
  omega

theorem Roomy.shrink (ho : Orderly s') (hsize : s'.size = s.size) (hlh : s'.lh.n ≤ s.lh.n)
    (hop : s'.op = s.op) (hnotes : s'.notes = s.notes)
    (hin : ∀ q, s'.place q = .inside → s.place q = .inside) : Roomy s' := by
  have hblocks : ∀ q, s'.opBlocks q = s.opBlocks q := fun q => by
    unfold opBlocks
    rw [hop, hnotes]
  refine ⟨ho, hsize.trans h.size, fun q hq => ?_, ?_⟩
  · rw [hblocks]
    exact h.small q (hin q hq)
  · have hle : ∑ q, s'.spare q ≤ ∑ q, s.spare q := by
      refine Finset.sum_le_sum fun q _ => ?_
      by_cases hq : s'.place q = .inside
      · unfold spare
        rw [if_pos hq, if_pos (hin q hq), hblocks]
      · rw [spare, if_neg hq]
        exact spare_nonneg h.small q
    have := h.room
    omega

theorem Roomy.beginOp (hp : s.place p = .outside ∨ s.place p = .woken) :
    Roomy (s.beginOp p) := by
  have ho := h.orderly.beginOp hp
  have hsleep : ∀ q, (s.move p .asleep).place q = .inside → s.place q = .inside := by
    intro q hq
    by_cases hqp : q = p
    · simp [move, hqp] at hq
    · simpa [move, hqp] using hq
  unfold Logger.beginOp at ho ⊢
  split at ho
  · rw [if_pos ‹_›]
    exact h.shrink ho rfl (Nat.le_refl _) rfl rfl hsleep
  · rw [if_neg ‹_›]
    split at ho
    · rw [if_pos ‹_›]
      exact h.shrink ho rfl (Nat.le_refl _) rfl rfl hsleep
    · rename_i hcom hroom
      rw [if_neg hroom]
      obtain ⟨t, ht⟩ : ∃ t : Logger n, t = { s.move p .inside with
        outstanding := s.outstanding + 1
        op := Function.update s.op p s.begun
        begun := s.begun + 1 } := ⟨_, rfl⟩
      rw [← ht] at ho ⊢
      have hnew : t.opBlocks p = ∅ := by
        have hno : t.notes.filter (fun a => a.op = t.op p) = [] := by
          refine List.filter_eq_nil_iff.mpr fun a ha => ?_
          rw [ht] at ha ⊢
          have := h.orderly.old a ha
          simp only [Function.update_self, decide_eq_true_eq]
          omega
        unfold opBlocks
        rw [hno]
        rfl
      have hrest : ∀ q, q ≠ p → t.opBlocks q = s.opBlocks q ∧ t.place q = s.place q := by
        intro q hq
        rw [ht]
        exact ⟨by simp [opBlocks, move, hq], by simp [move, hq]⟩
      have hsmall : ∀ q, t.place q = .inside → (t.opBlocks q).card ≤ MAXOPBLOCKS - 1 := by
        intro q hq
        by_cases hqp : q = p
        · rw [hqp, hnew]
          exact Nat.zero_le _
        · rw [(hrest q hqp).1]
          exact h.small q ((hrest q hqp).2 ▸ hq)
      refine ⟨ho, by rw [ht]; exact h.size, hsmall, ?_⟩
      -- no operation has more to add than the nine blocks it may log
      have hsum : ∑ q, t.spare q ≤ 9 * ∑ q, weight (t.place q) := by
        rw [Finset.mul_sum]
        refine Finset.sum_le_sum fun q _ => ?_
        unfold spare weight
        split
        · simp [MAXOPBLOCKS]
        · simp
      rw [← ho.count] at hsum
      have hout : t.outstanding = s.outstanding + 1 := by rw [ht]
      have hn : t.lh.n = s.lh.n := by rw [ht]; rfl
      have hnn : 0 ≤ s.outstanding := by
        rw [h.orderly.count]
        exact Finset.sum_nonneg fun q _ => weight_nonneg _
      have hroom' : (s.lh.n : Int) + (s.outstanding + 1) * 10 ≤ 30 := by
        simpa [MAXOPBLOCKS, LOGSIZE] using hroom
      by_cases h0 : s.outstanding = 0
      · have hempty := h.orderly.idle (by simpa using hcom) h0
        omega
      · omega

theorem Roomy.logWrite (hp : s.place p = .inside) {b : Nat}
    (hw : Within (MAXOPBLOCKS - 1) s (.logWrite p b)) (hs : s.logWrite p b = .ok s') :
    Roomy s' := by
  obtain ⟨ho, hplace⟩ := h.orderly.logWrite hp hs
  obtain ⟨-, hs⟩ := unless_ok.mp hs
  split at hs
  · cases hs
  · have hs' : s'.notes = ⟨s.op p, b, s.headers.length⟩ :: s.notes ∧ s'.op = s.op ∧
        s'.size = s.size ∧ s'.lh.n = if absorb s.lh b s.lh.n = s.lh.n then s.lh.n + 1
          else s.lh.n := by
      cases hs
      exact ⟨rfl, rfl, rfl, rfl⟩
    obtain ⟨hnotes, hop, hsize, hn⟩ := hs'
    have hown : s'.opBlocks p = insert b (s.opBlocks p) := by
      unfold opBlocks
      rw [hnotes, hop]
      simp
    have hrest : ∀ q, q ≠ p → s.place q = .inside → s'.opBlocks q = s.opBlocks q := by
      intro q hq hin
      have hne : s.op p ≠ s.op q := fun he => hq (h.orderly.apart q p hin hp he.symm)
      unfold opBlocks
      rw [hnotes, hop]
      simp [hne]
    refine ⟨ho, hsize.trans h.size, fun q hq => ?_, ?_⟩
    · rw [hplace] at hq
      by_cases hqp : q = p
      · rw [hqp, hown]
        exact hw
      · rw [hrest q hqp hq]
        exact h.small q hq
    · have hsum : ∑ q, s'.spare q ≤ ∑ q, s.spare q - s.spare p + s'.spare p := by
        refine Shared.sum_le p fun q hqp => ?_
        unfold spare
        rw [hplace]
        split
        · rename_i hin
          rw [hrest q hqp hin]
        · exact Int.le_refl 0
      have hspare : s'.spare p + s'.lh.n ≤ s.spare p + s.lh.n := by
        unfold spare
        rw [hplace, if_pos hp, if_pos hp, hown, hn]
        split
        · -- a block new to the header is new to the operation
          rename_i hi
          have hb : b ∉ s.opBlocks p := by
            intro hb
            obtain ⟨a, ha, hab⟩ := List.mem_map.mp (List.mem_toFinset.mp hb)
            obtain ⟨ha, hao⟩ := List.mem_filter.mp ha
            have hcur := h.orderly.current p hp a ha (by simpa using hao)
            rcases blocks_absorb s.lh b with ⟨i, hii, hne, -, -⟩ | ⟨-, hnb, -⟩
            · exact hne (hii.symm.trans hi)
            · exact hnb (hab ▸ h.orderly.pending a ha hcur)
          rw [Finset.card_insert_of_notMem hb]
          push_cast
          omega
        · have := Finset.card_le_card (Finset.subset_insert b (s.opBlocks p))
          omega
      have := h.room
      omega

theorem Roomy.endOp (hp : s.place p = .inside) (hs : s.endOp p = .ok s') :
    Roomy s' := by
  have ho := h.orderly.endOp hp hs
  have hmove : ∀ x q, (s.move p x).place q = .inside → s.place q = .inside := by
    intro x q hq
    by_cases hqp : q = p
    · rw [hqp]
      exact hp
    · simpa [move, hqp] using hq
  obtain ⟨-, hs⟩ := unless_ok.mp hs
  split at hs
  · cases hs
    exact h.shrink ho rfl (Nat.le_refl _) rfl rfl (hmove _)
  · cases hs
    refine h.shrink ho rfl (Nat.le_refl _) rfl rfl fun q hq => hmove .outside q ?_
    simp only [Logger.wakeup] at hq
    split at hq
    · cases hq
    · exact hq

theorem Roomy.commitStep {c : CommitAt} (hp : s.place p = .commit c) :
    Roomy (s.commitStep p c) := by
  have hmove : ∀ x q, x ≠ .inside → (s.move p x).place q = .inside → s.place q = .inside := by
    intro x q hx hq
    by_cases hqp : q = p
    · subst q
      exact absurd (by simpa [move] using hq) hx
    · simpa [move, hqp] using hq
  have ho := h.orderly.commitStep hp
  cases c with
  | leave =>
    refine h.shrink ho rfl (Nat.le_refl _) rfl rfl fun q hq => hmove .outside q (by simp) ?_
    simp only [Logger.commitStep, Logger.wakeup] at hq
    split at hq
    · cases hq
    · exact hq
  | clear => exact h.shrink ho rfl (Nat.zero_le _) rfl rfl fun q => hmove _ q (by simp)
  | enter | writeLog tail | writeHead | install tail | eraseHead =>
    exact h.shrink ho rfl (Nat.le_refl _) rfl rfl fun q => hmove _ q (by simp)

theorem Roomy.act {a : LogAct n} (hw : Within (MAXOPBLOCKS - 1) s a) (hs : s.act a = .ok s') :
    Roomy s' := by
  have ho := h.orderly.act hs
  cases a with
  | beginOp p =>
    obtain ⟨hp, hs⟩ := guard_ok.mp hs
    cases hs
    exact h.beginOp hp
  | logWrite p b =>
    obtain ⟨hp, hs⟩ := guard_ok.mp hs
    exact h.logWrite hp hw hs
  | endOp p =>
    obtain ⟨hp, hs⟩ := guard_ok.mp hs
    exact h.endOp hp hs
  | commit p =>
    simp only [Logger.act] at hs
    split at hs
    · rename_i c hp
      cases hs
      exact h.commitStep hp
    · cases hs
  | kill p =>
    obtain ⟨-, hs⟩ := guard_ok.mp hs
    cases hs
    refine h.shrink ho rfl (Nat.le_refl _) rfl rfl fun q hq => ?_
    by_cases hqp : q = p
    · simp [move, hqp] at hq
    · simpa [move, hqp] using hq

end

end Roomy

/-- With the log of `mkfs`, in every interleaving in which no operation logs more than nine
different blocks, `log_write` has room. -/
theorem log_write_has_room (n : Nat) (acts : List (LogAct n)) (s : Logger n)
    (hal : Run.Along (Shared.step Logger.act) (Within (MAXOPBLOCKS - 1)) (boot n LOGSIZE) acts)
    (hrun : Run.exec (Shared.step Logger.act) (boot n LOGSIZE) acts = some s) (p : Fin n)
    (b : Nat) : s.act (.logWrite p b) ≠ .error (.panic "too big a transaction") := by
  have hboot : Roomy (boot n LOGSIZE) := by
    refine ⟨boot_orderly n LOGSIZE, rfl, fun p hp => ?_, ?_⟩
    · simp [boot] at hp
    · simp [boot, spare]
  have hr : Roomy s := Run.exec_inv (fun hi hw hs => hi.act hw (Shared.step_eq_some.mp hs)) hboot
    hal hrun
  have hn := hr.lt
  simp only [Logger.act]
  split
  · unfold Logger.logWrite
    rw [if_neg]
    · split <;> simp
    · rw [hr.size]
      simp only [LOGSIZE]
      omega
  · simp

def threeFull (p q r : Fin 3) : List (LogAct 3) :=
  [.beginOp p, .beginOp q, .beginOp r] ++ (List.range 10).map (fun i => .logWrite p (100 + i)) ++
    (List.range 10).map (fun i => .logWrite q (110 + i)) ++
    (List.range 9).map fun i => .logWrite r (120 + i)

theorem log_write_has_room_sharedTxn : ∃ s : Logger 2,
    Run.Along (Shared.step Logger.act) (Within (MAXOPBLOCKS - 1)) (boot 2 LOGSIZE) (sharedTxn 0 1) ∧
    Run.exec (Shared.step Logger.act) (boot 2 LOGSIZE) (sharedTxn 0 1) = some s ∧
    ∀ p b, s.act (.logWrite p b) ≠ .error (.panic "too big a transaction") := by
  have hal : Run.Along (Shared.step Logger.act) (Within (MAXOPBLOCKS - 1)) (boot 2 LOGSIZE)
      (sharedTxn 0 1) := by decide +kernel
  have hsome : (Run.exec (Shared.step Logger.act) (boot 2 LOGSIZE) (sharedTxn 0 1)).isSome = true := by
    decide +kernel
  obtain ⟨s, hs⟩ := Option.isSome_iff_exists.mp hsome
  exact ⟨s, hal, hs, log_write_has_room 2 (sharedTxn 0 1) s hal hs⟩

/-- The tenth block of the third operation is one too many. -/
theorem third_operation_too_big : ∃ s : Logger 3,
    Run.exec (Shared.step Logger.act) (boot 3 LOGSIZE) (threeFull 0 1 2) = some s ∧
    Run.Along (Shared.step Logger.act) (Within MAXOPBLOCKS) (boot 3 LOGSIZE)
      (threeFull 0 1 2 ++ [.logWrite 2 129]) ∧
    s.act (.logWrite 2 129) = .error (.panic "too big a transaction") := by
  have hal : Run.Along (Shared.step Logger.act) (Within MAXOPBLOCKS) (boot 3 LOGSIZE)
      (threeFull 0 1 2 ++ [.logWrite 2 129]) := by decide +kernel
  have hrun : (Run.exec (Shared.step Logger.act) (boot 3 LOGSIZE) (threeFull 0 1 2)).map
      (fun s => Prog.stopped (s.act (.logWrite 2 129))) =
      some (some (.panic "too big a transaction")) := by decide +kernel
  obtain ⟨s, hs, hst⟩ := Option.map_eq_some_iff.mp hrun
  exact ⟨s, hs, hal, Prog.stopped_eq_some.mp hst⟩

end Xv6Audit.Log.Logger
