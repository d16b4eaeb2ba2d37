import Xv6Audit.Audit.Dispatch

/-! `audit(mask)` and the whitelist it leaves behind (`kernel/syscall.c`, `audit` of
`kernel/proc.c`), and the elements of `whitelisted` and `name_from_num` that `syscall()`
uses. -/
namespace Xv6Audit.Audit
open Function

def audit (num : UInt32) : UInt64 := (num >>> 10).toUInt64

def sysAudit (a0 : UInt64) : UInt64 := audit a0.toUInt32

def auditCall (name : ProcName) (a0 : UInt64) (tick : UInt32) : Call :=
  ⟨⟨name, SYS_audit, none⟩, (sysAudit a0).toUInt32, tick⟩

def maskBit (mask : UInt32) (b : Nat) : Bool := mask.toNat.testBit b

def Decoded (wl : Nat → UInt8) (mask : UInt32) : Prop :=
  ∀ k, 1 ≤ k → k ≤ NUM_SYS_CALLS → (wl (k - 1) = 1 ↔ maskBit mask (32 - k) = true)

def maskIndices (num : UInt32) (i : Nat) : Nat → List Nat
  | 0 => []
  | k+1 =>
    (if num &&& 1 ≠ 0 then [i, NUM_SYS_CALLS - i] else [i]) ++ maskIndices (num >>> 1) (i+1) k

structure Touched where
  whitelisted : List Nat
  names : List Nat
deriving DecidableEq

def touched (wl : Nat → UInt8) (c : Call) : Touched where
  whitelisted :=
    (if c.req.num = SYS_audit then maskIndices c.a0 0 NUM_SYS_CALLS else []) ++ [c.req.num - 1]
  names := if recorded (maskAfter wl c) c then [c.req.num] else []

def Call.accepted (c : Call) : Prop := 0 < c.req.num ∧ c.req.num < Dispatch.NSYSCALLS

instance (c : Call) : Decidable c.accepted := inferInstanceAs (Decidable (_ ∧ _))

def runTouched (wl : Nat → UInt8) : List Call → List Touched
  | [] => []
  | c :: cs =>
    if c.accepted then touched wl c :: runTouched (maskAfter wl c) cs else runTouched wl cs

def Touched.InBounds (t : Touched) : Prop :=
  (∀ i ∈ t.whitelisted, i < NUM_SYS_CALLS) ∧ ∀ i ∈ t.names, i < nameFromNum.length

instance (t : Touched) : Decidable t.InBounds := inferInstanceAs (Decidable (_ ∧ _))

/-! The mask loop. -/

theorem maskBit_zero (num : UInt32) : num &&& 1 ≠ 0 ↔ maskBit num 0 = true := by
  have hval : (num &&& 1).toNat = num.toNat % 2 := by
    rw [UInt32.toNat_and]
    exact Nat.and_one_is_mod _
  rw [maskBit, Nat.testBit_zero, decide_eq_true_eq, ne_eq, ← UInt32.toNat_inj, hval]
  simp

theorem maskBit_half (num : UInt32) (b : Nat) :
    maskBit (num >>> 1) b = maskBit num (1 + b) := by
  rw [maskBit, maskBit, UInt32.toNat_shiftRight]
  exact Nat.testBit_shiftRight _

section
variable (wl : Nat → UInt8)
include wl

theorem maskLoop_kept (num : UInt32) (i k m : Nat)
    (h : ∀ j, i ≤ j → j < i + k → m ≠ j ∧ m ≠ NUM_SYS_CALLS - j) :
    maskLoop wl num i k m = wl m := by
  induction k generalizing wl num i with
  | zero => rfl
  | succ k ih =>
    obtain ⟨hclear, hset⟩ := h i (by omega) (by omega)
    unfold maskLoop
    rw [ih _ _ _ fun j hj hjk => h j (by omega) (by omega)]
    split
    · rw [update_of_ne hset, update_of_ne hclear]
    · rw [update_of_ne hclear]

theorem maskLoop_add (num : UInt32) (i a k : Nat) :
    ∃ rest, (∀ b, maskBit rest b = maskBit num (a + b)) ∧
      maskLoop wl num i (a + k) = maskLoop (maskLoop wl num i a) rest (i + a) k := by
  induction a generalizing wl num i with
  | zero => exact ⟨num, fun b => by rw [Nat.zero_add], by rw [Nat.zero_add]; rfl⟩
  | succ a ih =>
    have hcount : a + 1 + k = (a + k) + 1 := by omega
    rw [hcount]
    obtain ⟨rest, hbits, hrun⟩ := ih
      (if num &&& 1 ≠ 0 then update (update wl i 0) (NUM_SYS_CALLS - i) 1
        else update wl i 0) (num >>> 1) (i + 1)
    refine ⟨rest, fun b => ?_, ?_⟩
    · rw [hbits, maskBit_half]
      congr 1
      omega
    · have hround : i + (a + 1) = i + 1 + a := by omega
      rw [hround]
      exact hrun

theorem maskLoop_cleared (num : UInt32) (m k : Nat)
    (h : ∀ j, m ≤ j → j < m + (k + 1) → m ≠ NUM_SYS_CALLS - j) :
    maskLoop wl num m (k + 1) m = 0 := by
  unfold maskLoop
  rw [maskLoop_kept _ _ _ _ _ fun j hj hjk => ⟨by omega, h j (by omega) (by omega)⟩]
  split
  · rw [update_of_ne (h m le_rfl (by omega)), update_self]
  · rw [update_self]

theorem maskLoop_set (num : UInt32) (m k : Nat) (h1 : 1 ≤ m) (h10 : m ≤ 10) :
    maskLoop wl num (NUM_SYS_CALLS - m) (k + 1) m =
      if maskBit num 0 = true then 1 else wl m := by
  have hround : NUM_SYS_CALLS - (NUM_SYS_CALLS - m) = m := by unfold NUM_SYS_CALLS; omega
  have hne : m ≠ NUM_SYS_CALLS - m := by unfold NUM_SYS_CALLS; omega
  unfold maskLoop
  rw [maskLoop_kept _ _ _ _ _ fun j hj _ => by unfold NUM_SYS_CALLS at *; omega, hround]
  by_cases hb : maskBit num 0 = true
  · rw [if_pos ((maskBit_zero num).mpr hb), update_self, if_pos hb]
  · rw [if_neg fun h => hb ((maskBit_zero num).mp h), update_of_ne hne, if_neg hb]

theorem maskLoop_result (num : UInt32) (m : Nat) (hm : m < NUM_SYS_CALLS) :
    maskLoop wl num 0 NUM_SYS_CALLS m =
      if 1 ≤ m ∧ m ≤ 10 ∧ maskBit num (NUM_SYS_CALLS - m) = true then 1 else 0 := by
  obtain ⟨rest, hbits, hrun⟩ := maskLoop_add wl num 0 m (NUM_SYS_CALLS - m)
  rw [Nat.add_sub_cancel' hm.le, Nat.zero_add] at hrun
  rw [hrun]
  by_cases hlow : 1 ≤ m ∧ m ≤ 10
  · -- rounds `m` to `20 - m` clear the element, round `21 - m` may set it
    obtain ⟨last, hlast, hsplit⟩ :=
      maskLoop_add (maskLoop wl num 0 m) rest m (NUM_SYS_CALLS - m - m) m
    have hclear : maskLoop (maskLoop wl num 0 m) rest m (NUM_SYS_CALLS - m - m) m = 0 := by
      have hk : NUM_SYS_CALLS - m - m = (20 - m - m) + 1 := by unfold NUM_SYS_CALLS; omega
      rw [hk]
      exact maskLoop_cleared _ _ _ _ fun j _ hj => by unfold NUM_SYS_CALLS; omega
    have hbit : maskBit last 0 = maskBit num (NUM_SYS_CALLS - m) := by
      rw [hlast, hbits]
      congr 1
      unfold NUM_SYS_CALLS
      omega
    have hk : m = (m - 1) + 1 := by omega
    rw [Nat.sub_add_cancel (by unfold NUM_SYS_CALLS; omega),
      Nat.add_sub_cancel' (by unfold NUM_SYS_CALLS; omega)] at hsplit
    have hset := maskLoop_set (maskLoop (maskLoop wl num 0 m) rest m (NUM_SYS_CALLS - m - m)) last
      m (m - 1) hlow.1 hlow.2
    rw [← hk] at hset
    rw [hsplit, hset, hbit, hclear]
    simp only [hlow, true_and]
  · obtain ⟨k, hk⟩ : ∃ k, NUM_SYS_CALLS - m = k + 1 := ⟨20 - m, by unfold NUM_SYS_CALLS at *; omega⟩
    rw [hk, if_neg fun h => hlow ⟨h.1, h.2.1⟩]
    exact maskLoop_cleared _ _ _ _ fun j hj _ => by unfold NUM_SYS_CALLS at *; omega

end

/-! What `audit(mask)` leaves. -/

theorem sysAudit_bit (a0 : UInt64) (b : Nat) :
    maskBit (sysAudit a0).toUInt32 b = maskBit a0.toUInt32 (10 + b) := by
  unfold sysAudit audit maskBit
  rw [UInt32.toUInt32_toUInt64, UInt32.toNat_shiftRight]
  exact Nat.testBit_shiftRight _

theorem tail_audit (s : Logger) (name : ProcName) (a0 : UInt64) (tick : UInt32) :
    (tail s (auditCall name a0 tick)).2.whitelisted =
      maskLoop s.whitelisted (sysAudit a0).toUInt32 0 NUM_SYS_CALLS := by
  have hmask : maskAfter s.whitelisted (auditCall name a0 tick) =
      maskLoop s.whitelisted (sysAudit a0).toUInt32 0 NUM_SYS_CALLS := if_pos rfl
  rw [← hmask]
  unfold tail
  dsimp only
  split <;> rfl

/-- The whitelist is what the mask asks for exactly when the mask asks neither for `fork` nor
for any call from `sbrk` to `close`. -/
theorem whitelist_decoded_iff (s : Logger) (name : ProcName) (a0 : UInt64) (tick : UInt32) :
    Decoded (tail s (auditCall name a0 tick)).2.whitelisted a0.toUInt32 ↔
      maskBit a0.toUInt32 31 = false ∧
        ∀ b, 11 ≤ b → b ≤ 20 → maskBit a0.toUInt32 b = false := by
  have hval : ∀ k, 1 ≤ k → k ≤ 21 →
      ((tail s (auditCall name a0 tick)).2.whitelisted (k - 1) = 1 ↔
        (2 ≤ k ∧ k ≤ 11) ∧ maskBit a0.toUInt32 (32 - k) = true) := by
    intro k h1 h21
    have hbit : maskBit (sysAudit a0).toUInt32 (NUM_SYS_CALLS - (k - 1)) =
        maskBit a0.toUInt32 (32 - k) := by
      rw [sysAudit_bit]
      congr 1
      unfold NUM_SYS_CALLS
      omega
    rw [tail_audit, maskLoop_result _ _ _ (by unfold NUM_SYS_CALLS; omega), hbit]
    split
    case isTrue h => exact ⟨fun _ => ⟨by omega, h.2.2⟩, fun _ => rfl⟩
    case isFalse h =>
      constructor
      · intro h0
        exact absurd h0 (by decide)
      · rintro ⟨hk, hb⟩
        exact absurd ⟨by omega, by omega, hb⟩ h
  constructor
  · intro hdec
    have hout : ∀ k, 1 ≤ k → k ≤ 21 → ¬ (2 ≤ k ∧ k ≤ 11) →
        maskBit a0.toUInt32 (32 - k) = false := by
      intro k h1 h21 hk
      by_contra hb
      have hset := (hdec k h1 h21).mpr (by simpa using hb)
      exact hk ((hval k h1 h21).mp hset).1
    refine ⟨hout 1 le_rfl (by omega) (by omega), fun b hb hb' => ?_⟩
    have hk := hout (32 - b) (by omega) (by omega) (by omega)
    rwa [show 32 - (32 - b) = b by omega] at hk
  · rintro ⟨h31, hlow⟩ k h1 h21
    rw [hval k h1 h21]
    refine ⟨fun h => h.2, fun hb => ⟨?_, hb⟩⟩
    by_contra hk
    by_cases hk1 : k = 1
    · subst hk1
      rw [h31] at hb
      cases hb
    · unfold NUM_SYS_CALLS at h21
      rw [hlow (32 - k) (by omega) (by omega)] at hb
      cases hb

def xv6testName : ProcName := ⟨ascii "xv6test", by decide, by decide⟩

def testMask : UInt64 := 0xFFFFFFFFF8000000

/-- After the test's own `audit` call `fork` is not whitelisted. -/
theorem testMask_drops_fork :
    ¬ Decoded (tail (boot fun _ => 0) (auditCall xv6testName testMask 0)).2.whitelisted
        testMask.toUInt32 ∧
      (tail (boot fun _ => 0) (auditCall xv6testName testMask 0)).2.whitelisted 0 = 0 := by
  have hfork : (tail (boot fun _ => 0) (auditCall xv6testName testMask 0)).2.whitelisted 0 = 0 := by
    decide +kernel
  refine ⟨fun hdec => ?_, hfork⟩
  have hset := (hdec 1 le_rfl (by decide)).mpr (by decide)
  rw [Nat.sub_self, hfork] at hset
  cases hset

/-! Indices. -/

theorem touched_inBounds {wl : Nat → UInt8} {c : Call} (h0 : 0 < c.req.num)
    (h : c.req.num ≤ NUM_SYS_CALLS) : (touched wl c).InBounds := by
  have hna : c.req.num ≠ SYS_audit := by unfold NUM_SYS_CALLS at h; unfold SYS_audit; omega
  have hlen : nameFromNum.length = 23 := rfl
  unfold touched Touched.InBounds
  simp only [hna, if_false, List.nil_append, List.mem_singleton, forall_eq]
  unfold NUM_SYS_CALLS at h
  refine ⟨by unfold NUM_SYS_CALLS; omega, fun i hi => ?_⟩
  split at hi
  · obtain rfl : i = c.req.num := by simpa using hi
    omega
  · cases hi

theorem touched_outside {wl : Nat → UInt8} {c : Call} (h : NUM_SYS_CALLS < c.req.num) :
    ¬ (touched wl c).InBounds := by
  intro hin
  have htest := hin.1 (c.req.num - 1) (List.mem_append_right _ (List.mem_singleton_self _))
  omega

/-- The tables are used inside their bounds exactly in the sequences that have neither `audit`
nor `check` in them. -/
theorem tables_in_bounds_iff (wl : Nat → UInt8) (cs : List Call) :
    (∀ t ∈ runTouched wl cs, t.InBounds) ↔
      ∀ c ∈ cs, c.accepted → c.req.num ≤ NUM_SYS_CALLS := by
  induction cs generalizing wl with
  | nil => simp [runTouched]
  | cons c cs ih =>
    rw [List.forall_mem_cons]
    unfold runTouched
    by_cases hc : c.accepted
    · rw [if_pos hc, List.forall_mem_cons, ih]
      refine and_congr_left fun _ => ⟨fun hin _ => ?_, fun h => touched_inBounds hc.1 (h hc)⟩
      by_contra hout
      exact touched_outside (by omega) hin
    · rw [if_neg hc, ih]
      exact ⟨fun h => ⟨fun h' => absurd h' hc, h⟩, fun h => h.2⟩

/-- `audit` with bit 10 set stores to `whitelisted[21]` and reads it, `check` reads
`whitelisted[22]`, and `check` with a nonzero byte there uses `name_from_num[23]`. -/
theorem audit_and_check_outside :
    ¬ (∀ t ∈ runTouched bootWhitelist [auditCall shName 1024 0, ⟨⟨shName, 23, none⟩, 0, 0⟩],
        t.InBounds) ∧
      (touched bootWhitelist (auditCall shName 1024 0)).whitelisted.filter (21 ≤ ·) = [21, 21] ∧
      touched bootWhitelist ⟨⟨shName, 23, none⟩, 0, 0⟩ = ⟨[22], []⟩ ∧
      touched (fun _ => 1) ⟨⟨shName, 23, none⟩, 0, 0⟩ = ⟨[22], [23]⟩ := by
  decide +kernel

end Xv6Audit.Audit
