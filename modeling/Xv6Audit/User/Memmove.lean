import Mathlib.Algebra.Ring.Nat
import Mathlib.Logic.Function.Basic
import Mathlib.Tactic.Common

/-! `memmove` of `kernel/string.c` and of `user/ulib.c`. -/
namespace Xv6Audit.Strings
open Function

abbrev Bytes := UInt64 → UInt8

def forward : Nat → UInt64 → UInt64 → Bytes → Bytes
  | 0, _, _, m => m
  | n+1, d, s, m => forward n (d + 1) (s + 1) (update m d (m s))

def backward : Nat → UInt64 → UInt64 → Bytes → Bytes
  | 0, _, _, m => m
  | n+1, d, s, m => backward n (d - 1) (s - 1) (update m (d - 1) (m (s - 1)))

def memmove (dst src : UInt64) (n : UInt32) (m : Bytes) : Bytes :=
  if n = 0 then m
  else if src < dst ∧ src + n.toUInt64 > dst then
    backward n.toNat (dst + n.toUInt64) (src + n.toUInt64) m
  else forward n.toNat dst src m

def umemmove (dst src : UInt64) (n : Int32) (m : Bytes) : Bytes :=
  if src > dst then forward n.toInt.toNat dst src m
  else backward n.toInt.toNat (dst + UInt64.ofInt n.toInt) (src + UInt64.ofInt n.toInt) m

structure Moved (m m' : Bytes) (dst src : UInt64) (k : Nat) : Prop where
  copied : ∀ j, j < k → m' (dst + UInt64.ofNat j) = m (src + UInt64.ofNat j)
  same : ∀ a, (∀ j, j < k → a ≠ dst + UInt64.ofNat j) → m' a = m a

section
variable {d s : UInt64} {k j : Nat} {m : Bytes}

theorem toNat_offset (h : d.toNat + k < 2 ^ 64) (hj : j ≤ k) :
    (d + UInt64.ofNat j).toNat = d.toNat + j := by
  rw [UInt64.toNat_add, UInt64.toNat_ofNat']
  omega

theorem succ_offset (d : UInt64) (j : Nat) : d + 1 + UInt64.ofNat j = d + UInt64.ofNat (j + 1) := by
  rw [UInt64.ofNat_add, UInt64.add_assoc, UInt64.add_comm 1]
  rfl

section
variable (hd : d.toNat + k < 2 ^ 64) (hs : s.toNat + k < 2 ^ 64)
include hd hs

theorem offset_ne {i : Nat} (hi : i ≤ k) (hj : j ≤ k) (hne : s.toNat + i ≠ d.toNat + j) :
    s + UInt64.ofNat i ≠ d + UInt64.ofNat j := by
  intro he
  have := congrArg UInt64.toNat he
  rw [toNat_offset hs hi, toNat_offset hd hj] at this
  exact hne this

theorem forward_moved (h : d.toNat ≤ s.toNat ∨ s.toNat + k ≤ d.toNat) :
    Moved m (forward k d s m) d s k := by
  induction k generalizing d s m with
  | zero => exact ⟨fun j hj => absurd hj (Nat.not_lt_zero j), fun _ _ => rfl⟩
  | succ k ih =>
    have hd1 : (d + 1).toNat = d.toNat + 1 := toNat_offset hd (Nat.le_add_left 1 k)
    have hs1 : (s + 1).toNat = s.toNat + 1 := toNat_offset hs (Nat.le_add_left 1 k)
    have hm := ih (d := d + 1) (s := s + 1) (m := update m d (m s)) (by omega) (by omega)
      (by omega)
    have hzero : ∀ a : UInt64, a + UInt64.ofNat 0 = a := fun a => UInt64.add_zero a
    refine ⟨fun j hj => ?_, fun a ha => ?_⟩
    · cases j with
      | zero =>
        -- the first byte is not written again
        rw [hzero, hzero, forward, hm.same, update_self]
        intro j hj he
        rw [succ_offset] at he
        refine offset_ne hd hd (Nat.zero_le _) (by omega : j + 1 ≤ k + 1) ?_ ((hzero d).trans he)
        omega
      | succ j =>
        have hcopy := hm.copied j (Nat.lt_of_succ_lt_succ hj)
        rw [succ_offset, succ_offset] at hcopy
        rw [forward, hcopy, update_of_ne]
        intro he
        refine offset_ne hd hs (Nat.le_of_lt hj) (Nat.zero_le _) ?_ (he.trans (hzero d).symm)
        omega
    · rw [forward, hm.same a fun j hj => ?_, update_of_ne]
      · exact fun he => ha 0 (Nat.zero_lt_succ k) (he.trans (hzero d).symm)
      · rw [succ_offset]
        exact ha (j + 1) (Nat.succ_lt_succ hj)

theorem backward_moved (h : s.toNat ≤ d.toNat ∨ d.toNat + k ≤ s.toNat) :
    Moved m (backward k (d + UInt64.ofNat k) (s + UInt64.ofNat k) m) d s k := by
  induction k generalizing m with
  | zero => exact ⟨fun j hj => absurd hj (Nat.not_lt_zero j), fun _ _ => rfl⟩
  | succ k ih =>
    have hpred : ∀ a : UInt64, a + UInt64.ofNat (k + 1) - 1 = a + UInt64.ofNat k := by
      intro a
      rw [UInt64.ofNat_add, ← UInt64.add_assoc]
      exact UInt64.add_sub_cancel _ _
    rw [backward, hpred, hpred]
    have hm := ih (m := update m (d + UInt64.ofNat k) (m (s + UInt64.ofNat k)))
      (by omega) (by omega) (by omega)
    refine ⟨fun j hj => ?_, fun a ha => ?_⟩
    · by_cases hjk : j = k
      · -- the last byte is not written again
        rw [hjk, hm.same, update_self]
        intro i hi
        exact offset_ne hd hd (Nat.le_succ k) (by omega) (by omega)
      · rw [hm.copied j (by omega), update_of_ne]
        exact offset_ne hd hs (by omega) (Nat.le_succ k) (by omega)
    · rw [hm.same a fun j hj => ha j (by omega), update_of_ne]
      exact ha k (Nat.lt_succ_self k)

end

theorem Moved.unique {m₁ m₂ : Bytes} (h₁ : Moved m m₁ d s k) (h₂ : Moved m m₂ d s k) : m₁ = m₂ := by
  funext a
  by_cases ha : ∀ j, j < k → a ≠ d + UInt64.ofNat j
  · rw [h₁.same a ha, h₂.same a ha]
  · push Not at ha
    obtain ⟨j, hj, rfl⟩ := ha
    rw [h₁.copied j hj, h₂.copied j hj]

end

/-- Whatever the positions of the two ranges, both move exactly the bytes that were in the
source; for the same number of bytes they do the same. -/
theorem memmoves_correct (m : Bytes) (dst src : UInt64) :
    (∀ n : UInt32, dst.toNat + n.toNat < 2 ^ 64 → src.toNat + n.toNat < 2 ^ 64 →
      Moved m (memmove dst src n m) dst src n.toNat) ∧
    (∀ n : Int32, dst.toNat + n.toInt.toNat < 2 ^ 64 → src.toNat + n.toInt.toNat < 2 ^ 64 →
      Moved m (umemmove dst src n m) dst src n.toInt.toNat) ∧
    ∀ (n : UInt32) (n' : Int32), n'.toInt.toNat = n.toNat → dst.toNat + n.toNat < 2 ^ 64 →
      src.toNat + n.toNat < 2 ^ 64 → umemmove dst src n' m = memmove dst src n m := by
  have hk : ∀ n : UInt32, dst.toNat + n.toNat < 2 ^ 64 → src.toNat + n.toNat < 2 ^ 64 →
      Moved m (memmove dst src n m) dst src n.toNat := by
    intro n hd hs
    have hn : n.toUInt64 = UInt64.ofNat n.toNat := by simp
    unfold memmove
    by_cases h0 : n = 0
    · rw [if_pos h0, h0]
      exact ⟨fun j hj => absurd hj (Nat.not_lt_zero j), fun _ _ => rfl⟩
    · rw [if_neg h0, hn]
      by_cases hover : src < dst ∧ src + UInt64.ofNat n.toNat > dst
      · rw [if_pos hover]
        exact backward_moved hd hs (.inl (Nat.le_of_lt (UInt64.lt_iff_toNat_lt.mp hover.1)))
      · rw [if_neg hover]
        refine forward_moved hd hs ?_
        rw [not_and_or, UInt64.lt_iff_toNat_lt, gt_iff_lt, UInt64.lt_iff_toNat_lt,
          toNat_offset hs (Nat.le_refl _)] at hover
        omega
  have hu : ∀ n : Int32, dst.toNat + n.toInt.toNat < 2 ^ 64 → src.toNat + n.toInt.toNat < 2 ^ 64 →
      Moved m (umemmove dst src n m) dst src n.toInt.toNat := by
    intro n hd hs
    unfold umemmove
    by_cases hgt : src > dst
    · rw [if_pos hgt]
      exact forward_moved hd hs (.inl (Nat.le_of_lt (UInt64.lt_iff_toNat_lt.mp hgt)))
    · rw [if_neg hgt]
      by_cases hneg : n.toInt < 0
      · rw [Int.toNat_of_nonpos (Int.le_of_lt hneg)]
        exact ⟨fun j hj => absurd hj (Nat.not_lt_zero j), fun _ _ => rfl⟩
      · have hn : UInt64.ofInt n.toInt = UInt64.ofNat n.toInt.toNat := by
          rw [UInt64.ofInt]
          congr 1
          have := n.toInt_lt
          omega
        rw [hn]
        refine backward_moved hd hs (.inl ?_)
        rw [gt_iff_lt, UInt64.lt_iff_toNat_lt] at hgt
        omega
  exact ⟨hk, hu, fun n n' hnn hd hs => (hu n' (hnn ▸ hd) (hnn ▸ hs)).unique (hnn ▸ hk n hd hs)⟩

/-- Three bytes, one address up. -/
theorem memmoves_correct_overlap :
    memmove 0x1001 0x1000 3 (fun a => a.toUInt8) 0x1003 = 2 ∧
      umemmove 0x1001 0x1000 3 (fun a => a.toUInt8) = memmove 0x1001 0x1000 3 fun a => a.toUInt8 := by
  have h := memmoves_correct (fun a => a.toUInt8) 0x1001 0x1000
  exact ⟨(h.1 3 (by decide) (by decide)).copied 2 (by decide),
    h.2.2 3 3 (by decide) (by decide) (by decide)⟩

end Xv6Audit.Strings
