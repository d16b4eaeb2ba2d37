import Mathlib.Tactic.Common
import Mathlib.Tactic.NormNum

/-! Little-endian words of 64 bits over bytes. -/
namespace Xv6Audit.Words

def word (b : Nat → UInt8) (i : Nat) : UInt64 :=
  UInt64.ofNat ((b (8*i)).toNat + 256 * ((b (8*i+1)).toNat + 256 * ((b (8*i+2)).toNat +
    256 * ((b (8*i+3)).toNat + 256 * ((b (8*i+4)).toNat + 256 * ((b (8*i+5)).toNat +
    256 * ((b (8*i+6)).toNat + 256 * (b (8*i+7)).toNat)))))))

def byteOf (w : UInt64) (k : Nat) : UInt8 := UInt8.ofNat (w.toNat / 256 ^ k)

def setWord (b : Nat → UInt8) (i : Nat) (w : UInt64) : Nat → UInt8 := fun k =>
  if k / 8 = i then byteOf w (k % 8) else b k

variable (b : Nat → UInt8) (i j : Nat) (w : UInt64)

theorem word_congr {b c : Nat → UInt8} {i : Nat} (h : ∀ k, k < 8 → b (8*i+k) = c (8*i+k)) :
    word b i = word c i := by
  have h0 : b (8*i) = c (8*i) := h 0 (by decide)
  simp only [word, h0, h 1 (by decide), h 2 (by decide), h 3 (by decide), h 4 (by decide),
    h 5 (by decide), h 6 (by decide), h 7 (by decide)]

@[simp] theorem word_zero : word (fun _ => 0) i = 0 := rfl

theorem setWord_self (k : Nat) (hk : k < 8) : setWord b i w (8*i+k) = byteOf w k := by
  have hdiv : (8*i+k) / 8 = i := by omega
  have hmod : (8*i+k) % 8 = k := by omega
  rw [setWord, if_pos hdiv, hmod]

theorem setWord_other {k : Nat} (hk : k / 8 ≠ i) : setWord b i w k = b k := if_neg hk

theorem word_bytes {b : Nat → UInt8} (h : ∀ k, k < 8 → b (8*i+k) = byteOf w k) : word b i = w := by
  have h0 : b (8*i) = byteOf w 0 := h 0 (by decide)
  have hw := w.toNat_lt
  rw [← UInt64.toNat_inj]
  simp only [word, h0, h 1 (by decide), h 2 (by decide), h 3 (by decide), h 4 (by decide),
    h 5 (by decide), h 6 (by decide), h 7 (by decide), byteOf, UInt8.toNat_ofNat',
    UInt64.toNat_ofNat']
  norm_num
  omega

theorem word_setWord : word (setWord b i w) j = if j = i then w else word b j := by
  by_cases h : j = i
  · subst h
    rw [if_pos rfl]
    exact word_bytes j w fun k hk => setWord_self b j w k hk
  · rw [if_neg h]
    exact word_congr fun k hk => setWord_other b i w (by omega)

end Xv6Audit.Words
