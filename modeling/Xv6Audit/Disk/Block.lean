import Mathlib.Logic.Function.Basic
import Mathlib.Tactic.Common

/-! A disk block as bytes, and the little-endian 32-bit words the kernel overlays on it
(`struct logheader`, the `uint` array of an indirect block). -/
namespace Xv6Audit.Disk

def BSIZE : Nat := 1024

def Block : Type := Fin BSIZE → UInt8

namespace Block

def zero : Block := fun _ => 0

def byte (b : Block) (k : Nat) : UInt8 := if h : k < BSIZE then b ⟨k, h⟩ else 0

def setByte (b : Block) (k : Nat) (v : UInt8) : Block := fun i => if i.val = k then v else b i

@[simp] theorem byte_zero (k : Nat) : zero.byte k = 0 := by
  simp [byte, zero]

theorem byte_setByte (b : Block) (k j : Nat) (v : UInt8) (hk : k < BSIZE) :
    (b.setByte k v).byte j = if j = k then v else b.byte j := by
  by_cases hj : j < BSIZE
  · simp [byte, setByte, hj]
  · have hjk : j ≠ k := by omega
    simp [byte, hj, hjk]

def word (b : Block) (i : Nat) : Nat :=
  (b.byte (4*i)).toNat + 256 * (b.byte (4*i+1)).toNat + 65536 * (b.byte (4*i+2)).toNat +
    16777216 * (b.byte (4*i+3)).toNat

def setWord (b : Block) (i v : Nat) : Block :=
  (((b.setByte (4*i) (UInt8.ofNat v)).setByte (4*i+1) (UInt8.ofNat (v / 256))).setByte (4*i+2)
    (UInt8.ofNat (v / 65536))).setByte (4*i+3) (UInt8.ofNat (v / 16777216))

@[simp] theorem word_zero (i : Nat) : zero.word i = 0 := by
  simp [word]

theorem word_lt (b : Block) (i : Nat) : b.word i < 4294967296 := by
  have h0 := (b.byte (4*i)).toNat_lt
  have h1 := (b.byte (4*i+1)).toNat_lt
  have h2 := (b.byte (4*i+2)).toNat_lt
  have h3 := (b.byte (4*i+3)).toNat_lt
  simp only [word]
  omega

theorem byte_setWord_other (b : Block) (i v k : Nat) (hi : i < 256)
    (hk : k < 4*i ∨ 4*i+3 < k) : (b.setWord i v).byte k = b.byte k := by
  unfold setWord
  rw [byte_setByte _ _ _ _ (by unfold BSIZE; omega), if_neg (by omega),
    byte_setByte _ _ _ _ (by unfold BSIZE; omega), if_neg (by omega),
    byte_setByte _ _ _ _ (by unfold BSIZE; omega), if_neg (by omega),
    byte_setByte _ _ _ _ (by unfold BSIZE; omega), if_neg (by omega)]

theorem word_setWord_self (b : Block) (i v : Nat) (hi : i < 256) (hv : v < 4294967296) :
    (b.setWord i v).word i = v := by
  have h0 : 4*i < BSIZE := by unfold BSIZE; omega
  have h1 : 4*i+1 < BSIZE := by unfold BSIZE; omega
  have h2 : 4*i+2 < BSIZE := by unfold BSIZE; omega
  have h3 : 4*i+3 < BSIZE := by unfold BSIZE; omega
  simp only [word, setWord, byte_setByte _ _ _ _ h0, byte_setByte _ _ _ _ h1,
    byte_setByte _ _ _ _ h2, byte_setByte _ _ _ _ h3, UInt8.toNat_ofNat', if_true]
  simp
  omega

theorem word_setWord (b : Block) (i j v : Nat) (hi : i < 256) (hv : v < 4294967296) :
    (b.setWord i v).word j = if j = i then v else b.word j := by
  by_cases hij : j = i
  · subst j
    rw [if_pos rfl, word_setWord_self b i v hi hv]
  · rw [if_neg hij]
    unfold word
    rw [byte_setWord_other b i v _ hi (by omega), byte_setWord_other b i v _ hi (by omega),
      byte_setWord_other b i v _ hi (by omega), byte_setWord_other b i v _ hi (by omega)]

end Block
end Xv6Audit.Disk
