import Mathlib.Data.List.OfFn
import Xv6Audit.Mkfs.Image
import Xv6Audit.Fs.Content

/-! The format: what `mkfs` stores in a block is what the kernel decodes from it. -/
namespace Xv6Audit.Mkfs

open Prog Disk FileSys

/-! Words. -/

theorem word_setWords (b : Block) (o j : Nat) (ws : List Nat) (ho : o + ws.length ≤ 256)
    (hw : ∀ w ∈ ws, w < U32) :
    (setWords b o ws).word j =
      if o ≤ j ∧ j < o + ws.length then ws.getD (j - o) 0 else b.word j := by
  induction ws generalizing b o with
  | nil => rw [setWords, if_neg (by simp)]
  | cons w ws ih =>
    rw [List.length_cons] at ho
    rw [setWords, ih _ _ (by omega) fun v hv => hw v (List.mem_cons_of_mem _ hv),
      Block.word_setWord _ _ _ _ (by omega) (hw w List.mem_cons_self), List.length_cons]
    by_cases hj : j = o
    · subst j
      rw [if_neg (by omega), if_pos rfl, if_pos (by omega), Nat.sub_self, List.getD_cons_zero]
    · rw [if_neg hj]
      by_cases hin : o + 1 ≤ j ∧ j < o + 1 + ws.length
      · obtain ⟨k, hk⟩ : ∃ k, j - o = k + 1 := ⟨j - o - 1, by omega⟩
        rw [if_pos hin, if_pos (by omega), hk, List.getD_cons_succ]
        congr 1
        omega
      · rw [if_neg hin, if_neg (by omega)]

/-! Dinodes. -/

structure Fields (d : Dinode) : Prop where
  major : -32768 ≤ d.major ∧ d.major < 32768
  minor : -32768 ≤ d.minor ∧ d.minor < 32768
  nlink : -32768 ≤ d.nlink ∧ d.nlink < 32768
  size : d.size < U32
  addrs : ∀ k, d.addrs k < U32

theorem typeOf_typeCode (t : Option InodeType) : typeOf (typeCode t) = t := by
  rcases t with _ | (_ | _ | _) <;> rfl

theorem typeCode_lt (t : Option InodeType) : typeCode t < 65536 := by
  rcases t with _ | (_ | _ | _) <;> decide

theorem toShort_lt (v : Int) : toShort v < 65536 := by
  unfold toShort
  omega

theorem ofShort_toShort {v : Int} (h : -32768 ≤ v ∧ v < 32768) : ofShort (toShort v) = v := by
  unfold ofShort toShort
  split <;> omega

theorem ofShort_range {v : Nat} (h : v < 65536) : -32768 ≤ ofShort v ∧ ofShort v < 32768 := by
  unfold ofShort
  split <;> omega

theorem dinodeWords_length (d : Dinode) : (dinodeWords d).length = 16 := by
  simp [dinodeWords]

theorem dinodeWords_lt {d : Dinode} (h : Fields d) : ∀ w ∈ dinodeWords d, w < U32 := by
  have h1 := typeCode_lt d.type
  have h2 := toShort_lt d.major
  have h3 := toShort_lt d.minor
  have h4 := toShort_lt d.nlink
  intro w hw
  simp only [dinodeWords, List.cons_append, List.nil_append, List.mem_cons, List.mem_ofFn] at hw
  rcases hw with rfl | rfl | rfl | ⟨k, rfl⟩
  · unfold U32
    omega
  · unfold U32
    omega
  · exact h.size
  · exact h.addrs k

theorem dinodeWords_addr (d : Dinode) (k : Fin NADDRS) :
    (dinodeWords d).getD (3 + k) 0 = d.addrs k := by
  have hk : 3 + k.val = k.val + 1 + 1 + 1 := by omega
  have hget : (List.ofFn d.addrs).getD k.val 0 = d.addrs k := by
    rw [List.getD_eq_getElem?_getD, List.getElem?_ofFn, dif_pos k.isLt]
    rfl
  rw [hk]
  exact hget

section Dinodes
variable {d : Dinode} {b : Block} {k : Nat}

theorem putDinode_word (h : Fields d) (hk : k < 16) (j : Nat) : (putDinode b k d).word j =
    if 16 * k ≤ j ∧ j < 16 * k + 16 then (dinodeWords d).getD (j - 16 * k) 0 else b.word j := by
  have hw := word_setWords b (16 * k) j (dinodeWords d) (by rw [dinodeWords_length]; omega)
    (dinodeWords_lt h)
  rwa [dinodeWords_length] at hw

theorem getDinode_put (h : Fields d) (hk : k < 16) : getDinode (putDinode b k d) k = d := by
  have hword : ∀ j, j < 16 → (putDinode b k d).word (16 * k + j) = (dinodeWords d).getD j 0 := by
    intro j hj
    rw [putDinode_word h hk, if_pos (by omega), Nat.add_sub_cancel_left]
  have h0 : (putDinode b k d).word (16 * k) = typeCode d.type + 65536 * toShort d.major :=
    hword 0 (by omega)
  have h1 : (putDinode b k d).word (16 * k + 1) = toShort d.minor + 65536 * toShort d.nlink :=
    hword 1 (by omega)
  have h2 : (putDinode b k d).word (16 * k + 2) = d.size := hword 2 (by omega)
  have h3 : ∀ j : Fin NADDRS, (putDinode b k d).word (16 * k + 3 + j) = d.addrs j := by
    intro j
    rw [Nat.add_assoc, hword (3 + j) (by have : j.val < 13 := j.isLt; omega), dinodeWords_addr]
  have ht := typeCode_lt d.type
  have hm := toShort_lt d.minor
  unfold getDinode
  rw [h0, h1, h2, Nat.add_mul_mod_self_left, Nat.mod_eq_of_lt ht, Nat.add_mul_div_left _ _ (by decide),
    Nat.div_eq_of_lt ht, Nat.add_mul_mod_self_left, Nat.mod_eq_of_lt hm,
    Nat.add_mul_div_left _ _ (by decide), Nat.div_eq_of_lt hm, Nat.zero_add, Nat.zero_add,
    typeOf_typeCode, ofShort_toShort h.major, ofShort_toShort h.minor, ofShort_toShort h.nlink]
  simp only [h3]

theorem getDinode_put_other (h : Fields d) (hk : k < 16) {l : Nat} (hl : l ≠ k) :
    getDinode (putDinode b k d) l = getDinode b l := by
  have hword : ∀ j, j < 16 → (putDinode b k d).word (16 * l + j) = b.word (16 * l + j) := by
    intro j hj
    rw [putDinode_word h hk, if_neg (by omega)]
  have h0 : (putDinode b k d).word (16 * l) = b.word (16 * l) := hword 0 (by omega)
  have h3 : ∀ j : Fin NADDRS, (putDinode b k d).word (16 * l + 3 + j) = b.word (16 * l + 3 + j) := by
    intro j
    rw [Nat.add_assoc]
    exact hword (3 + j) (by have : j.val < 13 := j.isLt; omega)
  unfold getDinode
  rw [h0, hword 1 (by omega), hword 2 (by omega)]
  simp only [h3]

theorem getDinode_fields (b : Block) (k : Nat) : Fields (getDinode b k) := by
  have h0 := b.word_lt (16 * k)
  have h1 := b.word_lt (16 * k + 1)
  exact ⟨ofShort_range (by omega), ofShort_range (by omega), ofShort_range (by omega),
    b.word_lt _, fun _ => b.word_lt _⟩

theorem getDinode_zero : getDinode Block.zero k = unusedDinode := by
  simp [getDinode, unusedDinode, typeOf, ofShort]

end Dinodes

/-! The superblock and the bitmap. -/

theorem readsb_superblock : readsb superblock = sb := by
  have hw : ∀ j, superblock.word j = if 0 ≤ j ∧ j < 0 + 8 then
      [FSMAGIC, sb.size, sb.nblocks, sb.ninodes, nlog, 2, sb.inodestart, sb.bmapstart].getD (j - 0) 0
      else Block.zero.word j := fun j => word_setWords _ _ _ _ (by decide) (by decide)
  simp [readsb, hw]

theorem and_or_left (a b c : UInt8) : a &&& (b ||| c) = a &&& b ||| a &&& c := by
  rw [← UInt8.toBitVec_inj, UInt8.toBitVec_and, UInt8.toBitVec_or, UInt8.toBitVec_or,
    UInt8.toBitVec_and, UInt8.toBitVec_and]
  ext i
  simp [Bool.and_or_distrib_left]

theorem bit_and_bit (i j : Fin 8) : (1 <<< UInt8.ofNat i.val &&& 1 <<< UInt8.ofNat j.val : UInt8) ≠ 0 ↔
    i = j := by
  revert i j
  decide

theorem bitSet_setByte_or (buf : Block) {i b : Nat} (hi : i / 8 < BSIZE) :
    bitSet (buf.setByte (i / 8) (buf.byte (i / 8) ||| (1 <<< UInt8.ofNat (i % 8)))) b =
      (decide (b = i) || bitSet buf b) := by
  unfold bitSet
  rw [Block.byte_setByte _ _ _ _ hi]
  by_cases hb : b / 8 = i / 8
  · have hbit := bit_and_bit ⟨i % 8, Nat.mod_lt _ (by decide)⟩ ⟨b % 8, Nat.mod_lt _ (by decide)⟩
    have hmod : i % 8 = b % 8 ↔ b = i := by omega
    rw [Fin.mk.injEq, hmod] at hbit
    rw [if_pos hb, hb, Bool.eq_iff_iff, UInt8.and_comm, and_or_left]
    simp only [bne_iff_ne, Bool.or_eq_true, decide_eq_true_eq, ← hbit]
    rw [ne_eq, UInt8.or_eq_zero_iff, UInt8.and_comm, UInt8.and_comm (1 <<< UInt8.ofNat (b % 8))]
    tauto
  · rw [if_neg hb]
    have hne : b ≠ i := fun he => hb (he ▸ rfl)
    simp [hne]

theorem bitSet_setBits {used : Nat} (h : used ≤ BSIZE * 8) (b : Nat) :
    bitSet (setBits used) b = decide (b < used) := by
  induction used with
  | zero => simp [setBits, bitSet]
  | succ i ih =>
    have hi : i / 8 < BSIZE := by
      unfold BSIZE at *
      omega
    rw [setBits, bitSet_setByte_or _ hi, ih (by omega), ← Bool.decide_or]
    exact decide_eq_decide.mpr (by omega)

/-! Copies. -/

theorem copyin_eq_bcopy (src : Nat → Option UInt8) (p : List UInt8) (buf : Block) (o tot : Nat)
    (hsrc : ∀ j, (h : j < p.length) → src (tot + j) = some (p.get ⟨j, h⟩)) :
    copyin src buf o tot p.length = (bcopy p buf o, true) := by
  induction p generalizing buf o tot with
  | nil => rfl
  | cons c p ih =>
    have h0 : src tot = some c := hsrc 0 (by simp)
    simp only [List.length_cons, copyin, h0, bcopy]
    refine ih _ _ _ fun j hj => ?_
    rw [Nat.add_assoc, Nat.add_comm 1 j]
    exact hsrc (j + 1) (by simpa using hj)

end Xv6Audit.Mkfs
