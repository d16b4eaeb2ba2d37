import Mathlib.Data.Nat.ModEq
import Mathlib.Tactic.Ring

/-! A ring buffer whose two counters run freely and wrap. The size divides the range of the
counters, so that the place of an element does not move when they do. -/
namespace Xv6Audit
open Function

structure Ring (α : Type*) (w : Nat) where
  data : Nat → α
  nread : BitVec w
  nwrite : BitVec w

namespace Ring
variable {α : Type*} {w : Nat}

def used (r : Ring α w) : Nat := (r.nwrite - r.nread).toNat

def put (size : Nat) (r : Ring α w) (a : α) : Ring α w :=
  { r with data := update r.data (r.nwrite.toNat % size) a, nwrite := r.nwrite + 1 }

def front (size : Nat) (r : Ring α w) : α := r.data (r.nread.toNat % size)

def drop (r : Ring α w) : Ring α w := { r with nread := r.nread + 1 }

def contents (size : Nat) (r : Ring α w) : List α :=
  (List.range r.used).map fun j => r.data ((r.nread.toNat + j) % size)

variable {size : Nat} {r : Ring α w}

theorem toNat_one (h : 1 < 2 ^ w) : (1#w).toNat = 1 := by
  rw [BitVec.toNat_ofNat, Nat.mod_eq_of_lt h]

theorem add_toNat_mod (hdvd : size ∣ 2 ^ w) (x y : BitVec w) :
    (x + y).toNat % size = (x.toNat + y.toNat) % size := by
  rw [BitVec.toNat_add, Nat.mod_mod_of_dvd _ hdvd]

theorem nwrite_eq (r : Ring α w) : r.nwrite = r.nread + (r.nwrite - r.nread) := by
  rw [BitVec.add_comm, BitVec.sub_add_cancel]

theorem nwrite_mod (hdvd : size ∣ 2 ^ w) (r : Ring α w) :
    r.nwrite.toNat % size = (r.nread.toNat + r.used) % size := by
  conv_lhs => rw [nwrite_eq r]
  exact add_toNat_mod hdvd _ _

theorem used_eq_size_iff (hsize : size < 2 ^ w) :
    r.used = size ↔ r.nwrite = r.nread + BitVec.ofNat w size := by
  have hto : (BitVec.ofNat w size).toNat = size := by
    rw [BitVec.toNat_ofNat, Nat.mod_eq_of_lt hsize]
  constructor
  · intro h
    have hd : r.nwrite - r.nread = BitVec.ofNat w size :=
      BitVec.eq_of_toNat_eq (h.trans hto.symm)
    rw [← hd]
    exact nwrite_eq r
  · intro h
    unfold used
    rw [h, BitVec.add_comm, BitVec.add_sub_cancel]
    exact hto

theorem used_eq_zero_iff : r.used = 0 ↔ r.nread = r.nwrite := by
  constructor
  · intro h
    have hd : r.nwrite - r.nread = 0#w := BitVec.eq_of_toNat_eq (h.trans (by simp))
    rw [nwrite_eq r, hd, BitVec.add_zero]
  · intro h
    unfold used
    rw [h, BitVec.sub_self]
    rfl

theorem place_ne {base i j : Nat} (hij : i < j) (hj : j < i + size) :
    (base + i) % size ≠ (base + j) % size := by
  intro h
  have hdvd : size ∣ (base + j) - (base + i) :=
    (Nat.modEq_iff_dvd' (by omega)).mp h
  have hle := Nat.le_of_dvd (by omega) hdvd
  omega

theorem contents_put (hdvd : size ∣ 2 ^ w) (hsize : size < 2 ^ w) (hroom : r.used < size) (a : α) :
    (r.put size a).used = r.used + 1 ∧
      (r.put size a).contents size = r.contents size ++ [a] := by
  have hused : (r.put size a).used = r.used + 1 := by
    have hd : r.nwrite + 1#w - r.nread = (r.nwrite - r.nread) + 1#w := by
      conv_lhs => rw [nwrite_eq r]
      rw [BitVec.add_assoc, BitVec.add_comm, BitVec.add_sub_cancel]
    change (r.nwrite + 1#w - r.nread).toNat = _
    have hlt : (r.nwrite - r.nread).toNat + 1 < 2 ^ w := by
      have : (r.nwrite - r.nread).toNat < size := hroom
      omega
    rw [hd, BitVec.toNat_add, toNat_one (by omega), Nat.mod_eq_of_lt hlt]
    rfl
  refine ⟨hused, ?_⟩
  unfold contents
  rw [hused, List.range_succ, List.map_append]
  congr 1
  · refine List.map_congr_left fun j hj => ?_
    have hj' := List.mem_range.mp hj
    refine update_of_ne ?_ _ _
    rw [nwrite_mod hdvd]
    exact place_ne hj' (by omega)
  · change [update r.data (r.nwrite.toNat % size) a ((r.nread.toNat + r.used) % size)] = [a]
    rw [nwrite_mod hdvd, update_self]

theorem used_eq_succ (hw : 1 < 2 ^ w) (hne : r.nread ≠ r.nwrite) :
    r.used = (r.nwrite - r.nread - 1#w).toNat + 1 := by
  have hone : (1#w).toNat = 1 := toNat_one hw
  have hne0 : r.used ≠ 0 := fun h => hne (used_eq_zero_iff.mp h)
  have hle : 1#w ≤ r.nwrite - r.nread := by
    rw [BitVec.le_def, hone]
    exact Nat.one_le_iff_ne_zero.mpr hne0
  rw [BitVec.toNat_sub_of_le hle, hone]
  exact (Nat.succ_pred hne0).symm

theorem contents_drop (hdvd : size ∣ 2 ^ w) (hsize : size < 2 ^ w) (hpos : 0 < size)
    (hne : r.nread ≠ r.nwrite) :
    r.used = r.drop.used + 1 ∧ r.contents size = r.front size :: r.drop.contents size := by
  have hone : (1#w).toNat = 1 := toNat_one (by omega)
  have hused : r.used = r.drop.used + 1 := by
    change r.used = (r.nwrite - (r.nread + 1#w)).toNat + 1
    rw [← BitVec.sub_sub]
    exact used_eq_succ (by omega) hne
  refine ⟨hused, ?_⟩
  unfold contents
  rw [hused, List.range_succ_eq_map, List.map_cons, List.map_map]
  congr 1
  refine List.map_congr_left fun j _ => ?_
  change r.data ((r.nread.toNat + (j + 1)) % size) = r.data (((r.nread + 1#w).toNat + j) % size)
  rw [Nat.add_mod (r.nread + 1#w).toNat, add_toNat_mod hdvd, hone, ← Nat.add_mod]
  congr 2
  ring

def unput (r : Ring α w) : Ring α w := { r with nwrite := r.nwrite - 1 }

def last (size : Nat) (r : Ring α w) : α := r.data ((r.nwrite - 1).toNat % size)

theorem contents_unput (hdvd : size ∣ 2 ^ w) (hsize : size < 2 ^ w) (hpos : 0 < size)
    (hne : r.nread ≠ r.nwrite) :
    r.used = r.unput.used + 1 ∧ r.contents size = r.unput.contents size ++ [r.last size] := by
  have hused : r.used = r.unput.used + 1 := by
    change r.used = (r.nwrite - 1#w - r.nread).toNat + 1
    rw [BitVec.sub_sub, BitVec.add_comm, ← BitVec.sub_sub]
    exact used_eq_succ (by omega) hne
  refine ⟨hused, ?_⟩
  have hlast : r.last size = r.data ((r.nread.toNat + r.unput.used) % size) :=
    congrArg r.data (nwrite_mod hdvd r.unput)
  unfold contents
  rw [hused, List.range_succ, List.map_append, hlast]
  rfl

theorem contents_length (size : Nat) (r : Ring α w) : (r.contents size).length = r.used := by
  simp [contents]

end Ring

end Xv6Audit
