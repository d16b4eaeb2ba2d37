import Mathlib.Logic.Function.Basic
import Mathlib.Tactic.Common

/-! `copyout` of `kernel/vm.c` through a user page table. -/
namespace Xv6Audit.Vm

def PGSIZE : Nat := 4096

def pgRoundDown (va : UInt64) : UInt64 := va - va % UInt64.ofNat PGSIZE

/-- A user address space: what `walkaddr` answers for the pages (the frame, if the page is
valid and the user's), and physical memory. Frames are pages of their own. -/
structure User where
  walkaddr : UInt64 → Option Nat
  mem : Nat → UInt8
  aligned : ∀ va pa, walkaddr va = some pa → PGSIZE ∣ pa
  apart : ∀ va va' pa, walkaddr va = some pa → walkaddr va' = some pa → va = va'

def memmove (mem : Nat → UInt8) (pa : Nat) : List UInt8 → Nat → UInt8
  | [] => mem
  | b :: bs => memmove (Function.update mem pa b) (pa + 1) bs

namespace User

def store (u : User) (pa : Nat) (bs : List UInt8) : User := { u with mem := memmove u.mem pa bs }

def copyoutLoop : Nat → User → UInt64 → List UInt8 → Bool × User
  | 0, u, _, _ => (true, u)
  | k+1, u, dstva, src =>
    if src = [] then (true, u)
    else
      let va0 := pgRoundDown dstva
      match u.walkaddr va0 with
      | none => (false, u)
      | some pa0 =>
        let n := min (PGSIZE - (dstva - va0).toNat) src.length
        copyoutLoop k (u.store (pa0 + (dstva - va0).toNat) (src.take n))
          (va0 + UInt64.ofNat PGSIZE) (src.drop n)

def copyout (u : User) (dstva : UInt64) (src : List UInt8) : Bool × User :=
  copyoutLoop src.length u dstva src

def locate (u : User) (va : UInt64) : Option Nat :=
  (u.walkaddr (pgRoundDown va)).map fun pa => pa + (va - pgRoundDown va).toNat

def byte (u : User) (va : UInt64) : Option UInt8 := (u.locate va).map u.mem

def Mapped (u : User) (va : UInt64) : Prop := (u.walkaddr (pgRoundDown va)).isSome

instance (u : User) (va : UInt64) : Decidable (u.Mapped va) :=
  inferInstanceAs (Decidable (_ = true))

theorem pageOffset (va : UInt64) : (va - pgRoundDown va).toNat = va.toNat % PGSIZE := by
  have hsize : (UInt64.ofNat PGSIZE).toNat = PGSIZE := rfl
  have hmod : (va % UInt64.ofNat PGSIZE).toNat = va.toNat % PGSIZE := by
    rw [UInt64.toNat_mod, hsize]
  have hback : va - (va - va % UInt64.ofNat PGSIZE) = va % UInt64.ofNat PGSIZE := by
    rw [UInt64.sub_eq_iff_eq_add, UInt64.add_comm, UInt64.sub_add_cancel]
  unfold pgRoundDown
  rw [hback, hmod]

theorem pgRoundDown_add (va : UInt64) : pgRoundDown va + (va - pgRoundDown va) = va := by
  rw [UInt64.add_comm, UInt64.sub_add_cancel]

theorem locate_inj {u : User} {va va' : UInt64} {a : Nat} (h : u.locate va = some a)
    (h' : u.locate va' = some a) : va = va' := by
  obtain ⟨pa, hpa, rfl⟩ := Option.map_eq_some_iff.mp h
  obtain ⟨pa', hpa', heq⟩ := Option.map_eq_some_iff.mp h'
  rw [pageOffset, pageOffset] at heq
  obtain ⟨c, rfl⟩ := u.aligned _ _ hpa
  obtain ⟨c', rfl⟩ := u.aligned _ _ hpa'
  have hoff : va'.toNat % PGSIZE = va.toNat % PGSIZE := by
    have := congrArg (· % PGSIZE) heq
    simpa [Nat.mul_add_mod] using this
  have hframe : PGSIZE * c' = PGSIZE * c := by omega
  rw [hframe] at hpa'
  have hpage := u.apart _ _ _ hpa hpa'
  have hoff' : va - pgRoundDown va = va' - pgRoundDown va' := by
    rw [← UInt64.toNat_inj, pageOffset, pageOffset, hoff]
  rw [← pgRoundDown_add va, ← pgRoundDown_add va', ← hpage, hoff', hpage]

theorem copyout_one (u : User) (va : UInt64) (b : UInt8) :
    u.copyout va [b] = match u.locate va with
      | none => (false, u)
      | some a => (true, u.store a [b]) := by
  unfold copyout locate
  simp only [List.length_singleton, copyoutLoop, List.cons_ne_nil, if_false]
  cases hw : u.walkaddr (pgRoundDown va) with
  | none => rfl
  | some pa0 =>
    have hroom : (va - pgRoundDown va).toNat < PGSIZE := by
      rw [pageOffset]
      exact Nat.mod_lt _ (by decide)
    have hn : min (PGSIZE - (va - pgRoundDown va).toNat) [b].length = 1 := by
      rw [List.length_singleton]
      omega
    rw [List.length_singleton] at hn
    simp only [hn, Option.map_some, List.take_succ_cons, List.take_zero]

theorem locate_store (u : User) (a : Nat) (bs : List UInt8) (va : UInt64) :
    (u.store a bs).locate va = u.locate va := rfl

theorem byte_store_self {u : User} {va : UInt64} {a : Nat} (h : u.locate va = some a) (b : UInt8) :
    (u.store a [b]).byte va = some b := by
  unfold byte
  rw [locate_store, h]
  simp [store, memmove]

theorem byte_store_other {u : User} {va va' : UInt64} {a : Nat} (h : u.locate va = some a)
    (hne : va' ≠ va) (b : UInt8) : (u.store a [b]).byte va' = u.byte va' := by
  unfold byte
  rw [locate_store]
  cases h' : u.locate va' with
  | none => rfl
  | some a' =>
    have hne' : a' ≠ a := by
      rintro rfl
      exact hne (locate_inj h' h)
    simp [store, memmove, hne']

end User

end Xv6Audit.Vm
