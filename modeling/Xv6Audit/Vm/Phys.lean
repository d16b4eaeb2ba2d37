import Xv6Audit.Lib.Prog
import Xv6Audit.Lib.Words
import Xv6Audit.Lib.Pool
import Xv6Audit.Vm.Copy
import Xv6Audit.Param

/-! Physical memory by pages, the allocator of `kernel/kalloc.c`, and the entries of page tables
of `kernel/riscv.h`. -/
namespace Xv6Audit.Vm
open Function

open Prog Words

def PHYSPAGES : Nat := 0x88000
def MAXPAGE : Nat := 0x4000000

def MAXVA : UInt64 := (1 : UInt64) <<< (9 + 9 + 9 + 12 - 1)

abbrev Page := Nat → UInt8

/-- Physical memory: address `pa` is byte `pa % PGSIZE` of page `pa / PGSIZE`. The kernel ends
before page `first`. `fails` tells which of the next calls of `kalloc` fail in any case. -/
structure Phys extends Pool Nat Page where
  first : Nat
  fails : List Bool

abbrev VmProg := Prog Phys String

/-! Page-table entries. -/

def PTE_V : UInt64 := 1
def PTE_R : UInt64 := 2
def PTE_W : UInt64 := 4
def PTE_X : UInt64 := 8
def PTE_U : UInt64 := 16

def pa2pte (pa : UInt64) : UInt64 := (pa >>> 12) <<< 10
def pte2pa (pte : UInt64) : UInt64 := (pte >>> 10) <<< 12
def pteFlags (pte : UInt64) : UInt64 := pte &&& 0x3FF

def addr (g : Nat) : UInt64 := UInt64.ofNat (g * PGSIZE)
def pte2page (pte : UInt64) : Nat := (pte2pa pte).toNat / PGSIZE

def valid (pte : UInt64) : Prop := pte &&& PTE_V ≠ 0
def user (pte : UInt64) : Prop := pte &&& PTE_U ≠ 0

instance (pte : UInt64) : Decidable (valid pte) := inferInstanceAs (Decidable (¬ _))
instance (pte : UInt64) : Decidable (user pte) := inferInstanceAs (Decidable (¬ _))

def access (pte : UInt64) : Prop := pte &&& (PTE_R ||| PTE_W ||| PTE_X) ≠ 0

def px (level : Nat) (va : UInt64) : Nat :=
  ((va >>> UInt64.ofNat (12 + 9 * level)) &&& 0x1FF).toNat

def vpn (va : UInt64) : Nat := va.toNat / PGSIZE

namespace Phys

def pte (s : Phys) (t i : Nat) : UInt64 := word (s.mem t) i

def setPage (s : Phys) (g : Nat) (b : Page) : Phys :=
  { s with mem := update s.mem g b }

def setPte (s : Phys) (t i : Nat) (w : UInt64) : Phys := s.setPage t (setWord (s.mem t) i w)

def memset (s : Phys) (g : Nat) (c : UInt8) : Phys := s.setPage g fun _ => c

theorem setPage_self (s : Phys) (g : Nat) (b : Page) : (s.setPage g b).mem g = b :=
  update_self ..

theorem setPage_of_ne (s : Phys) {f g : Nat} (h : f ≠ g) (b : Page) :
    (s.setPage g b).mem f = s.mem f := update_of_ne h _ _

def InRange (s : Phys) (g : Nat) : Prop := s.first ≤ g ∧ g < PHYSPAGES

instance (s : Phys) (g : Nat) : Decidable (s.InRange g) := inferInstanceAs (Decidable (_ ∧ _))

end Phys

def kfree (g : Nat) : VmProg Unit := do
  if (← get).InRange g then
    modify fun s => { s.memset g 1 with free := g :: s.free }
  else throw "kfree"

def kalloc : VmProg (Option Nat) := do
  let s ← get
  if s.fails.head? = some true then do
    set { s with fails := s.fails.tail }
    pure none
  else
    match s.free with
    | [] =>
      set { s with fails := s.fails.tail }
      pure none
    | r :: rest =>
      set { s.memset r 5 with free := rest, fails := s.fails.tail }
      pure (some r)

/-! Arithmetic of entries and addresses. -/

section Bits
variable {pte : UInt64}

theorem valid_iff : valid pte ↔ pte.toNat % 2 = 1 := by
  have hand : (pte &&& PTE_V).toNat = pte.toNat % 2 := by
    rw [UInt64.toNat_and]
    exact Nat.and_one_is_mod _
  rw [valid, ne_eq, ← UInt64.toNat_inj, hand]
  change ¬ pte.toNat % 2 = 0 ↔ _
  omega

theorem not_valid_zero : ¬ valid 0 := by decide

theorem pte2page_eq (pte : UInt64) : pte2page pte = pte.toNat / 1024 % 2 ^ 52 := by
  have h : (pte2pa pte).toNat = pte.toNat / 1024 * 4096 % 2 ^ 64 := by
    rw [pte2pa, UInt64.toNat_shiftLeft, UInt64.toNat_shiftRight]
    simp [Nat.shiftLeft_eq, Nat.shiftRight_eq_div_pow]
  rw [pte2page, h, PGSIZE]
  omega

theorem pteFlags_toNat (pte : UInt64) : (pteFlags pte).toNat = pte.toNat % 1024 := by
  rw [pteFlags, UInt64.toNat_and]
  exact Nat.and_two_pow_sub_one_eq_mod _ 10

theorem pa2pte_toNat (pa : UInt64) : (pa2pte pa).toNat = vpn pa * 1024 := by
  have h := pa.toNat_lt
  have hshift : (pa2pte pa).toNat = pa.toNat / 4096 * 1024 % 2 ^ 64 := by
    rw [pa2pte, UInt64.toNat_shiftLeft, UInt64.toNat_shiftRight]
    simp [Nat.shiftLeft_eq, Nat.shiftRight_eq_div_pow]
  rw [hshift, vpn, PGSIZE]
  omega

theorem leaf_toNat (pa : UInt64) {perm : UInt64} (hp : perm.toNat < 1024) :
    (pa2pte pa ||| perm ||| PTE_V).toNat = vpn pa * 1024 + (perm ||| PTE_V).toNat := by
  have hlt : (perm ||| PTE_V).toNat < 2 ^ 10 := by
    rw [UInt64.toNat_or]
    exact Nat.or_lt_two_pow hp (by decide)
  rw [UInt64.or_assoc, UInt64.toNat_or, pa2pte_toNat, Nat.mul_comm]
  exact (Nat.two_pow_add_eq_or_of_lt hlt _).symm

theorem vpn_lt (va : UInt64) : vpn va < 2 ^ 52 := by
  have h := va.toNat_lt
  unfold vpn PGSIZE
  omega

theorem vpn_addr {g : Nat} (hg : g < 2 ^ 52) : vpn (addr g) = g := by
  unfold vpn addr PGSIZE
  rw [UInt64.toNat_ofNat']
  omega

theorem valid_leaf (pa perm : UInt64) : valid (pa2pte pa ||| perm ||| PTE_V) := by
  rw [valid_iff, UInt64.toNat_or, Nat.or_mod_two_eq_one]
  exact .inr rfl

theorem pte2page_leaf (pa : UInt64) {perm : UInt64} (hp : perm.toNat < 1024) :
    pte2page (pa2pte pa ||| perm ||| PTE_V) = vpn pa := by
  have hlt : (perm ||| PTE_V).toNat < 2 ^ 10 := by
    rw [UInt64.toNat_or]
    exact Nat.or_lt_two_pow hp (by decide)
  have hv := vpn_lt pa
  rw [pte2page_eq, leaf_toNat pa hp]
  omega

theorem pteFlags_leaf (pa : UInt64) {perm : UInt64} (hp : perm.toNat < 1024) :
    pteFlags (pa2pte pa ||| perm ||| PTE_V) = perm ||| PTE_V := by
  have hlt : (perm ||| PTE_V).toNat < 2 ^ 10 := by
    rw [UInt64.toNat_or]
    exact Nat.or_lt_two_pow hp (by decide)
  rw [← UInt64.toNat_inj, pteFlags_toNat, leaf_toNat pa hp]
  omega

theorem and_flags {m : UInt64} (pte : UInt64) (hm : 0x3FF &&& m = m) :
    pte &&& m = pteFlags pte &&& m := by
  rw [pteFlags, UInt64.and_assoc, hm]

theorem table_entry {g : Nat} (hg : g < 2 ^ 52) :
    valid (pa2pte (addr g) ||| PTE_V) ∧ pte2page (pa2pte (addr g) ||| PTE_V) = g ∧
      ¬ access (pa2pte (addr g) ||| PTE_V) := by
  have hzero : pa2pte (addr g) ||| PTE_V = pa2pte (addr g) ||| 0 ||| PTE_V := by
    rw [UInt64.or_zero]
  have hflags : pteFlags (pa2pte (addr g) ||| PTE_V) = PTE_V := by
    rw [hzero]
    exact pteFlags_leaf _ (by decide)
  refine ⟨?_, ?_, ?_⟩
  · rw [hzero]
    exact valid_leaf _ _
  · rw [hzero, pte2page_leaf _ (by decide), vpn_addr hg]
  · rw [access, and_flags _ (by decide), hflags]
    decide

theorem px_eq {level : Nat} (hl : level ≤ 2) (va : UInt64) :
    px level va = vpn va / 512 ^ level % 512 := by
  have hshift : (UInt64.ofNat (12 + 9 * level)).toNat % 64 = 12 + 9 * level := by
    rw [UInt64.toNat_ofNat']
    omega
  have hpow : 2 ^ (12 + 9 * level) = PGSIZE * 512 ^ level := by
    rw [pow_add, pow_mul]
    rfl
  have hmask : ∀ n : Nat, n &&& (0x1FF : UInt64).toNat = n % 512 := fun n =>
    Nat.and_two_pow_sub_one_eq_mod n 9
  rw [px, UInt64.toNat_and, UInt64.toNat_shiftRight, hshift, Nat.shiftRight_eq_div_pow, hpow, hmask,
    vpn, Nat.div_div_eq_div_mul]

end Bits

/-! What the allocator does with pages that are owned. -/

structure Sane (s : Phys) (A : Set Nat) : Prop where
  owns : s.toPool.Owns A
  range : ∀ f, f ∈ A ∨ f ∈ s.free → s.InRange f

structure Moves (A : Set Nat) (s : Phys) (A' : Set Nat) (s' : Phys) : Prop where
  own : Pool.Moves A s.toPool A' s'.toPool
  first : s'.first = s.first

section Moves
variable {s t u : Phys} {A A' A'' B : Set Nat} {g : Nat} {E : String → Phys → Prop}

theorem Sane.mono (h : Sane s A) (hsub : B ⊆ A) : Sane s B :=
  ⟨h.owns.mono hsub, fun f hf => h.range f (hf.imp_left fun hB => hsub hB)⟩

theorem Sane.moves (h : Sane s A) (hm : Moves A s A' t) : Sane t A' := by
  refine ⟨hm.own.owns, fun f hf => ?_⟩
  rw [Phys.InRange, hm.first]
  exact h.range f ((hm.own.pool f).mp hf)

theorem Moves.refl (h : Sane s A) : Moves A s A s := ⟨Pool.Moves.refl h.owns, rfl⟩

theorem Moves.trans (h : Moves A s A' t) (h' : Moves A' t A'' u) : Moves A s A'' u :=
  ⟨h.own.trans h'.own, h'.first.trans h.first⟩

theorem Moves.congr (h : Moves A s A' t) (hA : B = A) {B' : Set Nat} (hA' : B' = A') :
    Moves B s B' t := ⟨h.own.congr hA hA', h.first⟩

theorem Sane.lt (h : Sane s A) (hg : g ∈ A ∨ g ∈ s.free) : g < PHYSPAGES := (h.range g hg).2

theorem Moves.setPage (h : Sane s A) (hg : g ∈ A) (b : Page) : Moves A s A (s.setPage g b) :=
  ⟨Pool.Moves.store h.owns hg b, rfl⟩

theorem wp_kalloc (h : Sane s A) {Q : Option Nat → Phys → Prop}
    (hnone : ∀ t, Moves A s A t → t.mem = s.mem → Q none t)
    (hsome : ∀ g t, g ∈ s.free → Moves A s (insert g A) t →
      t.mem = update s.mem g (fun _ => 5) → Q (some g) t) : wp kalloc Q E s := by
  simp only [kalloc, wp_bind, wp_get, wp_ite, wp_set, wp_pure]
  refine ⟨fun _ => hnone _ ⟨Pool.Moves.refl h.owns, rfl⟩ rfl, fun _ => ?_⟩
  cases hf : s.free with
  | nil =>
    exact hnone _ ⟨Pool.Moves.refl h.owns, rfl⟩ rfl
  | cons g rest =>
    have hmem : g ∈ s.free := by
      rw [hf]
      exact List.mem_cons_self
    exact hsome g _ hmem ⟨Pool.Moves.take h.owns hf _, rfl⟩ rfl

theorem wp_kfree (h : Sane s A) (hg : g ∈ A) {Q : Unit → Phys → Prop}
    (hQ : ∀ t, Moves A s (A \ {g}) t → t.mem = update s.mem g (fun _ => 1) → Q () t) :
    wp (kfree g) Q E s := by
  simp only [kfree, wp_bind, wp_get, wp_ite, wp_modify, wp_throw]
  refine ⟨fun _ => hQ _ ⟨Pool.Moves.give h.owns hg _, rfl⟩ rfl, fun hno => ?_⟩
  exact absurd (h.range g (.inl hg)) hno

end Moves

end Xv6Audit.Vm
