import Mathlib.Data.List.Nodup
import Mathlib.Logic.Function.Basic

/-! Circular doubly linked lists through a head node: pointers, and the list they spell. -/
namespace Xv6Audit
open Function

structure Links (ν : Type*) where
  next : ν → ν
  prev : ν → ν

namespace Links
variable {ν : Type*}

def Path (L : Links ν) : ν → List ν → ν → Prop
  | a, [], b => L.next a = b ∧ L.prev b = a
  | a, x :: l, b => L.next a = x ∧ L.prev x = a ∧ L.Path x l b

structure Spells (L : Links ν) (head : ν) (l : List ν) : Prop where
  path : L.Path head l head
  nodup : (head :: l).Nodup

variable {L L' : Links ν} {head a b x : ν} {l m : List ν}

theorem path_append : L.Path a (l ++ x :: m) b ↔ L.Path a l x ∧ L.Path x m b := by
  induction l generalizing a with
  | nil => simp [Path, and_assoc]
  | cons y l ih => simp [Path, ih, and_assoc]

theorem Path.congr (h : L.Path a l b) (hn : ∀ x ∈ a :: l, L'.next x = L.next x)
    (hp : ∀ x ∈ b :: l, L'.prev x = L.prev x) : L'.Path a l b := by
  induction l generalizing a with
  | nil => exact ⟨(hn a (by simp)).trans h.1, (hp b (by simp)).trans h.2⟩
  | cons y l ih =>
    obtain ⟨h1, h2, h3⟩ := h
    refine ⟨(hn a (by simp)).trans h1, (hp y (by simp)).trans h2, ih h3 (fun x hx => ?_)
      fun x hx => ?_⟩
    · exact hn x (List.mem_cons_of_mem a hx)
    · rcases List.mem_cons.mp hx with rfl | hx
      · exact hp x (by simp)
      · exact hp x (by simp [hx])

theorem Path.prev_mem (h : L.Path a l b) : L.prev b ∈ a :: l := by
  induction l generalizing a with
  | nil => simp [h.2]
  | cons y l ih => exact List.mem_cons_of_mem a (ih h.2.2)

theorem Path.retarget {z : ν} (h : L.Path a l b) (hd : (a :: l).Nodup)
    (hn : ∀ x ∈ a :: l, x ≠ L.prev b → L'.next x = L.next x)
    (hp : ∀ x ∈ l, L'.prev x = L.prev x) (hz : L'.next (L.prev b) = z)
    (hz' : L'.prev z = L.prev b) : L'.Path a l z := by
  induction l generalizing a with
  | nil =>
    rw [h.2] at hz hz'
    exact ⟨hz, hz'⟩
  | cons y l ih =>
    obtain ⟨h1, h2, h3⟩ := h
    have ha : a ≠ L.prev b := fun he => (List.nodup_cons.mp hd).1 (he ▸ h3.prev_mem)
    refine ⟨(hn a (by simp) ha).trans h1, (hp y (by simp)).trans h2, ?_⟩
    refine ih h3 (List.nodup_cons.mp hd).2 (fun x hx => ?_) fun x hx => ?_
    · exact hn x (List.mem_cons_of_mem a hx)
    · exact hp x (List.mem_cons_of_mem y hx)

def swap (L : Links ν) : Links ν := ⟨L.prev, L.next⟩

theorem Path.swap (h : L.Path a l b) : L.swap.Path b l.reverse a := by
  induction l generalizing a with
  | nil => exact ⟨h.2, h.1⟩
  | cons y l ih =>
    rw [List.reverse_cons]
    exact path_append.mpr ⟨ih h.2.2, h.2.1, h.1⟩

theorem Path.step (h : L.Path a l b) : ∀ y ∈ a :: l, L.next y ∈ l ++ [b] ∧ L.prev (L.next y) = y := by
  induction l generalizing a with
  | nil =>
    simp only [List.mem_singleton, forall_eq]
    rw [h.1]
    exact ⟨by simp, h.2⟩
  | cons x l ih =>
    obtain ⟨h1, h2, h3⟩ := h
    intro y hy
    rcases List.mem_cons.mp hy with rfl | hy
    · rw [h1]
      exact ⟨by simp, h2⟩
    · exact (ih h3 y hy).imp_left fun hm => List.mem_cons_of_mem x hm

theorem Spells.congr (h : L.Spells head l)
    (hs : ∀ y ∈ head :: l, L'.next y = L.next y ∧ L'.prev y = L.prev y) : L'.Spells head l :=
  ⟨h.path.congr (fun y hy => (hs y hy).1) fun y hy => (hs y hy).2, h.nodup⟩

theorem Spells.swap (h : L.Spells head l) : L.swap.Spells head l.reverse :=
  ⟨h.path.swap, by simpa using h.nodup⟩

theorem Spells.step (h : L.Spells head l) {y : ν} (hy : y ∈ head :: l) :
    (L.next y ∈ head :: l ∧ L.prev (L.next y) = y) ∧
      L.prev y ∈ head :: l ∧ L.next (L.prev y) = y := by
  have hnext := h.path.step y hy
  have hprev : L.prev y ∈ l.reverse ++ [head] ∧ L.next (L.prev y) = y :=
    h.swap.path.step y (by simpa using hy)
  exact ⟨⟨by simpa [or_comm] using hnext.1, hnext.2⟩, by simpa [or_comm] using hprev.1, hprev.2⟩

/-! The operations. -/

variable [DecidableEq ν]

def setNext (L : Links ν) (x y : ν) : Links ν := { L with next := update L.next x y }

def setPrev (L : Links ν) (x y : ν) : Links ν := { L with prev := update L.prev x y }

def unlink (L : Links ν) (x : ν) : Links ν :=
  let L := L.setPrev (L.next x) (L.prev x)
  L.setNext (L.prev x) (L.next x)

def pushFront (L : Links ν) (head x : ν) : Links ν :=
  let L := L.setNext x (L.next head)
  let L := L.setPrev x head
  let L := L.setPrev (L.next head) x
  L.setNext head x

/-- The loop `for(x = ...; x != head; x = step(x)) if(found(x)) ...`; `none` when `fuel` rounds
do not end it. -/
def scan (step : ν → ν) (head : ν) (found : ν → Bool) : Nat → ν → Option (Option ν)
  | 0, _ => none
  | fuel+1, x =>
    if x = head then some none
    else if found x then some (some x)
    else scan step head found fuel (step x)

theorem Spells.insertFront (h : L.Spells head l) (hx : x ∉ head :: l)
    (hnext : L'.next = update (update L.next x (L.next head)) head x)
    (hprev : L'.prev = update (update L.prev x head) (L.next head) x) :
    L'.Spells head (x :: l) := by
  have hxh : x ≠ head := fun he => hx (by simp [he])
  have hxl : x ∉ l := fun hm => hx (by simp [hm])
  obtain ⟨hhl, hnd⟩ := List.nodup_cons.mp h.nodup
  have hnx : L'.next x = L.next head := by
    rw [hnext, update_of_ne hxh, update_self]
  have hpx : L'.prev (L.next head) = x := by
    rw [hprev, update_self]
  refine ⟨⟨by rw [hnext, update_self], ?_, ?_⟩,
    List.nodup_cons.mpr ⟨by simp [hxh.symm, hhl], List.nodup_cons.mpr ⟨hxl, hnd⟩⟩⟩
  · have hne : x ≠ L.next head := by
      cases l with
      | nil =>
        rw [h.path.1]
        exact hxh
      | cons y l =>
        rw [h.path.1]
        exact fun he => hxl (by simp [he])
    rw [hprev, update_of_ne hne, update_self]
  · cases l with
    | nil =>
      rw [h.path.1] at hnx hpx
      exact ⟨hnx, hpx⟩
    | cons y l =>
      obtain ⟨h1, -, h3⟩ := h.path
      rw [h1] at hnx hpx
      refine ⟨hnx, hpx, h3.congr (fun w hw => ?_) fun w hw => ?_⟩
      · have hwh : w ≠ head := fun he => hhl (he ▸ hw)
        have hwx : w ≠ x := fun he => hxl (he ▸ hw)
        rw [hnext, update_of_ne hwh, update_of_ne hwx]
      · have hwy : w ≠ y := by
          rcases List.mem_cons.mp hw with rfl | hw
          · exact fun he => hhl (by simp [he])
          · exact fun he => (List.nodup_cons.mp hnd).1 (he ▸ hw)
        have hwx : w ≠ x := by
          rcases List.mem_cons.mp hw with rfl | hw
          · exact hxh.symm
          · exact fun he => hxl (by simp [← he, hw])
        rw [hprev, h1, update_of_ne hwy, update_of_ne hwx]

theorem Spells.pushFront (h : L.Spells head l) (hx : x ∉ head :: l) :
    (L.pushFront head x).Spells head (x :: l) := by
  have hxh : head ≠ x := fun he => hx (by simp [he])
  have hnh : ((L.setNext x (L.next head)).setPrev x head).next head = L.next head := by
    simp [setNext, setPrev, hxh]
  refine h.insertFront hx rfl ?_
  unfold Links.pushFront
  simp only [hnh]
  rfl

theorem Spells.foldl_pushFront (h : L.Spells head l) (xs : List ν) (hd : xs.Nodup)
    (hx : ∀ x ∈ xs, x ∉ head :: l) :
    (xs.foldl (fun L x => L.pushFront head x) L).Spells head (xs.reverse ++ l) := by
  induction xs generalizing L l with
  | nil => exact h
  | cons y xs ih =>
    obtain ⟨hy, hd⟩ := List.nodup_cons.mp hd
    rw [List.foldl_cons, List.reverse_cons, List.append_assoc]
    refine ih (h.pushFront (hx y (by simp))) hd fun x hm hin => ?_
    have hxy : x ≠ y := fun he => hy (he ▸ hm)
    exact hx x (List.mem_cons_of_mem y hm) (by simpa [hxy] using hin)

section
variable (h : L.Spells head (l ++ x :: m))
include h

theorem Spells.without (hnext : ∀ w, w ≠ x → L'.next w = update L.next (L.prev x) (L.next x) w)
    (hprev : ∀ w, w ≠ x → L'.prev w = update L.prev (L.next x) (L.prev x) w) :
    L'.Spells head (l ++ m) := by
  obtain ⟨hl, hm⟩ := path_append.mp h.path
  have hnd := h.nodup
  rw [← List.cons_append] at hnd
  obtain ⟨hdl, hdm, hdis⟩ := List.nodup_append.mp hnd
  obtain ⟨hxm, hdm⟩ := List.nodup_cons.mp hdm
  have hyl : L.prev x ∈ head :: l := hl.prev_mem
  have hlx : ∀ w ∈ head :: l, w ≠ x := fun w hw => hdis w hw x (by simp)
  have hmx : ∀ w ∈ m, w ≠ x := fun w hw he => hxm (he ▸ hw)
  have hturn : ∀ z, L.next x = z → z ≠ x → z ∉ l → L'.Path head l z := fun z hz hzx hzl => by
    refine hl.retarget hdl (fun w hw hwp => ?_) (fun w hw => ?_) ?_ ?_
    · rw [hnext w (hlx w hw), update_of_ne hwp]
    · have hwz : w ≠ z := fun he => hzl (he ▸ hw)
      rw [hprev w (hlx w (List.mem_cons_of_mem _ hw)), hz, update_of_ne hwz]
    · rw [hnext _ (hlx _ hyl), update_self, hz]
    · rw [hprev z hzx, ← hz, update_self]
  refine ⟨?_, ?_⟩
  · cases m with
    | nil =>
      rw [List.append_nil]
      exact hturn head hm.1 (hlx head (by simp)) (List.nodup_cons.mp hdl).1
    | cons z m =>
      obtain ⟨h1, -, h3⟩ := hm
      have hzl : z ∉ head :: l := fun hz => hdis z hz z (by simp) rfl
      refine path_append.mpr ⟨hturn z h1 (hmx z (by simp)) fun hz => hzl (by simp [hz]),
        h3.congr (fun w hw => ?_) fun w hw => ?_⟩
      · have hwy : w ≠ L.prev x := fun he =>
          hdis _ hyl w (List.mem_cons_of_mem x hw) he.symm
        rw [hnext w (hmx w hw), update_of_ne hwy]
      · rcases List.mem_cons.mp hw with rfl | hw
        · have hwz : w ≠ z := fun he => hzl (by simp [he])
          rw [hprev w (hlx w (by simp)), h1, update_of_ne hwz]
        · have hwz : w ≠ z := fun he => (List.nodup_cons.mp hdm).1 (he ▸ hw)
          rw [hprev w (hmx w (by simp [hw])), h1, update_of_ne hwz]
  · rw [← List.cons_append]
    exact List.nodup_append.mpr ⟨hdl, hdm, fun u hu w hw =>
      hdis u hu w (List.mem_cons_of_mem x hw)⟩

theorem Spells.unlink : (L.unlink x).Spells head (l ++ m) := by
  have hsame : (L.setPrev (L.next x) (L.prev x)).prev x = L.prev x := by
    by_cases hx : L.next x = x
    · simp [setPrev, hx]
    · simp [setPrev, Ne.symm hx]
  refine h.without (fun w _ => ?_) fun _ _ => rfl
  unfold Links.unlink
  simp only [hsame]
  rfl

theorem Spells.moveFront :
    ((L.unlink x).pushFront head x).Spells head (x :: (l ++ m)) := by
  have hnd := h.nodup
  rw [← List.cons_append] at hnd
  obtain ⟨-, hxv, hdis⟩ := List.nodup_append.mp hnd
  refine h.unlink.pushFront ?_
  rw [← List.cons_append, List.mem_append, not_or]
  exact ⟨fun hm => hdis x hm x (by simp) rfl, (List.nodup_cons.mp hxv).1⟩

end

/-! The loops over the list. -/

variable {found : ν → Bool} {fuel : Nat}

theorem scan_path (h : L.Path a l head) (hh : head ∉ l) (hf : l.length < fuel) :
    scan L.next head found fuel (L.next a) = some (l.find? found) := by
  induction l generalizing a fuel with
  | nil =>
    obtain ⟨k, rfl⟩ := Nat.exists_eq_add_of_lt hf
    simp [scan, h.1]
  | cons y l ih =>
    obtain ⟨k, rfl⟩ : ∃ k, fuel = k + 1 := ⟨fuel - 1, by simp at hf; omega⟩
    obtain ⟨h1, -, h3⟩ := h
    have hy : y ≠ head := fun he => hh (by simp [he])
    rw [h1, scan, if_neg hy, List.find?_cons]
    cases found y with
    | true => rfl
    | false => exact ih h3 (fun hm => hh (by simp [hm])) (by simpa using hf)

theorem Spells.scan_next (h : L.Spells head l) (hf : l.length < fuel) :
    scan L.next head found fuel (L.next head) = some (l.find? found) :=
  scan_path h.path (List.nodup_cons.mp h.nodup).1 hf

theorem Spells.scan_prev (h : L.Spells head l) (hf : l.length < fuel) :
    scan L.prev head found fuel (L.prev head) = some (l.reverse.find? found) :=
  h.swap.scan_next (by simpa using hf)

end Links

end Xv6Audit
