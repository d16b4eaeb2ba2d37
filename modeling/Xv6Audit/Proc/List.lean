import Xv6Audit.Lib.DList

/-! The circular lists of `kernel/list.c`, in a heap of nodes with `next` and `prev`. -/
namespace Xv6Audit.Lists
open Function

variable {ν : Type*} [DecidableEq ν]

def initListHead (L : Links ν) (list : ν) : Links ν := (L.setNext list list).setPrev list list

def listAddBetween (L : Links ν) (new prev next : ν) : Links ν :=
  let L := L.setPrev next new
  let L := L.setNext new next
  let L := L.setPrev new prev
  L.setNext prev new

def listDelBetween (L : Links ν) (prev next : ν) : Links ν := (L.setPrev next prev).setNext prev next

def listAdd (L : Links ν) (head new : ν) : Links ν := listAddBetween L new head (L.next head)

def listAddTail (L : Links ν) (head new : ν) : Links ν := listAddBetween L new (L.prev head) head

def listDel (L : Links ν) (entry : ν) : Links ν :=
  let L := listDelBetween L (L.prev entry) (L.next entry)
  (L.setNext entry entry).setPrev entry entry

def listDelInit (L : Links ν) (entry : ν) : Links ν :=
  initListHead (listDelBetween L (L.prev entry) (L.next entry)) entry

def nodes (lists : List (ν × List ν)) : List ν := lists.flatMap fun p => p.1 :: p.2

structure Holds (L : Links ν) (lists : List (ν × List ν)) : Prop where
  spells : ∀ p ∈ lists, L.Spells p.1 p.2
  apart : (nodes lists).Nodup

structure Becomes (L : Links ν) (touched : List ν) (L' : Links ν) (lists : List (ν × List ν)) :
    Prop where
  holds : Holds L' lists
  inverse : ∀ y ∈ nodes lists, L'.prev (L'.next y) = y ∧ L'.next (L'.prev y) = y
  frame : ∀ y, y ∉ touched → L'.next y = L.next y ∧ L'.prev y = L.prev y

variable {L L' : Links ν} {head n x : ν} {xs : List ν} {others : List (ν × List ν)}

omit [DecidableEq ν] in
theorem Holds.inverse {lists : List (ν × List ν)} (h : Holds L lists) :
    ∀ y ∈ nodes lists, L.prev (L.next y) = y ∧ L.next (L.prev y) = y := by
  intro y hy
  obtain ⟨p, hp, hy⟩ := List.mem_flatMap.mp hy
  obtain ⟨hnext, hprev⟩ := (h.spells p hp).step hy
  exact ⟨hnext.2, hprev.2⟩

section
variable (h : Holds L ((head, xs) :: others))
include h

omit [DecidableEq ν] in
theorem Holds.becomes (new : List (ν × List ν)) {touched : List ν}
    (hspells : ∀ p ∈ new, L'.Spells p.1 p.2) (hperm : (nodes new).Perm touched)
    (hnew : touched.Nodup) (hout : ∀ y ∈ touched, y ∉ nodes others)
    (hframe : ∀ y, y ∉ touched → L'.next y = L.next y ∧ L'.prev y = L.prev y) :
    Becomes L touched L' (new ++ others) := by
  have hnodes : nodes (new ++ others) = nodes new ++ nodes others := List.flatMap_append
  have hholds : Holds L' (new ++ others) := by
    refine ⟨fun p hp => ?_, ?_⟩
    · rcases List.mem_append.mp hp with hp | hp
      · exact hspells p hp
      · refine (h.spells p (List.mem_cons_of_mem _ hp)).congr fun y hy => hframe y fun ht => ?_
        exact hout y ht (List.mem_flatMap.mpr ⟨p, hp, hy⟩)
    · rw [hnodes]
      refine List.nodup_append.mpr ⟨hperm.nodup_iff.mpr hnew, ?_, ?_⟩
      · exact (List.nodup_append.mp h.apart).2.1
      · rintro y hy z hz rfl
        exact hout y (hperm.mem_iff.mp hy) hz
  exact ⟨hholds, hholds.inverse, hframe⟩

section
variable (hn : n ∉ nodes ((head, xs) :: others))
include hn

theorem Holds.addBetween {p q : ν} (hp : p ∈ head :: xs) (hq : q ∈ head :: xs) {ys : List ν}
    (hys : ys.Perm (n :: xs)) (hspells : (listAddBetween L n p q).Spells head ys) :
    Becomes L (n :: head :: xs) (listAddBetween L n p q) ((head, ys) :: others) := by
  have hsplit : nodes ((head, xs) :: others) = (head :: xs) ++ nodes others := List.flatMap_cons
  have hap := h.apart
  rw [hsplit] at hap hn
  obtain ⟨hxs, -, hout⟩ := List.nodup_append.mp hap
  rw [List.mem_append, not_or] at hn
  refine h.becomes [(head, ys)] (by simpa using hspells) ?_
    (List.nodup_cons.mpr ⟨hn.1, hxs⟩) ?_ fun y hy => ?_
  · have hnodes : nodes [(head, ys)] = head :: ys := by simp [nodes]
    rw [hnodes]
    exact (hys.cons head).trans (List.Perm.swap n head xs)
  · intro y hy hin
    rcases List.mem_cons.mp hy with rfl | hy
    · exact hn.2 hin
    · exact hout y hy y hin rfl
  · obtain ⟨hyn, hyl⟩ := not_or.mp (fun hc => hy (List.mem_cons.mpr hc))
    have hyp : y ≠ p := fun he => hyl (he ▸ hp)
    have hyq : y ≠ q := fun he => hyl (he ▸ hq)
    simp [listAddBetween, Links.setNext, Links.setPrev, hyn, hyp, hyq]

theorem Holds.listAdd :
    Becomes L (n :: head :: xs) (listAdd L head n) ((head, n :: xs) :: others) := by
  have hs := h.spells _ List.mem_cons_self
  have hmem := (hs.step List.mem_cons_self).1.1
  have hnl : n ∉ head :: xs := fun hin => hn (List.mem_append_left _ hin)
  refine h.addBetween hn List.mem_cons_self hmem (List.Perm.refl _) (hs.insertFront hnl rfl ?_)
  have hne : L.next head ≠ n := fun he => hnl (he ▸ hmem)
  exact update_comm hne _ _ _

theorem Holds.listAddTail :
    Becomes L (n :: head :: xs) (listAddTail L head n) ((head, xs ++ [n]) :: others) := by
  have hs := h.spells _ List.mem_cons_self
  have hmem := (hs.step List.mem_cons_self).2.1
  have hnl : n ∉ head :: xs := fun hin => hn (List.mem_append_left _ hin)
  have hback : (Lists.listAddTail L head n).swap.Spells head (n :: xs.reverse) := by
    refine hs.swap.insertFront (by simpa using hnl) ?_ rfl
    have hne : head ≠ n := fun he => hnl (by simp [he])
    exact update_comm hne _ _ _
  refine h.addBetween hn hmem List.mem_cons_self (List.perm_append_singleton n xs) ?_
  have hforth := hback.swap
  rwa [List.reverse_cons, List.reverse_reverse] at hforth

end

theorem Holds.listDel (hx : x ∈ xs) :
    Becomes L (head :: xs) (listDel L x) ((head, xs.erase x) :: (x, []) :: others) := by
  have hs := h.spells _ List.mem_cons_self
  obtain ⟨⟨hnext, -⟩, hprev, -⟩ := hs.step (List.mem_cons_of_mem head hx)
  obtain ⟨hxs, -, hout⟩ := List.nodup_append.mp h.apart
  have hself : (Lists.listDel L x).next x = x ∧ (Lists.listDel L x).prev x = x := by
    simp [Lists.listDel, Links.setNext, Links.setPrev]
  have hother : ∀ w, w ≠ x →
      (Lists.listDel L x).next w = update L.next (L.prev x) (L.next x) w ∧
      (Lists.listDel L x).prev w = update L.prev (L.next x) (L.prev x) w := by
    intro w hw
    simp [Lists.listDel, listDelBetween, Links.setNext, Links.setPrev, hw]
  refine h.becomes [(head, xs.erase x), (x, [])] ?_ ?_ hxs
    (fun y hy hin => hout y hy y hin rfl) fun y hy => ?_
  · intro p hp
    rcases List.mem_cons.mp hp with rfl | hp
    · obtain ⟨l, m, hnot, rfl, herase⟩ := List.exists_erase_eq hx
      rw [herase]
      exact hs.without (fun w hw => (hother w hw).1) fun w hw => (hother w hw).2
    · rw [List.mem_singleton.mp hp]
      exact ⟨hself, List.nodup_singleton x⟩
  · have hnodes : nodes [(head, xs.erase x), (x, [])] = head :: (xs.erase x ++ [x]) := by
      simp [nodes]
    rw [hnodes]
    exact ((List.perm_append_singleton x _).trans (List.perm_cons_erase hx).symm).cons head
  · have hyx : y ≠ x := fun he => hy (he ▸ List.mem_cons_of_mem head hx)
    have hyn : y ≠ L.next x := fun he => hy (he ▸ hnext)
    have hyp : y ≠ L.prev x := fun he => hy (he ▸ hprev)
    rw [(hother y hyx).1, (hother y hyx).2, update_of_ne hyp, update_of_ne hyn]
    exact ⟨rfl, rfl⟩

end

/-- In a heap with the list `xs` through `head` and any others apart from it: `list_add` of a node
of none of them makes it `n :: xs`, `list_add_tail` makes it `xs ++ [n]`, `list_del` and
`list_del_init` take a member out and leave it alone in a list; on every node of the lists
`next` and `prev` undo each other, and only nodes of this list have changed. -/
theorem list_primitives_are_sequences (L : Links ν) (head : ν) (xs : List ν)
    (others : List (ν × List ν)) (h : Holds L ((head, xs) :: others)) :
    (∀ n, n ∉ nodes ((head, xs) :: others) →
      Becomes L (n :: head :: xs) (listAdd L head n) ((head, n :: xs) :: others) ∧
      Becomes L (n :: head :: xs) (listAddTail L head n) ((head, xs ++ [n]) :: others)) ∧
    ∀ x ∈ xs,
      Becomes L (head :: xs) (listDel L x) ((head, xs.erase x) :: (x, []) :: others) ∧
      Becomes L (head :: xs) (listDelInit L x) ((head, xs.erase x) :: (x, []) :: others) :=
  ⟨fun _ hn => ⟨h.listAdd hn, h.listAddTail hn⟩, fun _ hx => ⟨h.listDel hx, h.listDel hx⟩⟩

def twoLists : Links Nat := ⟨fun i => if i < 2 then i + 1 else if i = 2 then 0 else i,
  fun i => if i = 0 then 2 else if i < 3 then i - 1 else i⟩

theorem list_primitives_are_sequences_twoLists : Holds twoLists [(0, [1, 2]), (3, [])] ∧
    Holds (listAddTail twoLists 0 4) [(0, [1, 2, 4]), (3, [])] ∧
    Holds (listDel twoLists 1) [(0, [2]), (1, []), (3, [])] := by
  have h : Holds twoLists [(0, [1, 2]), (3, [])] := by
    refine ⟨fun p hp => ?_, by decide⟩
    simp only [List.mem_cons, List.not_mem_nil, or_false] at hp
    rcases hp with rfl | rfl
    · exact ⟨by simp [Links.Path, twoLists], by decide⟩
    · exact ⟨by simp [Links.Path, twoLists], by decide⟩
  obtain ⟨hadd, hdel⟩ := list_primitives_are_sequences twoLists 0 [1, 2] [(3, [])] h
  exact ⟨h, (hadd 4 (by decide)).2.holds, (hdel 1 (by decide)).1.holds⟩

end Xv6Audit.Lists
