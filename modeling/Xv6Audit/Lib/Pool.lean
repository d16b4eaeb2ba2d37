import Mathlib.Data.Set.Insert
import Mathlib.Data.List.Nodup
import Mathlib.Logic.Function.Basic

/-! A pool of cells. Some are on a free list; a part of the rest is owned by whoever is looking.
`Moves A p A' p'` says what an owner may do: turn its cells `A` into the cells `A'`, taking from
and giving to the free list, and touch nothing else. -/
namespace Xv6Audit
open Function

structure Pool (α β : Type*) where
  mem : α → β
  free : List α

namespace Pool
variable {α β : Type*}

structure Owns (p : Pool α β) (A : Set α) : Prop where
  nodup : p.free.Nodup
  apart : ∀ f ∈ p.free, f ∉ A

structure Moves (A : Set α) (p : Pool α β) (A' : Set α) (p' : Pool α β) : Prop where
  owns : p'.Owns A'
  keep : ∀ f, f ∉ A → f ∉ p.free → p'.mem f = p.mem f
  pool : ∀ f, f ∈ A' ∨ f ∈ p'.free ↔ f ∈ A ∨ f ∈ p.free

variable {p q r : Pool α β} {A A' A'' B : Set α}

theorem Owns.mono (h : p.Owns A) (hsub : B ⊆ A) : p.Owns B :=
  ⟨h.nodup, fun f hf hB => h.apart f hf (hsub hB)⟩

namespace Moves

theorem refl (h : p.Owns A) : Moves A p A p := ⟨h, fun _ _ _ => rfl, fun _ => Iff.rfl⟩

theorem trans (h : Moves A p A' q) (h' : Moves A' q A'' r) : Moves A p A'' r := by
  refine ⟨h'.owns, fun f hA hf => ?_, fun f => (h'.pool f).trans (h.pool f)⟩
  have hout : ¬(f ∈ A' ∨ f ∈ q.free) := fun hin => ((h.pool f).mp hin).elim hA hf
  rw [h'.keep f (fun hA' => hout (.inl hA')) (fun hq => hout (.inr hq)), h.keep f hA hf]

theorem congr (h : Moves A p A' q) (hA : B = A) {B' : Set α} (hA' : B' = A') : Moves B p B' q := by
  subst hA hA'
  exact h

variable [DecidableEq α]

theorem store (h : p.Owns A) {f : α} (hf : f ∈ A) (b : β) :
    Moves A p A { p with mem := update p.mem f b } := by
  refine ⟨⟨h.nodup, h.apart⟩, fun g hg _ => ?_, fun _ => Iff.rfl⟩
  have hne : g ≠ f := fun he => hg (he ▸ hf)
  exact update_of_ne hne _ _

theorem take (h : p.Owns A) {f : α} {free : List α} (hp : p.free = f :: free) (b : β) :
    Moves A p (insert f A) ⟨update p.mem f b, free⟩ := by
  have hnd := h.nodup
  rw [hp, List.nodup_cons] at hnd
  refine ⟨⟨hnd.2, ?_⟩, ?_, ?_⟩
  · rintro g hg (rfl | hA)
    · exact hnd.1 hg
    · exact h.apart g (by rw [hp]; exact List.mem_cons_of_mem _ hg) hA
  · intro g hg hfree
    have hne : g ≠ f := by
      rintro rfl
      exact hfree (by rw [hp]; exact List.mem_cons_self)
    exact update_of_ne hne _ _
  · intro g
    simp only [hp, Set.mem_insert_iff, List.mem_cons]
    tauto

theorem give (h : p.Owns A) {f : α} (hf : f ∈ A) (b : β) :
    Moves A p (A \ {f}) ⟨update p.mem f b, f :: p.free⟩ := by
  have hnot : f ∉ p.free := fun hin => h.apart f hin hf
  refine ⟨⟨List.nodup_cons.mpr ⟨hnot, h.nodup⟩, ?_⟩, ?_, ?_⟩
  · intro g hg hin
    rcases List.mem_cons.mp hg with rfl | hg
    · exact hin.2 rfl
    · exact h.apart g hg hin.1
  · intro g hg _
    have hne : g ≠ f := fun he => hg (he ▸ hf)
    exact update_of_ne hne _ _
  · intro g
    simp only [Set.mem_sdiff, Set.mem_singleton_iff, List.mem_cons]
    by_cases hgf : g = f
    · subst hgf
      simp [hf]
    · simp [hgf]

end Moves

end Pool
end Xv6Audit
