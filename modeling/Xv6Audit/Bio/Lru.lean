import Mathlib.Tactic.Linarith
import Xv6Audit.Lib.DList
import Xv6Audit.Bio.Cache

/-! The list of `kernel/bio.c` with its pointers. The callers are counted only: who waits for
a buffer's lock, who has it, who is in `brelse()` with the lock given back. -/
namespace Xv6Audit.Bio
open Function

/-- `struct bcache`; in the list `none` is `bcache.head`. `waiting`, `locked`, `leaving` and
`pins` are the references to a buffer, `calls` the `brelse()` calls so far and `moved` the last
one that moved the buffer. -/
structure Bcache where
  links : Links (Option (Fin NBUF))
  dev : Fin NBUF → BitVec 32
  blockno : Fin NBUF → BitVec 32
  refcnt : Fin NBUF → BitVec 32
  waiting : Fin NBUF → Nat
  locked : Fin NBUF → Bool
  leaving : Fin NBUF → Nat
  pins : Fin NBUF → Nat
  calls : Nat
  moved : Fin NBUF → Option Nat

inductive BcacheAct where
  | bget (dev blockno : BitVec 32)
  | acquiresleep (b : Fin NBUF)
  | releasesleep (b : Fin NBUF)
  | unref (b : Fin NBUF)
  | bpin (b : Fin NBUF)
  | bunpin (b : Fin NBUF)
deriving DecidableEq, Repr

namespace Bcache

def binit (L : Links (Option (Fin NBUF))) : Links (Option (Fin NBUF)) :=
  (List.finRange NBUF).foldl (fun L b => L.pushFront none (some b))
    ((L.setPrev none none).setNext none none)

def boot (L : Links (Option (Fin NBUF))) : Bcache where
  links := binit L
  dev := fun _ => 0
  blockno := fun _ => 0
  refcnt := fun _ => 0
  waiting := fun _ => 0
  locked := fun _ => false
  leaving := fun _ => 0
  pins := fun _ => 0
  calls := 0
  moved := fun _ => none

/-- A loop over the buffers, from the head on along `step`. More rounds than there are nodes
would not end. -/
def search (step : Option (Fin NBUF) → Option (Fin NBUF)) (found : Fin NBUF → Bool) :
    Except Halt (Option (Fin NBUF)) :=
  match Links.scan step none (fun x => x.any found) (NBUF + 1) (step none) with
  | some r => .ok r.join
  | none => .error .blocked

def hit (s : Bcache) (b : Fin NBUF) : Bcache :=
  { s with
    refcnt := update s.refcnt b (s.refcnt b + 1)
    waiting := update s.waiting b (s.waiting b + 1) }

def recycle (s : Bcache) (b : Fin NBUF) (dev blockno : BitVec 32) : Bcache :=
  { s with
    dev := update s.dev b dev
    blockno := update s.blockno b blockno
    refcnt := update s.refcnt b 1
    waiting := update s.waiting b (s.waiting b + 1) }

def bget (s : Bcache) (dev blockno : BitVec 32) : Except Halt Bcache :=
  match search s.links.next fun b => s.dev b = dev ∧ s.blockno b = blockno with
  | .error e => .error e
  | .ok (some b) => .ok (s.hit b)
  | .ok none =>
    match search s.links.prev fun b => s.refcnt b = 0 with
    | .error e => .error e
    | .ok (some b) => .ok (s.recycle b dev blockno)
    | .ok none => .error (.panic "bget: no buffers")

def acquiresleep (s : Bcache) (b : Fin NBUF) : Except Halt Bcache :=
  if 0 < s.waiting b ∧ s.locked b = false then
    .ok { s with
      waiting := update s.waiting b (s.waiting b - 1)
      locked := update s.locked b true }
  else .error .blocked

def releasesleep (s : Bcache) (b : Fin NBUF) : Except Halt Bcache :=
  if s.locked b then
    .ok { s with
      locked := update s.locked b false
      leaving := update s.leaving b (s.leaving b + 1) }
  else .error (.panic "brelse")

def unref (s : Bcache) (b : Fin NBUF) : Except Halt Bcache :=
  if 0 < s.leaving b then
    let s := { s with
      refcnt := update s.refcnt b (s.refcnt b - 1)
      leaving := update s.leaving b (s.leaving b - 1)
      calls := s.calls + 1 }
    if s.refcnt b = 0 then
      .ok { s with
        links := (s.links.unlink (some b)).pushFront none (some b)
        moved := update s.moved b (some (s.calls - 1)) }
    else .ok s
  else .error .blocked

def bpin (s : Bcache) (b : Fin NBUF) : Bcache :=
  { s with
    refcnt := update s.refcnt b (s.refcnt b + 1)
    pins := update s.pins b (s.pins b + 1) }

def bunpin (s : Bcache) (b : Fin NBUF) : Bcache :=
  { s with
    refcnt := update s.refcnt b (s.refcnt b - 1)
    pins := update s.pins b (s.pins b - 1) }

def act (s : Bcache) : BcacheAct → Except Halt Bcache
  | .bget dev blockno => s.bget dev blockno
  | .acquiresleep b => s.acquiresleep b
  | .releasesleep b => s.releasesleep b
  | .unref b => s.unref b
  | .bpin b => .ok (s.bpin b)
  | .bunpin b => .ok (s.bunpin b)

def Fits (s : Bcache) : BcacheAct → Prop
  | .bget dev _ => dev ≠ 0
  | .bunpin b => 0 < s.pins b
  | .acquiresleep _ | .releasesleep _ | .unref _ | .bpin _ => True

instance (s : Bcache) (a : BcacheAct) : Decidable (Fits s a) := by
  cases a <;> unfold Fits <;> infer_instance

def refs (s : Bcache) (b : Fin NBUF) : Nat :=
  (s.locked b).toNat + s.leaving b + s.waiting b + s.pins b

structure Tidy (s : Bcache) (l : List (Fin NBUF)) : Prop where
  spells : s.links.Spells none (l.map some)
  all : ∀ b, b ∈ l
  uniq : ∀ b c, s.dev b ≠ 0 → s.dev b = s.dev c → s.blockno b = s.blockno c → b = c
  refs : ∀ b, s.refcnt b = BitVec.ofNat 32 (s.refs b)
  past : ∀ b j, s.moved b = some j → j < s.calls
  order : l.Pairwise fun b c => ∀ j, s.moved c = some j → ∃ i, s.moved b = some i ∧ j < i

variable {s t : Bcache} {l : List (Fin NBUF)} {b : Fin NBUF}

theorem nodup_of_spells {L : Links (Option (Fin NBUF))} (h : L.Spells none (l.map some)) : l.Nodup :=
  List.Nodup.of_map some (List.nodup_cons.mp h.nodup).2

theorem Tidy.nodup (h : s.Tidy l) : l.Nodup := nodup_of_spells h.spells

theorem binit_spells (L : Links (Option (Fin NBUF))) :
    (binit L).Spells none ((List.finRange NBUF).reverse.map some) := by
  have hempty : ((L.setPrev none none).setNext none none).Spells none [] :=
    ⟨⟨by simp [Links.setNext], by simp [Links.setNext, Links.setPrev]⟩, by simp⟩
  have hall := hempty.foldl_pushFront ((List.finRange NBUF).map some)
    ((List.nodup_finRange NBUF).map (Option.some_injective _)) (by simp)
  rw [List.foldl_map, List.append_nil, ← List.map_reverse] at hall
  exact hall

theorem boot_tidy (L : Links (Option (Fin NBUF))) :
    (boot L).Tidy (List.finRange NBUF).reverse where
  spells := binit_spells L
  all := by simp
  uniq _ _ h := absurd rfl h
  refs _ := rfl
  past _ _ h := by cases h
  order := List.pairwise_of_forall fun _ _ j hj => by cases hj

/-! The loops of `bget` are searches in the list. -/

theorem join_find_map (l : List (Fin NBUF)) (found : Fin NBUF → Bool) :
    ((l.map some).find? fun x => x.any found).join = l.find? found := by
  rw [List.find?_map]
  have hf : ((fun x : Option (Fin NBUF) => x.any found) ∘ some) = found := rfl
  rw [hf]
  cases l.find? found <;> rfl

section
variable {L : Links (Option (Fin NBUF))} (h : L.Spells none (l.map some)) (hall : ∀ b, b ∈ l)
include h hall

theorem length_of_spells : l.length = NBUF := by
  have hp : l.Perm (List.finRange NBUF) :=
    (List.perm_ext_iff_of_nodup (nodup_of_spells h) (List.nodup_finRange NBUF)).mpr fun b =>
      ⟨fun _ => List.mem_finRange b, fun _ => hall b⟩
  rw [hp.length_eq, List.length_finRange]

theorem search_next (found : Fin NBUF → Bool) : search L.next found = .ok (l.find? found) := by
  unfold search
  rw [h.scan_next (by simp [length_of_spells h hall])]
  exact congrArg Except.ok (join_find_map l found)

theorem search_prev (found : Fin NBUF → Bool) :
    search L.prev found = .ok (l.reverse.find? found) := by
  unfold search
  rw [h.scan_prev (by simp [length_of_spells h hall]), ← List.map_reverse]
  exact congrArg Except.ok (join_find_map l.reverse found)

end

theorem spells_move {L : Links (Option (Fin NBUF))} (h : L.Spells none (l.map some)) (hb : b ∈ l) :
    ((L.unlink (some b)).pushFront none (some b)).Spells none ((b :: l.erase b).map some) := by
  obtain ⟨u, v, -, hl, he⟩ := List.exists_erase_eq hb
  rw [hl, List.map_append, List.map_cons] at h
  rw [he, List.map_cons, List.map_append]
  exact h.moveFront

/-! Steps. -/

theorem Tidy.count (h : s.Tidy l) (hl : t.links = s.links) (hd : t.dev = s.dev)
    (hk : t.blockno = s.blockno) (hm : t.moved = s.moved) (hc : s.calls ≤ t.calls)
    (hr : ∀ c, t.refcnt c = BitVec.ofNat 32 (t.refs c)) : t.Tidy l where
  spells := hl ▸ h.spells
  all := h.all
  uniq := hd ▸ hk ▸ h.uniq
  refs := hr
  past b j hj := lt_of_lt_of_le (h.past b j (hm ▸ hj)) hc
  order := hm ▸ h.order

theorem ofNat_succ {x : BitVec 32} {n m : Nat} (hx : x = BitVec.ofNat 32 n) (hm : m = n + 1) :
    x + 1 = BitVec.ofNat 32 m := by
  rw [hx, hm, BitVec.ofNat_add]
  rfl

theorem ofNat_pred {x : BitVec 32} {n m : Nat} (hx : x = BitVec.ofNat 32 n) (hm : m + 1 = n) :
    x - 1 = BitVec.ofNat 32 m := by
  rw [hx, ← hm, BitVec.ofNat_add]
  simp

section
variable (h : s.Tidy l)
include h

theorem Tidy.hit (b : Fin NBUF) : (s.hit b).Tidy l := by
  refine h.count rfl rfl rfl rfl le_rfl fun c => ?_
  have hr := h.refs c
  by_cases hcb : c = b
  · subst hcb
    simp only [Bcache.hit, Bcache.refs, update_self] at hr ⊢
    exact ofNat_succ hr (by omega)
  · simpa [Bcache.hit, Bcache.refs, hcb] using hr

theorem Tidy.recycle {dev blockno : BitVec 32} (hb : s.refcnt b = 0)
    (hnew : ∀ c, ¬ (s.dev c = dev ∧ s.blockno c = blockno)) :
    (s.recycle b dev blockno).Tidy l where
  spells := h.spells
  all := h.all
  past := h.past
  order := h.order
  refs c := by
    have hr := h.refs c
    by_cases hcb : c = b
    · subst hcb
      rw [hb] at hr
      simp only [Bcache.recycle, Bcache.refs, update_self] at hr ⊢
      have hsum : (s.locked c).toNat + s.leaving c + (s.waiting c + 1) + s.pins c =
        (s.locked c).toNat + s.leaving c + s.waiting c + s.pins c + 1 := by omega
      rw [hsum, BitVec.ofNat_add, ← hr]
      rfl
    · simpa [Bcache.recycle, Bcache.refs, hcb] using hr
  uniq c d hc hdev hno := by
    simp only [Bcache.recycle] at hc hdev hno
    by_cases hcb : c = b <;> by_cases hdb : d = b
    · rw [hcb, hdb]
    · rw [hcb, update_self, update_of_ne hdb] at hdev hno
      exact absurd ⟨hdev.symm, hno.symm⟩ (hnew d)
    · rw [hdb, update_self, update_of_ne hcb] at hdev hno
      exact absurd ⟨hdev, hno⟩ (hnew c)
    · rw [update_of_ne hcb] at hc hdev hno
      rw [update_of_ne hdb] at hdev hno
      exact h.uniq c d hc hdev hno

theorem Tidy.bget {dev blockno : BitVec 32} (hs : s.bget dev blockno = .ok t) : t.Tidy l := by
  unfold Bcache.bget at hs
  rw [search_next h.spells h.all] at hs
  cases hc : l.find? (fun b => decide (s.dev b = dev ∧ s.blockno b = blockno)) with
  | some b =>
    simp only [hc] at hs
    cases hs
    exact h.hit b
  | none =>
    simp only [hc] at hs
    rw [search_prev h.spells h.all] at hs
    cases hu : l.reverse.find? (fun b => decide (s.refcnt b = 0)) with
    | some b =>
      simp only [hu] at hs
      cases hs
      have hb : s.refcnt b = 0 := by simpa using List.find?_some hu
      exact h.recycle hb fun c => by simpa using List.find?_eq_none.mp hc c (h.all c)
    | none =>
      simp only [hu] at hs
      cases hs

theorem Tidy.acquiresleep (hs : s.acquiresleep b = .ok t) : t.Tidy l := by
  obtain ⟨hg, hs⟩ := guard_ok.mp hs
  cases hs
  refine h.count rfl rfl rfl rfl le_rfl fun c => ?_
  have hr := h.refs c
  by_cases hcb : c = b
  · subst hcb
    rw [show s.refcnt c = _ from hr]
    simp only [Bcache.refs, update_self, hg.2, Bool.toNat_true, Bool.toNat_false]
    congr 1
    omega
  · simpa [Bcache.refs, hcb] using hr

theorem Tidy.releasesleep (hs : s.releasesleep b = .ok t) : t.Tidy l := by
  obtain ⟨hg, hs⟩ := guard_ok.mp hs
  cases hs
  refine h.count rfl rfl rfl rfl le_rfl fun c => ?_
  have hr := h.refs c
  by_cases hcb : c = b
  · subst hcb
    rw [show s.refcnt c = _ from hr]
    simp only [Bcache.refs, update_self, hg, Bool.toNat_true, Bool.toNat_false]
    congr 1
    omega
  · simpa [Bcache.refs, hcb] using hr

theorem Tidy.countOff (hg : 0 < s.leaving b) :
    Tidy { s with
      refcnt := update s.refcnt b (s.refcnt b - 1)
      leaving := update s.leaving b (s.leaving b - 1)
      calls := s.calls + 1 } l := by
  refine h.count rfl rfl rfl rfl (Nat.le_succ _) fun c => ?_
  have hr := h.refs c
  by_cases hcb : c = b
  · subst hcb
    simp only [Bcache.refs, update_self] at hr ⊢
    exact ofNat_pred hr (by omega)
  · simpa [Bcache.refs, hcb] using hr

theorem Tidy.move {k : Nat} (hk : s.calls = k + 1) (hpast : ∀ c j, s.moved c = some j → j < k) :
    Tidy { s with
      links := (s.links.unlink (some b)).pushFront none (some b)
      moved := update s.moved b (some k) } (b :: l.erase b) where
  spells := spells_move h.spells (h.all b)
  all := Cache.Clear.mem_front h.all b
  uniq := h.uniq
  refs := h.refs
  past c j hj := by
    simp only [update_apply] at hj
    split at hj
    · obtain rfl := Option.some.inj hj
      exact hk ▸ Nat.lt_succ_self _
    · exact h.past c j hj
  order := by
    have hb : b ∉ l.erase b := h.nodup.not_mem_erase
    have hother : ∀ c ∈ l.erase b, update s.moved b (some k) c = s.moved c :=
      fun c hc => by
        have hcb : c ≠ b := fun he => hb (he ▸ hc)
        exact update_of_ne hcb _ _
    refine List.pairwise_cons.mpr ⟨fun c hc j hj => ?_, ?_⟩
    · exact ⟨k, update_self .., hpast c j ((hother c hc).symm.trans hj)⟩
    · refine (h.order.sublist List.erase_sublist).imp_of_mem fun {c d} hc hd hcd j hj => ?_
      obtain ⟨i, hi, hji⟩ := hcd j ((hother d hd).symm.trans hj)
      exact ⟨i, (hother c hc).trans hi, hji⟩

theorem Tidy.unref (hs : s.unref b = .ok t) : ∃ m, t.Tidy m := by
  obtain ⟨hg, hs⟩ := guard_ok.mp hs
  have hoff := h.countOff hg
  simp only at hs
  split at hs
  · cases hs
    exact ⟨_, hoff.move rfl h.past⟩
  · cases hs
    exact ⟨l, hoff⟩

theorem Tidy.bpin (b : Fin NBUF) : (s.bpin b).Tidy l := by
  refine h.count rfl rfl rfl rfl le_rfl fun c => ?_
  have hr := h.refs c
  by_cases hcb : c = b
  · subst hcb
    simp only [Bcache.bpin, Bcache.refs, update_self] at hr ⊢
    exact ofNat_succ hr (by omega)
  · simpa [Bcache.bpin, Bcache.refs, hcb] using hr

theorem Tidy.bunpin (hg : 0 < s.pins b) : (s.bunpin b).Tidy l := by
  refine h.count rfl rfl rfl rfl le_rfl fun c => ?_
  have hr := h.refs c
  by_cases hcb : c = b
  · subst hcb
    simp only [Bcache.bunpin, Bcache.refs, update_self] at hr ⊢
    exact ofNat_pred hr (by omega)
  · simpa [Bcache.bunpin, Bcache.refs, hcb] using hr

theorem Tidy.act {a : BcacheAct} (hf : Fits s a) (hs : s.act a = .ok t) : ∃ m, t.Tidy m := by
  cases a with
  | bget dev blockno => exact ⟨l, h.bget hs⟩
  | acquiresleep b => exact ⟨l, h.acquiresleep hs⟩
  | releasesleep b => exact ⟨l, h.releasesleep hs⟩
  | unref b => exact h.unref hs
  | bpin b =>
    cases hs
    exact ⟨l, h.bpin b⟩
  | bunpin b =>
    cases hs
    exact ⟨l, h.bunpin hf⟩

theorem Tidy.searches_end (dev blockno : BitVec 32) : s.bget dev blockno ≠ .error .blocked := by
  unfold Bcache.bget
  rw [search_next h.spells h.all, search_prev h.spells h.all]
  split
  · rename_i he
    cases he
  · simp
  · split
    · rename_i he
      cases he
    · simp
    · simp

end

/-- After every run the list through the head is well formed and has every buffer once, no two
buffers have one identity, the counts are exact as 32-bit words, a buffer behind another was
last moved before it, and the loops of `bget` end. -/
theorem lru_list_sound (L : Links (Option (Fin NBUF))) (as : List BcacheAct) (s : Bcache)
    (hrun : Run.exec (Shared.step act) (boot L) as = some s)
    (hfits : Run.Along (Shared.step act) Fits (boot L) as) :
    (∃ l : List (Fin NBUF), s.links.Spells none (l.map some) ∧ (∀ b, l.count b = 1) ∧
      l.Pairwise fun b c => ∀ j, s.moved c = some j → ∃ i, s.moved b = some i ∧ j < i) ∧
    (∀ b c, s.dev b ≠ 0 → s.dev b = s.dev c → s.blockno b = s.blockno c → b = c) ∧
    (∀ b, s.refcnt b = BitVec.ofNat 32 (s.refs b) ∧
      (s.refs b < 2 ^ 32 → (s.refcnt b).toNat = s.refs b)) ∧
    ∀ dev blockno, s.bget dev blockno ≠ .error .blocked := by
  have hstep : ∀ {s t : Bcache} {a : BcacheAct}, (∃ l, s.Tidy l) → Fits s a →
      Shared.step act s a = some t → ∃ m, t.Tidy m := by
    rintro s t a ⟨l, h⟩ hf hs
    exact h.act hf (Shared.step_eq_some.mp hs)
  obtain ⟨l, h⟩ := Run.exec_inv hstep ⟨_, boot_tidy L⟩ hfits hrun
  refine ⟨⟨l, h.spells, fun b => List.count_eq_one_of_mem h.nodup (h.all b), h.order⟩, h.uniq,
    fun b => ⟨h.refs b, fun hlt => ?_⟩, h.searches_end⟩
  rw [h.refs b, BitVec.toNat_ofNat, Nat.mod_eq_of_lt hlt]

def twoBlocks (b c : Fin NBUF) : List BcacheAct :=
  [.bget 1 7, .acquiresleep b, .bget 1 7, .bpin b, .releasesleep b, .unref b, .acquiresleep b,
   .bget 1 8, .acquiresleep c, .bunpin b, .releasesleep b, .unref b, .releasesleep c, .unref c,
   .bget 1 7]

theorem lru_list_sound_twoBlocks :
    ∃ s, Run.exec (Shared.step act) (boot ⟨id, id⟩) (twoBlocks 0 1) = some s ∧
      s.links.next none = some 1 ∧ s.links.next (some 1) = some 0 ∧ s.moved 0 = some 1 ∧
      s.moved 1 = some 2 ∧ (s.refcnt 0).toNat = s.refs 0 ∧ s.refs 0 = 1 := by
  have hrun : (Run.exec (Shared.step act) (boot ⟨id, id⟩) (twoBlocks 0 1)).map
      (fun s => (s.links.next none, s.links.next (some 1), s.moved 0, s.moved 1, s.refs 0)) =
      some (some 1, some 0, some 1, some 2, 1) := by decide +kernel
  have hfit : Run.Along (Shared.step act) Fits (boot ⟨id, id⟩) (twoBlocks 0 1) := by
    decide +kernel
  obtain ⟨s, hs, hst⟩ := Option.map_eq_some_iff.mp hrun
  simp only [Prod.mk.injEq] at hst
  obtain ⟨h1, h2, h3, h4, h5⟩ := hst
  have href := ((lru_list_sound ⟨id, id⟩ _ s hs hfit).2.2.1 0).2 (by rw [h5]; decide)
  exact ⟨s, hs, h1, h2, h3, h4, href, h5⟩

end Bcache

end Xv6Audit.Bio
