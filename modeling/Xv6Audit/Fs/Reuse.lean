import Xv6Audit.Fs.Itable

/-! Inodes that are freed and allocated again while others use the table. `iput` lets go of
`itable.lock` before it frees the inode; in the meantime no other process may come to refer to
it, but a process that is given its number by `ialloc` may. -/
namespace Xv6Audit.Icache
open Function

open FileSys (Dinode)

namespace Itable
variable {n : Nat}

def nlink (s : Itable n) (k : Nat × Nat) : Int :=
  match s.inTable? k with
  | some i => if (s.slot i).valid then (s.slot i).d.nlink else (s.disk k).nlink
  | none => (s.disk k).nlink

def Named (s : Itable n) : Act n → Prop
  | .iget p dev inum => ((s.disk (dev, inum)).type ≠ none ∧ s.nlink (dev, inum) ≠ 0) ∨
      ∃ i, 0 < s.refs p i ∧ (s.slot i).key = (dev, inum)
  | .idup _ _ | .hand _ _ _ | .ilock _ _ | .edit _ _ _ | .iupdate _ _ | .iunlock _ _ | .iput _ _
  | .ialloc _ _ _ | .go _ => True

instance (s : Itable n) : (a : Act n) → Decidable (s.Named a)
  | .iget _ _ _ => inferInstanceAs (Decidable (_ ∨ _))
  | .idup _ _ | .hand _ _ _ | .ilock _ _ | .edit _ _ _ | .iupdate _ _ | .iunlock _ _ | .iput _ _
  | .ialloc _ _ _ | .go _ => inferInstanceAs (Decidable True)

/-- An inode that is being freed, or was freed and not yet allocated again, is not referred to
by others; nor is one that was allocated and is not read yet valid. -/
structure Private (s : Itable n) : Prop where
  alone : ∀ p i, (s.phase p).frees = some i →
    (s.slot i).ref = 1 ∧ (s.slot i).valid = true ∧ (s.slot i).d.nlink = 0
  gone : ∀ p i, s.phase p = .clear i → (s.slot i).d.nlink = 0
  lone : ∀ i, 0 < (s.slot i).ref → (s.disk (s.slot i).key).type = none →
    (s.slot i).ref = 1 ∧ ∃ p, (s.phase p).leaves = some i
  fresh : ∀ k type, s.newborn k = some type → s.disk k = Dinode.fresh type ∧
    ∀ i, 0 < (s.slot i).ref → (s.slot i).key = k →
      (s.slot i).valid = false ∨ ∃ p, s.phase p = .clear i
  born : ∀ q dev inum, s.phase q = .born dev inum → s.newborn (dev, inum) ≠ none ∧
    ∀ i, 0 < (s.slot i).ref → (s.slot i).key = (dev, inum) →
      (s.slot i).ref = 1 ∧ ∃ p, (s.phase p).leaves = some i
  sole : ∀ q q' dev inum, s.phase q = .born dev inum → s.phase q' = .born dev inum → q = q'

variable {k : Nat × Nat}

section Private
variable {s : Itable n} {p q : Fin n} {i j : Fin NINODE}

/-- No entry is freed, or free on disk, or marked by `ialloc`, that a process refers to which is
not itself about to free it or to drop it. -/
structure Common (s : Itable n) (i : Fin NINODE) : Prop where
  frees : ∀ p, (s.phase p).frees ≠ some i
  disk : (s.disk (s.slot i).key).type ≠ none
  born : ∀ q dev inum, s.phase q = .born dev inum → (s.slot i).key ≠ (dev, inum)

section
variable (h : s.Private)
include h

theorem Private.common (hs : s.Sane) (hq : 0 < s.refs q i) (hl : (s.phase q).leaves = none)
    (hf : (s.phase q).frees = none) : s.Common i := by
  have hpos := hq.trans_le (hs.le_ref q i)
  have hother : (s.slot i).ref = 1 → ∀ p, 0 < s.refs p i → p = q := fun h1 p hp => by
    by_contra hne
    have h2 := hs.two_le hp hq hne
    omega
  have hleft : ¬((s.slot i).ref = 1 ∧ ∃ p, (s.phase p).leaves = some i) := by
    rintro ⟨h1, p, hp⟩
    rw [hother h1 p (hs.leaves_ref hp), hl] at hp
    cases hp
  refine ⟨fun p hp => ?_, fun hn => hleft (h.lone i hpos hn), fun q' dev inum hb hk =>
    hleft ((h.born q' dev inum hb).2 i hpos hk)⟩
  rw [hother (h.alone p i hp).1 p (hs.frees_ref hp), hf] at hp
  cases hp

theorem Private.common_of_nlink (hi : s.inTable? k = some i) (ht : (s.disk k).type ≠ none)
    (hn : s.nlink k ≠ 0) :
    s.Common i := by
  obtain ⟨hpos, rfl⟩ := inTable?_some hi
  have hnv : (s.slot i).valid = true → (s.slot i).d.nlink ≠ 0 := fun hv => by
    simpa [nlink, hi, hv] using hn
  refine ⟨fun p hp => ?_, ht, fun q dev inum hb hk => ?_⟩
  · obtain ⟨-, hv, h0⟩ := h.alone p i hp
    exact hnv hv h0
  · obtain ⟨type, hnew⟩ := Option.ne_none_iff_exists'.mp (h.born q dev inum hb).1
    obtain ⟨hdisk, hval⟩ := h.fresh _ type hnew
    by_cases hv : (s.slot i).valid = true
    · rcases hval i hpos hk with hf | ⟨p, hp⟩
      · rw [hv] at hf
        cases hf
      · exact hnv hv (h.gone p i hp)
    · refine hn ?_
      rw [nlink, hi]
      simp only [hv, Bool.false_eq_true, if_false]
      rw [hk, hdisk]
      rfl

theorem Private.common_of_two (h2 : 2 ≤ (s.slot i).ref) : s.Common i := by
  refine ⟨fun p hp => ?_, fun hn => ?_, fun q dev inum hq hk => ?_⟩
  · have h1 := (h.alone p i hp).1
    omega
  · have h1 := (h.lone i (by omega) hn).1
    omega
  · have h1 := ((h.born q dev inum hq).2 i (by omega) hk).1
    omega

theorem Private.setSlot {e : Slot}
    (hf : ∀ q, (s.phase q).frees = some i → e.ref = 1 ∧ e.valid = true ∧ e.d.nlink = 0)
    (hg : ∀ q, s.phase q = .clear i → e.d.nlink = 0) (hl : 0 < e.ref → (s.disk e.key).type = none →
      e.ref = 1 ∧ ∃ p, (s.phase p).leaves = some i)
    (hv : ∀ type, 0 < e.ref → s.newborn e.key = some type →
      e.valid = false ∨ ∃ p, s.phase p = .clear i)
    (hb : ∀ q dev inum, s.phase q = .born dev inum → 0 < e.ref → e.key = (dev, inum) →
      e.ref = 1 ∧ ∃ p, (s.phase p).leaves = some i) : (s.setSlot i e).Private := by
  have hslot : ∀ j, (j = i ∧ (s.setSlot i e).slot j = e) ∨ (s.setSlot i e).slot j = s.slot j :=
    fun j => by
    by_cases hj : j = i
    · exact .inl ⟨hj, by rw [hj]; exact update_self ..⟩
    · exact .inr (update_of_ne hj ..)
  refine ⟨fun q j hq => ?_, fun q j hq => ?_, fun j hj hn => ?_,
    fun k type hk => ⟨(h.fresh k type hk).1, fun j hj hjk => ?_⟩,
    fun q dev inum hq => ⟨(h.born q dev inum hq).1, fun j hj hjk => ?_⟩, h.sole⟩
  · rcases hslot j with ⟨rfl, he⟩ | he <;> rw [he]
    · exact hf q hq
    · exact h.alone q j hq
  · rcases hslot j with ⟨rfl, he⟩ | he <;> rw [he]
    · exact hg q hq
    · exact h.gone q j hq
  · rcases hslot j with ⟨rfl, he⟩ | he <;> rw [he] at hj hn ⊢
    · exact hl hj hn
    · exact h.lone j hj hn
  · rcases hslot j with ⟨rfl, he⟩ | he <;> rw [he] at hj hjk ⊢
    · exact hv type hj (hjk ▸ hk)
    · exact (h.fresh k type hk).2 j hj hjk
  · rcases hslot j with ⟨rfl, he⟩ | he <;> rw [he] at hj hjk ⊢
    · exact hb q dev inum hq hj hjk
    · exact (h.born q dev inum hq).2 j hj hjk

theorem Private.note (p : Fin n) (i : Fin NINODE) (k : Nat) :
    (s.note p i k).Private :=
  ⟨h.alone, h.gone, h.lone, h.fresh, h.born, h.sole⟩

theorem Private.setOwner (i : Fin NINODE) (o : Option (Fin n)) :
    (s.setOwner i o).Private :=
  ⟨h.alone, h.gone, h.lone, h.fresh, h.born, h.sole⟩

end

variable {d : Dinode} {dev inum : Nat} {t : Itable n}

section
variable (h : s.Private)
include h

theorem Private.setFields (hr : 0 < (s.slot i).ref) {v : Bool}
    (hf : ∀ q, (s.phase q).frees = some i → v = true ∧ d.nlink = 0)
    (hg : ∀ q, s.phase q = .clear i → d.nlink = 0) (hv : v = true → (s.slot i).valid = true) :
    (s.setSlot i { s.slot i with valid := v, d := d }).Private := by
  refine h.setSlot (fun q hq => ⟨(h.alone q i hq).1, hf q hq⟩) hg (h.lone i)
    (fun type _ hk => ((h.fresh _ type hk).2 i hr rfl).imp_left fun hfalse => ?_)
    fun q dev inum hq => (h.born q dev inum hq).2 i
  exact Bool.eq_false_iff.mpr fun hval => by simp [hv hval] at hfalse

theorem Private.gain (p : Fin n) (hr : 0 < (s.slot i).ref) (hc : s.Common i) :
    (s.gain p i).Private :=
  (h.setSlot (i := i) (e := { s.slot i with ref := (s.slot i).ref + 1 })
    (fun q hq => absurd hq (hc.frees q)) (fun q hq => h.gone q i hq) (fun _ hn => absurd hn hc.disk)
    (fun type _ hk => (h.fresh _ type hk).2 i hr rfl)
    fun q dev inum hq _ hk => absurd hk (hc.born q dev inum hq)).note p i _

theorem Private.fill (hs : s.Sane) (p : Fin n) (hr : (s.slot i).ref = 0)
    (ht : (s.disk (dev, inum)).type ≠ none) (hb : ∀ q, s.phase q ≠ .born dev inum) :
    (s.fill p i dev inum).Private := by
  have hbusy : ∀ q, ¬0 < s.refs q i := fun q hq => by
    have hle := hs.le_ref q i
    omega
  refine (h.setSlot (i := i)
    (e := { s.slot i with dev := dev, inum := inum, ref := 1, valid := false })
    (fun q hq => absurd (hs.frees_ref hq) (hbusy q)) (fun q hq => ?_)
    (fun _ hn => absurd hn ht) (fun _ _ _ => .inl rfl) fun q dev' inum' hq _ hk => ?_).note p i _
  · exact absurd (hs.leaves_ref (by rw [hq]; rfl)) (hbusy q)
  · cases hk
    exact absurd hq (hb q)

theorem Private.iget (hs : s.Sane) (hget : s.iget p dev inum = .ok t)
    (hin : ∀ i, s.inTable? (dev, inum) = some i → s.Common i)
    (hout : s.inTable? (dev, inum) = none →
      (s.disk (dev, inum)).type ≠ none ∧ ∀ q, s.phase q ≠ .born dev inum) : t.Private := by
  rcases iget_cases hget with ⟨i, hi, rfl⟩ | ⟨i, hi, he, rfl⟩
  · exact h.gain p (inTable?_some hi).1 (hin i hi)
  · exact h.fill hs p (empty?_some he) (hout hi).1 (hout hi).2

theorem Private.lose (hs : s.Sane) (hp : 0 < s.refs p i) (hx : (s.phase p).frees = none) :
    (s.lose p i).Private := by
  have hpos := hp.trans_le (hs.le_ref p i)
  have hcom : 0 < (s.slot i).ref - 1 → s.Common i := fun hr => h.common_of_two (by omega)
  refine (h.setSlot (i := i) (e := { s.slot i with ref := (s.slot i).ref - 1 }) (fun q hq => ?_)
    (fun q hq => h.gone q i hq) (fun hr hn => absurd hn (hcom hr).disk)
    (fun type _ hk => (h.fresh _ type hk).2 i hpos rfl)
    fun q dev inum hq hr hk => absurd hk ((hcom hr).born q dev inum hq)).note p i _
  -- whoever frees `i` is alone, so it is not `p`, and `p` has no reference
  have hqp : q ≠ p := fun he => by
    rw [he, hx] at hq
    cases hq
  have h1 := (h.alone q i hq).1
  have h2 := hs.two_le (hs.frees_ref hq) hp hqp
  omega

end

def Lone (s : Itable n) (i : Fin NINODE) : Prop :=
  (s.slot i).ref = 1 ∧ ∃ p, (s.phase p).leaves = some i

def Enter (s : Itable n) (p : Fin n) : Phase → Prop
  | .trunc i | .mark i => (s.slot i).ref = 1 ∧ (s.slot i).valid = true ∧ (s.slot i).d.nlink = 0
  | .clear i => (s.slot i).d.nlink = 0
  | .born dev inum => (s.phase p).leaves = none ∧ s.newborn (dev, inum) ≠ none ∧
      (∀ j, 0 < (s.slot j).ref → (s.slot j).key = (dev, inum) → s.Lone j) ∧
      ∀ q, s.phase q ≠ .born dev inum
  | .idle | .load _ | .unlock _ | .drop _ | .scan _ _ _ => True

section
variable (h : s.Private)
include h

theorem Private.move {x : Phase} (hx : s.Enter p x)
    (hl : ∀ j, (s.phase p).leaves = some j →
      (s.phase p = .clear j → (s.slot j).valid = false) ∧
      (x.leaves = some j ∨ (0 < (s.slot j).ref → s.Common j))) : (s.move p x).Private := by
  have hself : (s.move p x).phase p = x := update_self ..
  have hother : ∀ q, q ≠ p → (s.move p x).phase q = s.phase q :=
    fun q hq => update_of_ne hq ..
  have hlone : ∀ j, ((s.phase p).leaves = some j → x.leaves = some j) → s.Lone j →
      (s.move p x).Lone j := by
    rintro j hj ⟨h1, q, hq⟩
    refine ⟨h1, q, ?_⟩
    by_cases hqp : q = p
    · rw [hqp, hself]
      exact hj (hqp ▸ hq)
    · rw [hother q hqp]
      exact hq
  have hstay : ∀ j, 0 < (s.slot j).ref → ¬s.Common j → (s.phase p).leaves = some j →
      x.leaves = some j := fun j hj hc hp => (hl j hp).2.resolve_right fun hcom => hc (hcom hj)
  refine ⟨fun q j hq => ?_, fun q j hq => ?_,
    fun j hj hn => hlone j (hstay j hj fun hc => hc.disk hn) (h.lone j hj hn),
    fun k type hk => ⟨(h.fresh k type hk).1, fun j hj hjk => ?_⟩, fun q dev inum hq => ?_,
    fun q q' dev inum hq hq' => ?_⟩
  · by_cases hqp : q = p
    · rw [hqp, hself] at hq
      cases x <;> cases hq <;> exact hx
    · exact h.alone q j (hother q hqp ▸ hq)
  · by_cases hqp : q = p
    · rw [hqp, hself] at hq
      rw [hq] at hx
      exact hx
    · exact h.gone q j (hother q hqp ▸ hq)
  · rcases (h.fresh k type hk).2 j hj hjk with hv | ⟨q, hq⟩
    · exact .inl hv
    · by_cases hqp : q = p
      · subst hqp
        exact .inl ((hl j (by rw [hq]; rfl)).1 hq)
      · exact .inr ⟨q, (hother q hqp).trans hq⟩
  · by_cases hqp : q = p
    · rw [hqp, hself] at hq
      rw [hq] at hx
      obtain ⟨hp, hnew, hkey, -⟩ := hx
      refine ⟨hnew, fun j hj hjk => hlone j (fun hpj => ?_) (hkey j hj hjk)⟩
      rw [hp] at hpj
      cases hpj
    · rw [hother q hqp] at hq
      refine ⟨(h.born q dev inum hq).1, fun j hj hjk =>
        hlone j (hstay j hj fun hc => ?_) ((h.born q dev inum hq).2 j hj hjk)⟩
      exact hc.born q dev inum hq hjk
  · by_cases hqp : q = p <;> by_cases hqp' : q' = p
    · rw [hqp, hqp']
    · rw [hqp, hself] at hq
      rw [hother q' hqp'] at hq'
      rw [hq] at hx
      exact absurd hq' (hx.2.2.2 q')
    · rw [hqp', hself] at hq'
      rw [hother q hqp] at hq
      rw [hq'] at hx
      exact absurd hq (hx.2.2.2 q)
    · exact h.sole q q' dev inum (hother q hqp ▸ hq) (hother q' hqp' ▸ hq')

theorem Private.quiet (hl : (s.phase p).leaves = none) {x : Phase} (hx : s.Enter p x) :
    (s.move p x).Private :=
  h.move hx fun j hj => by
    rw [hl] at hj
    cases hj

theorem Private.setDisk (hnew : s.newborn k = none)
    (hd : d.type = none → ∀ j, 0 < (s.slot j).ref → (s.slot j).key = k → s.Lone j) :
    Private { s with disk := update s.disk k d } := by
  refine ⟨h.alone, h.gone, fun j hj hn => ?_, fun k' type hk => ?_, h.born, h.sole⟩
  · by_cases hjk : (s.slot j).key = k
    · exact hd (by simpa [hjk] using hn) j hj hjk
    · exact h.lone j hj (by simpa [hjk] using hn)
  · have hne : k' ≠ k := fun he => by
      rw [he, hnew] at hk
      cases hk
    exact ⟨(update_of_ne hne ..).trans (h.fresh k' type hk).1, (h.fresh k' type hk).2⟩

theorem Private.not_new (hr : 0 < (s.slot i).ref) (hv : (s.slot i).valid = true)
    (hc : ∀ q, s.phase q ≠ .clear i) : s.newborn (s.slot i).key = none := by
  cases hnew : s.newborn (s.slot i).key with
  | none => rfl
  | some type =>
    rcases (h.fresh _ type hnew).2 i hr rfl with hf | ⟨q, hq⟩
    · rw [hv] at hf
      cases hf
    · exact absurd hq (hc q)

theorem Private.store (hr : 0 < (s.slot i).ref) (hv : (s.slot i).valid = true)
    (hnew : s.newborn (s.slot i).key = none) (hf : ∀ q, (s.phase q).frees = some i → d.nlink = 0)
    (hg : ∀ q, s.phase q = .clear i → d.nlink = 0)
    (ht : d.type = none → ∀ j, 0 < (s.slot j).ref → (s.slot j).key = (s.slot i).key → s.Lone j) :
    (s.store i d).Private := by
  have hset := h.setFields hr (fun q hq => ⟨hv, hf q hq⟩) hg fun _ => hv
  refine hset.setDisk hnew fun hd j hj hjk => ?_
  by_cases hji : j = i
  · subst hji
    simpa [Lone, Itable.setSlot] using ht hd j hr rfl
  · simp only [Itable.setSlot, update_of_ne hji] at hj hjk
    simpa [Lone, Itable.setSlot, hji] using ht hd j hj hjk

theorem Private.mark (hs : s.Sane) (hp : s.phase p = .mark i) :
    ((s.store i { (s.slot i).d with type := none }).move p (.clear i)).Private := by
  obtain ⟨h1, hv, h0⟩ := h.alone p i (by rw [hp]; rfl)
  have hr : 0 < (s.slot i).ref := by omega
  have hnew := h.not_new hr hv (hs.not_clear (hs.locked p i (by rw [hp]; rfl)) (by simp [hp]))
  -- the process is at `clear` first, so that the entry is about to be dropped when it is freed
  have hmove := h.quiet (p := p) (x := .clear i) (by rw [hp]; rfl) h0
  refine hmove.store (i := i) hr hv hnew (fun _ _ => h0) (fun _ _ => h0) fun _ j hj hjk => ?_
  obtain rfl := hs.uniq j i hj hr hjk
  exact ⟨h1, p, by rw [show (s.move p (.clear j)).phase p = _ from update_self ..]; rfl⟩

theorem Private.read (hc : s.Common i) (hg : ∀ q, s.phase q ≠ .clear i) : (s.read i).Private := by
  have hnew : ∀ k type, (s.read i).newborn k = some type → k ≠ (s.slot i).key ∧
      s.newborn k = some type := fun k type hk => by
    have hki : k ≠ (s.slot i).key := fun he => by
      simp [Itable.read, he] at hk
    exact ⟨hki, by simpa [Itable.read, hki] using hk⟩
  -- it is no new inode any more
  have hold : Private { s with newborn := update s.newborn (s.slot i).key none } :=
    ⟨h.alone, h.gone, h.lone, fun k type hk => h.fresh k type (hnew k type hk).2,
      fun q dev inum hq => ⟨by
        have hne : (dev, inum) ≠ (s.slot i).key := (hc.born q dev inum hq).symm
        simpa [hne] using (h.born q dev inum hq).1, (h.born q dev inum hq).2⟩, h.sole⟩
  exact hold.setSlot (fun q hq => absurd hq (hc.frees q)) (fun q hq => absurd hq (hg q))
    (fun _ hn => absurd hn hc.disk) (fun type _ hk => absurd rfl (hnew _ type hk).1)
    fun q dev inum hq _ hk => absurd hk (hc.born q dev inum hq)

theorem Private.bear (hty : s.Typed) (hl : (s.phase p).leaves = none)
    (ht : (s.disk (dev, inum)).type = none) (type : InodeType) :
    ((s.bear (dev, inum) type).move p (.born dev inum)).Private := by
  have hold : ∀ type', s.newborn (dev, inum) ≠ some type' := fun type' hnew => by
    rw [(h.fresh _ type' hnew).1] at ht
    cases ht
  have hnone : s.newborn (dev, inum) = none := Option.eq_none_iff_forall_ne_some.mpr hold
  have hdisk := h.setDisk (d := Dinode.fresh type) hnone fun hd => by cases hd
  have hbear : (s.bear (dev, inum) type).Private := by
    refine ⟨hdisk.alone, hdisk.gone, hdisk.lone, fun k type' hk => ?_, fun q dev' inum' hq => ?_,
      hdisk.sole⟩
    · by_cases hki : k = (dev, inum)
      · subst hki
        obtain rfl : type = type' := by simpa [Itable.bear] using hk
        refine ⟨update_self .., fun j hj hjk => ?_⟩
        cases hval : (s.slot j).valid with
        | false => exact .inl hval
        | true =>
          refine .inr ((hty j hj hval).resolve_left fun hl => hl.1 ?_)
          rw [hl.2, show (s.slot j).key = (dev, inum) from hjk]
          exact ht
      · exact hdisk.fresh k type' (by simpa [Itable.bear, hki] using hk)
    · have hb := h.born q dev' inum' hq
      have hki : (dev', inum') ≠ (dev, inum) := fun hk => hb.1 (hk ▸ hnone)
      exact ⟨by simpa [Itable.bear, hki] using hb.1, hb.2⟩
  refine hbear.quiet hl ⟨hl, by simp [Itable.bear], fun j hj hjk => ?_, fun q hq => ?_⟩
  · exact h.lone j hj (by rw [show (s.slot j).key = (dev, inum) from hjk]; exact ht)
  · exact (h.born q dev inum hq).1 hnone

theorem Private.born_iget (hs : s.Sane) (hp : s.phase p = .born dev inum)
    (ht : (s.move p .idle).iget p dev inum = .ok t) : t.Private := by
  obtain ⟨hnew, hleft⟩ := h.born p dev inum hp
  obtain ⟨type, hnew⟩ := Option.ne_none_iff_exists'.mp hnew
  have hdisk : (s.disk (dev, inum)).type ≠ none := by
    rw [(h.fresh _ type hnew).1]
    simp [Dinode.fresh]
  have hsole : ∀ q, (s.move p .idle).phase q ≠ .born dev inum := fun q hq => by
    have hqp : q ≠ p := fun he => by simp [Itable.move, he] at hq
    exact hqp (h.sole q p dev inum (by simpa [Itable.move, hqp] using hq) hp)
  refine (h.quiet (x := .idle) (by rw [hp]; rfl) trivial).iget
    (hs.quiet (by rw [hp]; rfl) rfl fun i hi => (by cases hi)) ht (fun i hi => ?_)
    fun _ => ⟨hdisk, hsole⟩
  obtain ⟨hr, hk⟩ : 0 < (s.slot i).ref ∧ (s.slot i).key = (dev, inum) := inTable?_some (s := s) hi
  obtain ⟨h1, q, hq⟩ := hleft i hr hk
  refine ⟨fun q' hq' => ?_, ?_, fun q' dev' inum' hq' hk' => ?_⟩
  · have hqp : q' ≠ p := fun he => by
      simp [Itable.move, he, Phase.frees] at hq'
    have hq' : (s.phase q').frees = some i := by simpa [Itable.move, hqp] using hq'
    by_cases he : q' = q
    · rw [he] at hq'
      cases hx : s.phase q <;> rw [hx] at hq hq' <;> cases hq <;> cases hq'
    · have h2 := hs.two_le (hs.frees_ref hq') (hs.leaves_ref hq) he
      omega
  · change (s.disk (s.slot i).key).type ≠ none
    rw [hk]
    exact hdisk
  · have hk' : (s.slot i).key = (dev', inum') := hk'
    rw [hk, Prod.mk.injEq] at hk'
    rw [← hk'.1, ← hk'.2] at hq'
    exact hsole q' hq'

theorem Private.load_common (hs : s.Sane) (hp : s.phase p = .load i) :
    0 < (s.slot i).ref ∧ s.Common i ∧ ∀ q, s.phase q ≠ .clear i := by
  have hl : (s.phase p).locked = some i := by rw [hp]; rfl
  have hr := hs.locked_ref hl
  refine ⟨hr.trans_le (hs.le_ref p i), h.common hs hr (by rw [hp]; rfl) (by rw [hp]; rfl),
    fun q hq => ?_⟩
  rw [hs.clear_only hl hq, hq] at hp
  cases hp

theorem Private.named_iget (hs : s.Sane) (hn : s.Named (.iget p dev inum)) (hi : s.phase p = .idle)
    (ht : s.iget p dev inum = .ok t) : t.Private := by
  refine h.iget hs ht (fun i hin => ?_) fun hout => ?_
  · rcases hn with ⟨htype, hlink⟩ | ⟨j, hr, hk⟩
    · exact h.common_of_nlink hin htype hlink
    · obtain ⟨hpos, hki⟩ := inTable?_some hin
      rw [hs.uniq i j hpos (hr.trans_le (hs.le_ref p j)) (hki.trans hk.symm)]
      exact h.common hs hr (by rw [hi]; rfl) (by rw [hi]; rfl)
  · rcases hn with ⟨htype, hlink⟩ | ⟨j, hr, hk⟩
    · refine ⟨htype, fun q hq => hlink ?_⟩
      obtain ⟨type, hnew⟩ := Option.ne_none_iff_exists'.mp (h.born q dev inum hq).1
      rw [nlink, hout]
      simp only
      rw [(h.fresh _ type hnew).1]
      rfl
    · exact absurd hk (inTable?_none hout (hr.trans_le (hs.le_ref p j)))

theorem Private.update (hs : s.Sane) (hty : s.Typed) (ho : s.owner i = some p)
    (hp : s.phase p ≠ .clear i) (hv : (s.slot i).valid = true) (ht : d.type = (s.slot i).d.type)
    (hd : d.nlink = (s.slot i).d.nlink) : (s.store i d).Private := by
  have hr := (hs.lock i p ho).trans_le (hs.le_ref p i)
  have hnc := hs.not_clear ho hp
  refine h.store hr hv (h.not_new hr hv hnc) (fun q hq => hd.trans (h.alone q i hq).2.2)
    (fun q hq => absurd hq (hnc q)) fun hnone => absurd (ht.symm.trans hnone) ?_
  exact (hty.type hs ho hp hv).1

theorem Private.act (hs : s.Sane) (hty : s.Typed) {a : Act n} (hn : s.Named a)
    (ht : s.act a = .ok t) : t.Private := by
  have hquiet : ∀ {p x y}, s.phase p = x → x.leaves = none → s.Enter p y → (s.move p y).Private :=
    fun hp hx hy => h.quiet (by rw [hp]; exact hx) hy
  have hlock : ∀ {p x i}, s.phase p = x → x.locked = some i → s.owner i = some p := fun hp hx =>
    hs.locked _ _ (by rw [hp]; exact hx)
  cases act_step ht with
  | iget hp ht => exact h.named_iget hs hn hp ht
  | idup hp hr =>
    exact h.gain _ (hr.trans_le (hs.le_ref _ _)) (h.common hs hr (by rw [hp]; rfl) (by rw [hp]; rfl))
  | hand => exact (h.note _ _ _).note _ _ _
  | ilock hp => exact (hquiet (y := .load _) hp rfl trivial).setOwner _ _
  | @edit p i d hp ho =>
    have hno : ∀ q, (s.phase q).locked ≠ some i := fun q hq => by
      rw [Option.some.inj ((hs.locked q i hq).symm.trans ho), hp] at hq
      cases hq
    refine h.setFields ((hs.lock i p ho).trans_le (hs.le_ref p i)) (fun q hq => absurd ?_ (hno q))
      (fun q hq => absurd ?_ (hno q)) fun hv => hv
    · cases hy : s.phase q <;> rw [hy] at hq <;> cases hq <;> rfl
    · rw [hq]
      rfl
  | iupdate hp ho => exact h.update hs hty ho (by simp [hp]) (hs.idle_valid hp ho) rfl rfl
  | iunlock => exact h.setOwner _ _
  | iput hp hr => exact h.lose hs hr (by rw [hp]; rfl)
  | free hp _ _ hc => exact (hquiet (y := .trunc _) hp rfl hc).setOwner _ _
  | ialloc hp | loaded hp => exact hquiet hp rfl trivial
  | read hp =>
    obtain ⟨-, hc, hg⟩ := h.load_common hs hp
    exact (h.read hc hg).quiet (by rw [show (s.read _).phase _ = _ from hp]; rfl) trivial
  | @trunc p i hp =>
    obtain ⟨h1, hv, h0⟩ := h.alone p i (by rw [hp]; rfl)
    have hst := h.update hs hty (hlock hp rfl) (by simp [hp]) hv
      (d := { (s.slot i).d with size := 0, addrs := fun _ => 0 }) rfl rfl
    have hphase : (s.store i { (s.slot i).d with size := 0, addrs := fun _ => 0 }).phase p = .trunc i :=
      hp
    exact hst.quiet (by rw [hphase]; rfl) (hst.alone p i (by rw [hphase]; rfl))
  | mark hp => exact h.mark hs hp
  | @clear p i hp =>
    have ho := hlock hp rfl
    have hset := h.setFields ((hs.lock i p ho).trans_le (hs.le_ref p i)) (v := false)
      (d := (s.slot i).d) (fun q hq => ?_) (fun q hq => h.gone q i hq) fun hv => (by cases hv)
    · refine hset.move trivial fun j hj => ⟨fun hc => ?_, .inl ?_⟩
      · obtain rfl : i = j := Phase.clear.inj (hp.symm.trans hc)
        simp [Itable.setSlot]
      · rwa [show (s.setSlot i _).phase p = _ from hp] at hj
    · have hq' : (s.phase q).locked = some i := by
        cases hy : s.phase q <;> rw [hy] at hq <;> cases hq <;> rfl
      rw [hs.clear_only hq' hp, hp] at hq
      cases hq
  | @unlock p i hp =>
    refine (h.setOwner i none).move trivial fun j hj => ⟨fun hc => ?_, .inl ?_⟩
    · cases hp.symm.trans hc
    · rwa [show (s.setOwner i none).phase p = _ from hp] at hj
  | @drop p i hp =>
    have hr := (hs.drop p i hp).1
    refine (h.lose hs hr (by rw [hp]; rfl)).move trivial fun j hj => ⟨fun hc => ?_, .inr fun hpos => ?_⟩
    · cases hp.symm.trans hc
    · -- the entry had a reference of another process, so it was used by others before
      rw [show (s.lose p i).phase p = _ from hp] at hj
      cases hj
      have hpos : 0 < (s.slot i).ref - 1 := by
        simpa [Itable.lose, Itable.setSlot, Itable.note] using hpos
      have hc := h.common_of_two (i := i) (by omega)
      have hkey : ((s.lose p i).slot i).key = (s.slot i).key := by
        simp [Itable.lose, Itable.setSlot, Itable.note, Slot.key]
      exact ⟨hc.frees, by rw [hkey]; exact hc.disk, by rw [hkey]; exact hc.born⟩
  | bear hp hfree => exact h.bear hty (by rw [hp]; rfl) hfree _
  | scan hp hx =>
    rcases hx with rfl | rfl
    · exact hquiet hp rfl trivial
    · exact hquiet hp rfl trivial
  | born hp ht => exact h.born_iget hs hp ht

end

end Private

theorem boot_private (n ninodes : Nat) (disk : Nat × Nat → Dinode) :
    (boot n ninodes disk).Private where
  alone _ _ hf := by cases hf
  gone _ _ hc := by cases hc
  lone _ hr := by cases hr
  fresh _ _ hk := by cases hk
  born _ _ _ hb := by cases hb
  sole _ _ _ _ hb := by cases hb

section Reuse
variable {s t : Itable n} {p q : Fin n} {i : Fin NINODE}

variable {type : InodeType}

theorem Private.stays_new (h : s.Private) (hs : s.Sane) {a : Act n} (ht : s.act a = .ok t)
    (hk : s.newborn k = some type) :
    t.newborn k = some type ∨ ∃ p i, a = .go p ∧ s.phase p = .load i ∧ (s.slot i).key = k := by
  cases hs.wrote ht with
  | nothing _ hn | update _ _ _ _ _ _ _ hn | mark _ _ _ _ _ _ _ hn =>
    rw [hn]
    exact .inl hk
  | read p i ha hp _ hn =>
    by_cases hki : k = (s.slot i).key
    · exact .inr ⟨p, i, ha, hp, hki.symm⟩
    · rw [hn, update_of_ne hki]
      exact .inl hk
  | bear k' type' htype _ hn =>
    have hki : k ≠ k' := fun he => by
      rw [← he, (h.fresh k type hk).1] at htype
      cases htype
    rw [hn, update_of_ne hki]
    exact .inl hk

theorem Private.reads_new (h : s.Private) (hs : s.Sane) (hk : s.newborn (s.slot i).key = some type)
    (hp : s.phase p = .load i) :
    ∃ t, s.act (.go p) = .ok t ∧ (t.slot i).valid = true ∧ (t.slot i).d = Dinode.fresh type := by
  obtain ⟨hr, -, hg⟩ := h.load_common hs hp
  obtain ⟨hdisk, hval⟩ := h.fresh _ type hk
  have hv : (s.slot i).valid = false := (hval i hr rfl).resolve_right fun ⟨q, hq⟩ => hg q hq
  refine ⟨(s.read i).move p .idle, ?_, by simp [Itable.read, Itable.move, Itable.setSlot],
    by simp [Itable.read, Itable.move, Itable.setSlot, hdisk]⟩
  change s.go p = _
  unfold Itable.go
  simp [hp, hv, hdisk, Dinode.fresh]

theorem Private.new_unlocks (h : s.Private) (hs : s.Sane)
    (hk : s.newborn (s.slot i).key = some type) (ho : s.owner i = some p) :
    ∃ t, s.act (.go p) = .ok t := by
  have hr := (hs.lock i p ho).trans_le (hs.le_ref p i)
  have hphase : s.phase p = .clear i ∨ s.phase p = .load i ∨ s.phase p = .unlock i := by
    refine (hs.held i p ho).imp_left fun hv => ?_
    obtain ⟨q, hq⟩ := ((h.fresh _ type hk).2 i hr rfl).resolve_left (by simp [hv])
    have hown := hs.locked q i (by rw [hq]; rfl)
    rwa [Option.some.inj (hown.symm.trans ho)] at hq
  rcases hphase with hp | hp | hp
  · exact ⟨_, by change s.go p = _; unfold Itable.go; simp only [hp]; rfl⟩
  · obtain ⟨t, ht, -⟩ := h.reads_new hs hk hp
    exact ⟨t, ht⟩
  · exact ⟨_, by change s.go p = _; unfold Itable.go; simp only [hp]; rfl⟩

/-- In every run whose lookups are for inodes that are linked or that the process has already:
there is one entry for an inode; counts are exact; an inode is freed on disk by a process that
has the only reference to it, and has no links; and an inode that `ialloc` has marked is kept for
the process that did, whatever the process that freed it still does to the entry, and is read by
the first `ilock`. -/
theorem itable_consistent {ninodes : Nat} {disk : Nat × Nat → Dinode} {as : List (Act n)}
    (hnamed : Run.Along (Shared.step act) Named (boot n ninodes disk) as)
    (hrun : Run.exec (Shared.step act) (boot n ninodes disk) as = some s) :
    (∀ i j, 0 < (s.slot i).ref → 0 < (s.slot j).ref → (s.slot i).key = (s.slot j).key → i = j) ∧
    (∀ i, ∑ p, (s.refs p i : Int) = (s.slot i).ref) ∧
    (∀ a t k, s.act a = .ok t → (s.disk k).type ≠ none → (t.disk k).type = none →
      ∃ p i, a = .go p ∧ s.phase p = .mark i ∧ (s.slot i).key = k ∧ (s.slot i).ref = 1 ∧
        (s.slot i).d.nlink = 0) ∧
    (∀ q dev inum t, s.phase q = .born dev inum → s.act (.go q) = .ok t →
      ∃ i type, 0 < t.refs q i ∧ (t.slot i).key = (dev, inum) ∧
        t.newborn (dev, inum) = some type) ∧
    (∀ i type, s.newborn (s.slot i).key = some type →
      (∀ p, s.phase p = .load i → ∃ t, s.act (.go p) = .ok t ∧ (t.slot i).valid = true ∧
        (t.slot i).d = Dinode.fresh type) ∧
      ∀ p, s.owner i = some p → ∃ t, s.act (.go p) = .ok t) ∧
    (∀ a t k type, s.act a = .ok t → s.newborn k = some type → t.newborn k = some type ∨
      ∃ p i, a = .go p ∧ s.phase p = .load i ∧ (s.slot i).key = k) ∧
    ∀ p, s.act (.go p) ≠ .error (.panic "ilock: no type") := by
  obtain ⟨hs, hty, h⟩ : s.Sane ∧ s.Typed ∧ s.Private :=
    Run.exec_inv (I := fun s : Itable n => s.Sane ∧ s.Typed ∧ s.Private)
      (fun hi hn ht => ⟨hi.1.act (Shared.step_eq_some.mp ht),
        hi.2.1.act hi.1 (Shared.step_eq_some.mp ht),
        hi.2.2.act hi.1 hi.2.1 hn (Shared.step_eq_some.mp ht)⟩)
      ⟨boot_sane n ninodes disk, boot_typed n ninodes disk, boot_private n ninodes disk⟩ hnamed hrun
  refine ⟨hs.uniq, hs.sum, fun a t k ht hk hn => ?_, fun q dev inum t hq ht => ?_,
    fun i type hk => ⟨fun p hp => h.reads_new hs hk hp, fun p hp => h.new_unlocks hs hk hp⟩,
    fun a t k type ht hk => h.stays_new hs ht hk, fun p hp => ?_⟩
  · obtain ⟨p, i, ha, hp, hki⟩ := hty.freed hs ht hk hn
    obtain ⟨h1, -, h0⟩ := h.alone p i (by rw [hp]; rfl)
    exact ⟨p, i, ha, hp, hki, h1, h0⟩
  · obtain ⟨type, hnew⟩ := Option.ne_none_iff_exists'.mp (h.born q dev inum hq).1
    have hget : (s.move q .idle).iget q dev inum = .ok t := by
      have ht : s.go q = .ok t := ht
      unfold Itable.go at ht
      simpa only [hq] using ht
    obtain ⟨-, hn, i, hr, hk⟩ := iget_disk hget
    exact ⟨i, type, hr, hk, by rw [hn]; exact hnew⟩
  · have hp : s.go p = _ := hp
    unfold Itable.go at hp
    cases hx : s.phase p with
    | load i =>
      obtain ⟨-, hc, -⟩ := h.load_common hs hx
      simp only [hx, if_neg hc.disk] at hp
      split at hp <;> cases hp
    | idle | trunc i | mark i | clear i | unlock i | drop i =>
      rw [hx] at hp
      cases hp
    | scan dev inum type =>
      simp only [hx] at hp
      split at hp
      · split at hp <;> cases hp
      · cases hp
    | born dev inum =>
      simp only [hx, Itable.iget] at hp
      split at hp
      · cases hp
      · split at hp
        · cases hp
        · simp at hp

def oneDir (k : Nat × Nat) : Dinode :=
  if k = (1, 1) ∨ k = (1, 2) then ⟨some .dir, 0, 0, 1, 32, fun _ => 0⟩
  else ⟨none, 0, 0, 0, 0, fun _ => 0⟩

def removal (p : Fin 2) (i : Fin NINODE) : List (Act 2) :=
  [.iget p 1 2, .ilock p i, .go p, .edit p i ⟨some .dir, 0, 0, 0, 32, fun _ => 0⟩, .iupdate p i,
    .iunlock p i, .iput p i]

def reuse (p q : Fin 2) (i : Fin NINODE) : List (Act 2) :=
  removal p i ++ [.go p, .go p, .ialloc q 1 .file, .go q, .go q, .go q, .go p, .go p, .ilock q i]

theorem itable_consistent_reuse : ∃ s : Itable 2,
    Run.exec (Shared.step act) (boot 2 200 oneDir) (reuse 0 1 0) = some s ∧
      s.phase 0 = .drop 0 ∧ (s.slot 0).ref = 2 ∧
      ∃ t, s.act (.go 1) = .ok t ∧ (t.slot 0).valid = true ∧ (t.slot 0).d = Dinode.fresh .file := by
  have hnamed : Run.Along (Shared.step act) Named (boot 2 200 oneDir) (reuse 0 1 0) := by
    decide +kernel
  have hrun : (Run.exec (Shared.step act) (boot 2 200 oneDir) (reuse 0 1 0)).map (fun s =>
      (s.phase 0, s.phase 1, (s.slot 0).ref, s.newborn (s.slot 0).key)) =
      some (.drop 0, .load 0, 2, some .file) := by
    decide +kernel
  obtain ⟨s, hs, he⟩ := Option.map_eq_some_iff.mp hrun
  simp only [Prod.mk.injEq] at he
  obtain ⟨-, -, -, -, hnew, -⟩ := itable_consistent hnamed hs
  exact ⟨s, hs, he.1, he.2.2.1, (hnew 0 .file he.2.2.2).1 1 he.2.1⟩

/-- Process `q` looks up the inode, by the `..` of a removed directory, when `p` is already in
the freeing branch. The inode is freed with two references, and the lookup panics. -/
theorem freed_under_lookup : ∃ s t u : Itable 2,
    Run.exec (Shared.step act) (boot 2 200 oneDir) (removal 0 0 ++ [.iget 1 1 2, .go 0]) = some s ∧
      s.act (.go 0) = .ok t ∧ (s.disk (1, 2)).type = some .dir ∧ (t.disk (1, 2)).type = none ∧
      (s.slot 0).key = (1, 2) ∧ (s.slot 0).ref = 2 ∧ (t.slot 0).ref = 2 ∧
      Run.exec (Shared.step act) t [.go 0, .go 0, .ilock 1 0] = some u ∧
      u.act (.go 1) = .error (.panic "ilock: no type") := by
  have hrun : (Run.exec (Shared.step act) (boot 2 200 oneDir)
      (removal 0 0 ++ [.iget 1 1 2, .go 0])).bind (fun s => (Shared.step act s (.go 0)).bind fun t =>
      (Run.exec (Shared.step act) t [.go 0, .go 0, .ilock 1 0]).map fun u =>
        decide ((s.disk (1, 2)).type = some .dir ∧ (t.disk (1, 2)).type = none ∧
          (s.slot 0).key = (1, 2) ∧ (s.slot 0).ref = 2 ∧ (t.slot 0).ref = 2 ∧
          Prog.stopped (u.act (.go 1)) = some (.panic "ilock: no type"))) = some true := by
    decide +kernel
  obtain ⟨s, hs, hrest⟩ := Option.bind_eq_some_iff.mp hrun
  obtain ⟨t, ht, hrest⟩ := Option.bind_eq_some_iff.mp hrest
  obtain ⟨u, hu, he⟩ := Option.map_eq_some_iff.mp hrest
  obtain ⟨hdir, hfree, hkey, href, href', hpanic⟩ := of_decide_eq_true he
  exact ⟨s, t, u, hs, Shared.step_eq_some.mp ht, hdir, hfree, hkey, href, href', hu,
    Prog.stopped_eq_some.mp hpanic⟩

end Reuse

end Itable

end Xv6Audit.Icache
