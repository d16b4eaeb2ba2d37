import Xv6Audit.Fs.Path

/-! The calls that make and remove names, over nodes: `link`, `unlink` and `create` either do
what they are for, or leave every node and every reference as it was. -/
namespace Xv6Audit.FileSys
open Function

open Prog Disk
open Audit (ascii strncpyBytes)

def Spare (S : Fin NINODE → Slot) (n : Nat) : Prop :=
  ∃ T : Finset (Fin NINODE), n ≤ T.card ∧ ∀ t ∈ T, (S t).ref = 0

def MayStop (I : Nat → Option Node) (S : Fin NINODE → Slot) (n : Nat) (e : String) : Prop :=
  e = "iget: no inodes" ∧ ¬ Spare S n ∨
    e = "ilock: no type" ∧ ∃ x, Named I x ∧ I x = none

/-- In the middle of a call that began with slots `S`: it has `R t` references to entry `t`, and
the entries in `L` are locked. -/
structure Doing (gs : Fs) (sb : Super) (I : Nat → Option Node) (S : Fin NINODE → Slot)
    (R : Fin NINODE → Int) (L : Fin NINODE → Bool) (S' : Fin NINODE → Slot) : Prop where
  shows : Shows gs sb I S'
  held : Held S R S'
  locked : ∀ t, (S' t).locked = L t

def noLocks : Fin NINODE → Bool := fun _ => false

def Back (gs : Fs) (sb : Super) (I : Nat → Option Node) (S : Fin NINODE → Slot) : Prop :=
  ∃ S', Doing gs sb I S 0 noLocks S'

variable {names : List Name} {Q : Unit → Fs → Prop}

section AtRest
variable {I : Nat → Option Node} {S S' : Fin NINODE → Slot} {R : Fin NINODE → Int}

theorem AtRest.strayed (h : AtRest I S) {I' : Nat → Option Node} (hs : Strayed I S I') :
    I' = I := by
  obtain hsame | ⟨x, f, -, hnot, hf, -, h0, -⟩ := hs
  · exact hsame
  · exact absurd (h.orphan x f hf h0) hnot

theorem AtRest.dropped (h : AtRest I S) {i : Nat} {I' : Nat → Option Node}
    (hr : Dropped I S i I') : I' = I := by
  obtain hsame | ⟨-, ⟨f, hf, h0⟩, hout⟩ := hr
  · exact hsame
  · obtain ⟨t, ht, hi⟩ := h.orphan i f hf h0
    exact absurd hi (hout t ht)

variable {x : Nat}

theorem InUse.held (h : InUse S x) (hh : Held S R S') (hR : ∀ t, 0 ≤ R t) :
    InUse S' x := by
  obtain ⟨t, ht, hi⟩ := h
  refine ⟨t, ?_, ((hh.keep t ht).1).trans hi⟩
  have h1 := hh.ref t
  have h2 := hR t
  omega

theorem AtRest.held (h : AtRest I S) (hh : Held S R S') (hR : ∀ t, 0 ≤ R t)
    (hnew : ∀ t, 0 < R t → I (S' t).inum ≠ none) (hu : ∀ t, (S' t).locked = false) :
    AtRest I S' := by
  refine ⟨h.whole, fun x f hf h0 => (h.orphan x f hf h0).held hh hR, ?_, h.counted, ?_, hu⟩
  · rintro x ⟨t, ht, rfl⟩
    by_cases hnow : 0 < R t
    · exact hnew t hnow
    · have h1 := hh.ref t
      have h2 := hR t
      have hl : 0 < (S t).ref := by omega
      rw [(hh.keep t hl).1]
      exact h.used _ ⟨t, hl, rfl⟩
  · intro t
    have h1 := hh.ref t
    have h2 := hR t
    have h3 := h.nonneg t
    omega

theorem AtRest.set (h : AtRest I S) {f : Node} (hwhole : f.type = .dir → DESIZE ∣ f.bytes.length)
    (horphan : f.nlink = 0 → InUse S x) (hcounted : -32768 ≤ f.nlink ∧ f.nlink ≤ 32767) :
    AtRest (update I x (some f)) S := by
  have hcases : ∀ {y g}, update I x (some f) y = some g →
      y = x ∧ g = f ∨ I y = some g := by
    intro y g hy
    by_cases hyx : y = x
    · subst hyx
      rw [update_self] at hy
      exact .inl ⟨rfl, (Option.some.inj hy).symm⟩
    · rw [update_of_ne hyx] at hy
      exact .inr hy
  refine ⟨fun y g hy hd => ?_, fun y g hy h0 => ?_, fun y hy => ?_, fun y g hy => ?_, h.nonneg,
    h.unlocked⟩
  · obtain ⟨rfl, rfl⟩ | hy := hcases hy
    · exact hwhole hd
    · exact h.whole y g hy hd
  · obtain ⟨rfl, rfl⟩ | hy := hcases hy
    · exact horphan h0
    · exact h.orphan y g hy h0
  · by_cases hyx : y = x
    · subst hyx
      rw [update_self]
      exact Option.some_ne_none f
    · rw [update_of_ne hyx]
      exact h.used y hy
  · obtain ⟨rfl, rfl⟩ | hy := hcases hy
    · exact hcounted
    · exact h.counted y g hy

theorem short_range (n : Int) : -32768 ≤ short n ∧ short n ≤ 32767 := by
  unfold short
  omega

theorem short_back {n : Int} (h : -32768 ≤ n ∧ n ≤ 32767) : short (short (n + 1) - 1) = n := by
  unfold short
  omega

theorem Spare.mono {n m : Nat} (h : Spare S n) (hm : m ≤ n) : Spare S m :=
  h.imp fun _ hT => ⟨hm.trans hT.1, hT.2⟩

theorem Spare.held {n : Nat} {s : Fin NINODE} (h : Spare S (n + 1)) (hh : Held S (one s) S') :
    Spare S' n := by
  obtain ⟨T, hcard, hT⟩ := h
  refine ⟨T.erase s, ?_, fun t ht => ?_⟩
  · have := Finset.pred_card_le_card_erase (s := T) (a := s)
    omega
  · rw [hh.ref, hT t (Finset.mem_of_mem_erase ht), one_other (Finset.ne_of_mem_erase ht)]
    rfl

theorem Spare.idle (h : Spare S 1) : ∃ t, (S t).ref = 0 := by
  obtain ⟨T, hcard, hT⟩ := h
  obtain ⟨t, ht⟩ := Finset.card_pos.mp (show 0 < T.card by omega)
  exact ⟨t, hT t ht⟩

theorem Spare.not_crowded (h : Spare S 2) : ¬ Crowded S := by
  intro hc
  obtain ⟨T, hcard, hT⟩ := h
  have := Finset.card_le_one.mpr fun t ht u hu => hc t u (hT t ht) (hT u hu)
  omega

theorem walk_named {d : Nat} (h : walk I d names = some x) :
    x = d ∨ Named I x := by
  induction names generalizing d with
  | nil => exact .inl (Option.some.inj h).symm
  | cons name rest ih =>
    have hstep : walk I d (name :: rest) = (down I d name).bind fun y => walk I y rest := rfl
    rw [hstep, Option.bind_eq_some_iff] at h
    obtain ⟨y, hy, hw⟩ := h
    have hnamed : Named I y := by
      unfold down at hy
      obtain ⟨f, hf, hc⟩ := Option.bind_eq_some_iff.mp hy
      split at hc
      · rename_i hdir
        exact .inr ⟨d, f, name, hf, hdir, hc⟩
      · cases hc
    obtain rfl | hx := ih hw
    · exact .inr hnamed
    · exact .inr hx

def SameDirs (I I' : Nat → Option Node) : Prop :=
  ∀ d g, g.type = .dir → (I' d = some g ↔ I d = some g)

theorem SameDirs.set {f f' : Node} (hf : I x = some f) (hno : f.type ≠ .dir)
    (hno' : f'.type ≠ .dir) : SameDirs I (update I x (some f')) := by
  intro d g hdir
  by_cases hd : d = x
  · subst hd
    rw [update_self, hf]
    constructor
    · intro he
      exact absurd (Option.some.inj he ▸ hdir) hno'
    · intro he
      exact absurd (Option.some.inj he ▸ hdir) hno
  · rw [update_of_ne hd]

section SameDirs
variable {I' : Nat → Option Node}

theorem SameDirs.down (h : SameDirs I I') : down I' = down I := by
  funext d name
  refine Option.ext fun x => ?_
  unfold FileSys.down
  simp only [Option.bind_eq_some_iff]
  refine exists_congr fun g => ?_
  by_cases hdir : g.type = .dir
  · rw [h d g hdir]
  · simp [hdir]

theorem SameDirs.walkParent (h : SameDirs I I') : walkParent I' = walkParent I := by
  funext d names
  unfold FileSys.walkParent walk
  rw [h.down]
  refine congrArg _ (funext fun name => congrArg _ (funext fun x => ?_))
  refine Option.ext fun p => ?_
  simp only [Option.bind_eq_some_iff]
  refine exists_congr fun g => ?_
  by_cases hdir : g.type = .dir
  · rw [h x g hdir]
  · simp [hdir]

theorem SameDirs.named (h : SameDirs I I') (hx : Named I' x) : Named I x := by
  refine hx.imp id ?_
  rintro ⟨d, g, name, hg, hdir, hc⟩
  exact ⟨d, g, name, (h d g hdir).mp hg, hdir, hc⟩

end SameDirs

theorem AtRest.missing (h : AtRest I S) {cwd : Fin NINODE} (hcwd : 0 < (S cwd).ref)
    {path : List UInt8} (hm : Missing I (startOf S cwd path) names) :
    ∃ x, Named I x ∧ I x = none := by
  obtain ⟨front, name, rest, x, -, hx, hno⟩ := hm
  refine ⟨x, ?_, hno⟩
  obtain rfl | hnamed := walk_named hx
  · unfold startOf at hno ⊢
    split
    · exact .inl rfl
    · rename_i hrel
      rw [if_neg hrel] at hno
      exact absurd hno (h.used _ ⟨cwd, hcwd, rfl⟩)
  · exact hnamed

end AtRest

/-! The rules for the steps of a call. -/

section Doing
variable {fs : Fs} {sb : Super} {I : Nat → Option Node} {S S' : Fin NINODE → Slot}
  {R : Fin NINODE → Int} {L : Fin NINODE → Bool} {s : Fin NINODE} {f : Node}
  {E : String → Fs → Prop}

theorem Walking.doing (h : Walking fs sb I S S' s) : Doing fs sb I S (one s) noLocks S' :=
  ⟨h.shows, h.held, h.unlocked⟩

def Alike (S' S'' : Fin NINODE → Slot) : Prop :=
  ∀ t, (S'' t).inum = (S' t).inum ∧ ((S' t).valid = true → (S'' t).valid = true)

theorem lock_unlock (h : L s = false) :
    update (update L s true) s false = L := by
  rw [update_idem, ← h, update_eq_self]

theorem one_pos (s : Fin NINODE) : 0 < one s s := by
  rw [one_self]
  decide

theorem two_nonneg (dp ip t : Fin NINODE) : 0 ≤ (one dp + one ip) t := by
  have h1 := one_nonneg dp t
  have h2 := one_nonneg ip t
  rw [Pi.add_apply]
  omega

theorem two_pos_right (dp ip : Fin NINODE) : 0 < (one dp + one ip) ip := by
  have h1 := one_nonneg dp ip
  have h2 := one_pos ip
  rw [Pi.add_apply]
  omega

theorem two_pos_left (dp ip : Fin NINODE) : 0 < (one dp + one ip) dp := by
  have h1 := one_nonneg ip dp
  have h2 := one_pos dp
  rw [Pi.add_apply]
  omega

namespace Doing

section
variable (h : Doing fs sb I S R L S')
include h

theorem live (hn : 0 ≤ (S s).ref) (hpos : 0 < R s) :
    0 < (S' s).ref := by
  have := h.held.ref s
  omega

theorem congr {R' : Fin NINODE → Int} {L' : Fin NINODE → Bool} (hR : ∀ t, R t = R' t)
    (hL : ∀ t, L t = L' t) : Doing fs sb I S R' L' S' :=
  ⟨h.shows, h.held.congr hR, fun t => (h.locked t).trans (hL t)⟩

theorem locked_update (v : Slot) (t : Fin NINODE) :
    (update S' s v t).locked = update L s v.locked t := by
  by_cases hts : t = s
  · rw [hts, update_self, update_self]
  · rw [update_of_ne hts, update_of_ne hts]
    exact h.locked t

theorem locked_same {v : Slot} (hv : v.locked = L s) (t : Fin NINODE) :
    (update S' s v t).locked = L t := by
  rw [h.locked_update, hv, update_eq_self]

theorem touch {gs : Fs} {v : Slot} (hr : v.ref = (S' s).ref) (hi : v.inum = (S' s).inum)
    (hv : (S' s).valid = true → v.valid = true) (hg : Shows gs sb I (update S' s v)) :
    Doing gs sb I S R (update L s v.locked) (update S' s v) ∧
      Alike S' (update S' s v) := by
  refine ⟨⟨hg, h.held.retouch hr hi hv, h.locked_update v⟩, fun t => ?_⟩
  by_cases hts : t = s
  · subst hts
    rw [update_self]
    exact ⟨hi, hv⟩
  · rw [update_of_ne hts]
    exact ⟨rfl, fun hval => hval⟩

section
variable (hn : 0 ≤ (S s).ref)
include hn

theorem wp_ilock (hpos : 0 < R s) (hL : L s = false)
    (hgone : I (S' s).inum = none → ∀ gs, E "ilock: no type" gs)
    (hQ : ∀ gs S'' f, Doing gs sb I S R (update L s true) S'' → Alike S' S'' →
      (S'' s).valid = true → I (S' s).inum = some f → (gs.itable s).d.type = some f.type →
      (gs.itable s).d.nlink = f.nlink → Q () gs) : wp (ilock s) Q E fs := by
  have hl := h.live hn hpos
  refine h.shows.wp_ilock hl ((h.locked s).trans hL) hgone fun gs hg => ?_
  obtain ⟨hd, ha⟩ := h.touch (v := (S' s).lock) rfl rfl (fun _ => rfl) hg
  have hself : update S' s (S' s).lock s = (S' s).lock := update_self ..
  have hl' : 0 < (update S' s (S' s).lock s).ref := by
    rw [hself]
    exact hl
  have hv' : (update S' s (S' s).lock s).valid = true := by
    rw [hself]
    rfl
  obtain ⟨f, hf⟩ := hg.cached hl' hv'
  obtain ⟨hty, -, hnl, -⟩ := hg.copy hl' hv' hf
  rw [(ha s).1] at hf
  exact hQ gs _ f hd ha hv' hf hty hnl

theorem wp_iunlock (hpos : 0 < R s) (hL : L s = true)
    (hQ : ∀ gs S'', Doing gs sb I S R (update L s false) S'' → Alike S' S'' → Q () gs) :
    wp (iunlock s) Q E fs := by
  refine h.shows.wp_iunlock (h.live hn hpos) ((h.locked s).trans hL) fun gs hg => ?_
  obtain ⟨hd, ha⟩ := h.touch (v := (S' s).unlock) rfl rfl (fun hv => hv) hg
  exact hQ gs _ hd ha

theorem wp_setNlink (hpos : 0 < R s) (hv : (S' s).valid = true) (hf : I (S' s).inum = some f)
    (g : Int → Int) (hQ : ∀ gs, Doing gs sb (update I (S' s).inum
      (some { f with nlink := short (g f.nlink) })) S R L S' → Q () gs) :
    wp (setNlink s g) Q E fs :=
  h.shows.wp_setNlink (h.live hn hpos) hv hf g fun gs hg => hQ gs ⟨hg, h.held, h.locked⟩

theorem wp_iput (hR : ∀ t, 0 ≤ R t) (hpos : 0 < R s) (hL : L s = false)
    (hQ : ∀ I' gs S'', Doing gs sb I' S (R - one s) L S'' → Dropped I S (S' s).inum I' →
      (Dead I (S' s) → I' = update I (S' s).inum none) → (∀ t, t ≠ s → S'' t = S' t) →
      (S'' s).inum = (S' s).inum → Q () gs) :
    wp (iput s) Q E fs := by
  refine h.shows.wp_release h.held hR hpos hn ((h.locked s).trans hL) ?_
  intro I' v gs hvi hvl hheld hrel hdead hg
  refine hQ I' gs _ ⟨hg, hheld, h.locked_same (hvl.trans hL.symm)⟩ hrel hdead
    (fun t ht => update_of_ne ht _ _) ?_
  rw [update_self]
  exact hvi

theorem wp_iunlockput (hR : ∀ t, 0 ≤ R t) (hpos : 0 < R s) (hL : L s = true)
    (hQ : ∀ I' gs S'', Doing gs sb I' S (R - one s) (update L s false) S'' →
      Dropped I S (S' s).inum I' → (Dead I (S' s) → I' = update I (S' s).inum none) →
      (∀ t, t ≠ s → S'' t = S' t) → (S'' s).inum = (S' s).inum → Q () gs) :
    wp (iunlockput s) Q E fs := by
  refine h.shows.wp_iunlockput h.held hR hpos hn ((h.locked s).trans hL) ?_
  intro I' v gs hvi hvl hheld hrel hdead hg
  refine hQ I' gs _ ⟨hg, hheld, hvl ▸ h.locked_update v⟩ hrel hdead
    (fun t ht => update_of_ne ht _ _) ?_
  rw [update_self]
  exact hvi

end

theorem wp_putBack (ha : AtRest I S) (hR : ∀ t, 0 ≤ R t) (hpos : 0 < R s) (hL : L s = true)
    (hQ : ∀ gs S'', Doing gs sb I S (R - one s) (update L s false) S'' →
      (∀ t, t ≠ s → S'' t = S' t) → (S'' s).inum = (S' s).inum → Q () gs) :
    wp (iunlockput s) Q E fs := by
  refine h.wp_iunlockput (ha.nonneg s) hR hpos hL ?_
  intro I' gs S'' hg hrel _ hother hinum
  rw [ha.dropped hrel] at hg
  exact hQ gs S'' hg hother hinum

end

theorem wp_finish (h : Doing fs sb I S (one s) (update noLocks s true) S')
    (ha : AtRest I S) (hQ : ∀ gs, Back gs sb I S → Q () gs) :
    wp (iunlockput s) Q E fs := by
  refine h.wp_putBack ha (one_nonneg s) (one_pos s) (update_self ..) ?_
  intro gs S'' hg _ _
  exact hQ gs ⟨S'', hg.congr (fun t => sub_self _) fun t => by rw [lock_unlock rfl]⟩

theorem wp_dirlookup (h : Doing fs sb I S R L S') (hn : 0 ≤ (S s).ref) (hpos : 0 < R s)
    (hv : (S' s).valid = true) (hf : I (S' s).inum = some f) (hdir : f.type = .dir)
    (hsize : DESIZE ∣ f.bytes.length) (name : Name)
    (hfull : (∀ t, (S' t).ref ≠ 0) → E "iget: no inodes" fs)
    {Q : Option (Fin NINODE × Nat) → Fs → Prop} (hnone : f.lookup name = none → Q none fs)
    (hsome : ∀ x off t gs S'', f.lookup name = some (x, off) →
      Doing gs sb I S (R + one t) L S'' → (∀ u, u ≠ t → S'' u = S' u) → (S'' t).inum = x →
      ((S' t).ref = 0 ∧ (S'' t).valid = false ∨ (S' t).inum = x ∧ (S'' t).valid = (S' t).valid) →
      Q (some (t, off)) gs) (hR : ∀ t, 0 ≤ R t) : wp (dirlookup s name) Q E fs := by
  refine h.shows.wp_dirlookup (h.live hn hpos) hv hf hdir hsize name hfull hnone ?_
  intro x off t v gs hfound hgot hg _
  have hself : update S' t v t = v := update_self ..
  refine hsome x off t gs _ hfound ⟨hg, h.held.trans hgot.held hR,
    h.locked_same (hgot.locked.trans (h.locked t))⟩ (fun u hu => update_of_ne hu _ _)
    (by rw [hself, hgot.inum]) ?_
  rw [hself]
  by_cases h0 : (S' t).ref = 0
  · exact .inl ⟨h0, (hgot.idle h0).1⟩
  · have := hgot.nonneg
    exact .inr (hgot.live (by omega))

theorem wp_dirlink (h : Doing fs sb I S R L S') (hn : 0 ≤ (S s).ref) (hR : ∀ t, 0 ≤ R t)
    (hpos : 0 < R s) (hv : (S' s).valid = true) (hf : I (S' s).inum = some f)
    (hdir : f.type = .dir) (hsize : DESIZE ∣ f.bytes.length) (name : Name) (x : Nat)
    (hfull : (∀ t, (S' t).ref ≠ 0) → E "iget: no inodes" fs) {Q : Bool → Fs → Prop}
    (hfail : ∀ gs S'', Doing gs sb I S R L S'' → (∀ t, 0 < (S' t).ref →
      (S'' t).inum = (S' t).inum ∧ ((S' t).valid = true → (S'' t).valid = true)) →
      (f.lookup name ≠ none ∨ (∀ j, j < f.nents → f.entry j ≠ none) ∧ ¬ fs.Space s) → Q false gs)
    (hQ : ∀ k gs, f.lookup name = none → (∀ j, j < k → f.entry j ≠ none) → f.entry k = none →
      (k < f.nents ∨ k = f.nents ∧ fs.Space s) →
      Doing gs sb (update I (S' s).inum
        (some (f.put k ⟨x, strncpyBytes name DIRSIZ⟩))) S R L S' → Q true gs) :
    wp (dirlink s name x) Q E fs := by
  refine h.shows.wp_dirlink (h.live hn hpos) hv hf hdir hsize name x hfull ?_ ?_
  · intro gs S'' hg hheld hlk hwhy
    refine hfail gs S'' ⟨hg, (h.held.trans hheld hR).congr fun t => ?_, fun t => ?_⟩ hheld.keep hwhy
    · rw [add_zero]
    · rw [hlk t]
      exact h.locked t
  · intro k gs hnew hbefore hfree hk hg
    exact hQ k gs hnew hbefore hfree hk ⟨hg, h.held, h.locked⟩

theorem wp_ialloc (h : Doing fs sb I S R L S') (hn : ∀ t, 0 ≤ (S t).ref) (hR : ∀ t, 0 ≤ R t)
    (hlive : ∀ t, 0 < (S' t).ref → I (S' t).inum ≠ none) (type : InodeType)
    (hfull : ∀ gs, (∀ t, (S' t).ref ≠ 0) → E "iget: no inodes" gs)
    {Q : Option (Fin NINODE) → Fs → Prop}
    (hnone : (∀ x, 0 < x → x < sb.ninodes → I x ≠ none) → Q none fs)
    (hsome : ∀ x t gs S'', 0 < x → x < sb.ninodes → I x = none → (S t).ref = 0 → R t = 0 →
      Doing gs sb (update I x (some ⟨type, 0, 0, 0, []⟩)) S (R + one t) L S'' →
      (∀ u, u ≠ t → S'' u = S' u) → (S'' t).inum = x → Q (some t) gs) :
    wp (ialloc type) Q E fs := by
  refine h.shows.wp_ialloc type hlive hfull hnone ?_
  intro x t v gs h0 hlt hx hidle hvi hvr hvl hg
  have href := h.held.ref t
  have h1 := hn t
  have h2 := hR t
  have hself : update S' t v t = v := update_self ..
  refine hsome x t gs _ h0 hlt hx (by omega) (by omega)
    ⟨hg, ?_, h.locked_same (hvl.trans (h.locked t))⟩ (fun u hu => update_of_ne hu _ _)
    (by rw [hself, hvi])
  refine h.held.trans ((Held.set (fun hl => ?_) fun hl _ => ?_).congr fun u => ?_) hR
  · omega
  · omega
  · unfold one
    rw [hvr, hidle]
    rfl

end Doing

end Doing

section Calls
variable {fs : Fs} {sb : Super} {I : Nat → Option Node} {S : Fin NINODE → Slot}
  {cwd : Fin NINODE} {E : String → Fs → Prop}

theorem Shows.wp_namei (h : Shows fs sb I S) (ha : AtRest I S) (hcwd : 0 < (S cwd).ref)
    (path : List UInt8) (hE : ∀ e gs, MayStop I S 2 e → E e gs)
    {Q : Option (Fin NINODE) → Fs → Prop}
    (hnone : walk I (startOf S cwd path) (elems path) = none → ∀ gs, Back gs sb I S → Q none gs)
    (hsome : ∀ ip S' gs, Walking gs sb I S S' ip →
      walk I (startOf S cwd path) (elems path) = some (S' ip).inum → Q (some ip) gs) :
    wp (namei cwd path) Q E fs := by
  simp only [namei, wp_bind, wp_pure]
  refine wp_post (h.wp_namex ha.navigable hcwd path false ?_ ?_) fun r gs hr => ?_
  · exact fun gs hc => hE _ gs (.inl ⟨rfl, fun hs => hs.not_crowded hc⟩)
  · exact fun hm gs => hE _ gs (.inr ⟨rfl, ha.missing hcwd hm⟩)
  · rw [resolve_false] at hr
    cases r with
    | none =>
      obtain ⟨hno, I', S', hs, hheld, hu, hstray⟩ := hr
      rw [ha.strayed hstray] at hs
      exact hnone (Option.map_eq_none_iff.mp hno) gs ⟨S', ⟨hs, hheld, hu⟩⟩
    | some p =>
      obtain ⟨ip, name⟩ := p
      obtain ⟨⟨S', hw, hfound⟩, -⟩ := hr
      obtain ⟨x, hx, he⟩ := Option.map_eq_some_iff.mp hfound
      rw [Prod.mk.injEq] at he
      exact hsome ip S' gs hw (hx.trans (congrArg some he.1))

variable {name : Name}

theorem walkParent_dir {d x : Nat} (h : walkParent I d names = some (x, name)) :
    ∃ f, I x = some f ∧ f.type = .dir := by
  unfold walkParent at h
  obtain ⟨n, -, h⟩ := Option.bind_eq_some_iff.mp h
  obtain ⟨y, -, h⟩ := Option.bind_eq_some_iff.mp h
  obtain ⟨f, hf, h⟩ := Option.bind_eq_some_iff.mp h
  split at h
  · rename_i hdir
    simp only [Option.some.injEq, Prod.mk.injEq] at h
    exact ⟨f, h.1 ▸ hf, hdir⟩
  · cases h

theorem Shows.wp_nameiparent (h : Shows fs sb I S) (ha : AtRest I S) (hcwd : 0 < (S cwd).ref)
    (path : List UInt8) (hE : ∀ e gs, MayStop I S 2 e → E e gs)
    {Q : Option (Fin NINODE × Name) → Fs → Prop}
    (hnone : walkParent I (startOf S cwd path) (elems path) = none → ∀ gs, Back gs sb I S →
      Q none gs)
    (hsome : ∀ dp name S' gs g, Walking gs sb I S S' dp → I (S' dp).inum = some g →
      g.type = .dir → walkParent I (startOf S cwd path) (elems path) = some ((S' dp).inum, name) →
      (∀ d, Still d fs gs) → Q (some (dp, name)) gs) :
    wp (nameiparent cwd path) Q E fs := by
  refine wp_post (h.wp_namex ha.navigable hcwd path true ?_ ?_) fun r gs hr => ?_
  · exact fun gs hc => hE _ gs (.inl ⟨rfl, fun hs => hs.not_crowded hc⟩)
  · exact fun hm gs => hE _ gs (.inr ⟨rfl, ha.missing hcwd hm⟩)
  · rw [resolve_true_eq] at hr
    cases r with
    | none =>
      obtain ⟨hno, I', S', hs, hheld, hu, hstray⟩ := hr
      rw [ha.strayed hstray] at hs
      exact hnone hno gs ⟨S', ⟨hs, hheld, hu⟩⟩
    | some p =>
      obtain ⟨dp, name⟩ := p
      obtain ⟨⟨S', hw, hfound⟩, hstill⟩ := hr
      obtain ⟨g, hg, hdir⟩ := walkParent_dir hfound
      exact hsome dp name S' gs g hw hg hdir hfound hstill

section Link
variable {gs : Fs} {S' : Fin NINODE → Slot} {ip dp : Fin NINODE} {f g : Node}

theorem Doing.wp_linkBad (ha : AtRest I S) (hf : I (S' ip).inum = some f)
    (h : Doing gs sb (update I (S' ip).inum
      (some { f with nlink := short (f.nlink + 1) })) S (one ip) noLocks S')
    {Q : Int → Fs → Prop} (hfail : ∀ ks, Back ks sb I S → Q (-1) ks) :
    wp (do
      ilock ip
      setNlink ip (· - 1)
      iunlockput ip
      pure (-1)) Q E gs := by
  have hpos := one_pos ip
  have hnn := ha.nonneg ip
  have hself : ∀ v, update I (S' ip).inum v (S' ip).inum = v :=
    fun v => update_self ..
  simp only [wp_bind, wp_pure]
  refine h.wp_ilock hnn hpos rfl (fun hno => by rw [hself] at hno; cases hno) ?_
  intro ks T f' hd halike hval hf' _ _
  rw [hself] at hf'
  obtain rfl := Option.some.inj hf'
  refine hd.wp_setNlink hnn hpos hval (by rw [(halike ip).1, hself]) _ fun ls hl => ?_
  have hback : update (update I (S' ip).inum
      (some { f with nlink := short (f.nlink + 1) })) (T ip).inum
      (some { f with nlink := short (short (f.nlink + 1) - 1) }) = I := by
    rw [(halike ip).1, update_idem, short_back (ha.counted _ f hf)]
    exact update_eq_self_iff.mpr hf.symm
  simp only [hback] at hl
  exact hl.wp_finish ha hfail

theorem AtRest.put (h : AtRest I S) {d k : Nat} {de : Dirent} (hg : I d = some g)
    (hname : de.name.length = DIRSIZ) (hdir : g.type = .dir) (hk : k < g.nents ∨ k = g.nents) :
    AtRest (update I d (some (g.put k de))) S :=
  h.set (fun _ => (Node.put_nents hname (h.whole d g hg hdir) hk).2) (h.orphan d g hg)
    (h.counted d g hg)

theorem Shows.wp_linkName (h : Shows fs sb I S) (ha : AtRest I S) (hcwd : 0 < (S cwd).ref)
    (hip : 0 < (S ip).ref) (new : List UInt8) (hE : ∀ e gs, MayStop I S 2 e → E e gs)
    {K : Bool → FsProg Int} {Q : Int → Fs → Prop}
    (hno : ∀ gs, Back gs sb I S → wp (K false) Q E gs)
    (hyes : ∀ d g name k gs, walkParent I (startOf S cwd new) (elems new) = some (d, name) →
      I d = some g → g.type = .dir → g.lookup name = none → (∀ j, j < k → g.entry j ≠ none) →
      g.entry k = none → (k < g.nents ∨ k = g.nents) →
      Back gs sb (update I d
        (some (g.put k ⟨(S ip).inum, strncpyBytes name DIRSIZ⟩))) S → wp (K true) Q E gs) :
    wp (do
      match ← nameiparent cwd new with
      | none => K false
      | some (dp, name) =>
        ilock dp
        let linked ← dirlink dp name ((← get).itable ip).inum
        iunlockput dp
        K linked) Q E fs := by
  rw [wp_bind]
  refine h.wp_nameiparent ha hcwd new hE (fun _ gs hb => hno gs hb) ?_
  intro dp name T gs g hw hg hdir hpar _
  have hpos := one_pos dp
  have hnn := ha.nonneg dp
  simp only [wp_bind, wp_get]
  refine hw.doing.wp_ilock hnn hpos rfl (fun hgone => by rw [hg] at hgone; cases hgone) ?_
  intro ks U g' hd halike hval hg' _ _
  obtain rfl := Option.some.inj (hg.symm.trans hg')
  have hinum : (ks.itable ip).inum = (S ip).inum := by
    rw [hd.shows.inum]
    exact (hd.held.keep ip hip).1
  have hUdp := (halike dp).1
  rw [hinum]
  refine hd.wp_dirlink hnn (one_nonneg dp) hpos hval (by rw [hUdp]; exact hg) hdir
    (ha.whole _ g hg hdir) name _ ?_ ?_ ?_
  · intro hall
    refine hE _ _ (.inl ⟨rfl, fun hs => ?_⟩)
    obtain ⟨t, ht⟩ := ((hs.mono (Nat.le_refl 2)).held hd.held).idle
    exact hall t ht
  · intro ls V hv _ _
    exact hv.wp_finish ha hno
  · intro k ls hnew hbefore hfree hk hl
    have hplace : k < g.nents ∨ k = g.nents := hk.imp_right And.left
    rw [hUdp] at hl
    exact hl.wp_finish (ha.put hg (strncpyBytes_length _ _) hdir hplace) fun ms hb =>
      hyes _ g name k ms hpar hg hdir hnew hbefore hfree hplace hb

theorem Doing.onTop {I' : Nat → Option Node} {R : Fin NINODE → Int} {T U : Fin NINODE → Slot}
    (h : Held S R T) (hR : ∀ t, 0 ≤ R t) (hd : Doing gs sb I' T 0 noLocks U) :
    Doing gs sb I' S R noLocks U :=
  ⟨hd.shows, (h.trans hd.held hR).congr fun t => by rw [add_zero], hd.locked⟩

/-- `sys_link` fails and has changed nothing, or the file `x` has one more name and a link count
raised by one. If that makes its count 0 and nobody uses it, it is freed. -/
theorem Shows.wp_link (h : Shows fs sb I S) (ha : AtRest I S) (hcwd : 0 < (S cwd).ref)
    (old new : List UInt8) (hE : ∀ e gs, MayStop I S 3 e → E e gs) {Q : Int → Fs → Prop}
    (hfail : ∀ gs, Back gs sb I S → Q (-1) gs)
    (hdone : ∀ x f d g name k I' gs, walk I (startOf S cwd old) (elems old) = some x →
      I x = some f → f.type ≠ .dir →
      walkParent I (startOf S cwd new) (elems new) = some (d, name) → I d = some g →
      g.type = .dir → g.lookup name = none → (∀ j, j < k → g.entry j ≠ none) → g.entry k = none →
      (k < g.nents ∨ k = g.nents) →
      Dropped (update (update I x
        (some { f with nlink := short (f.nlink + 1) })) d
        (some (g.put k ⟨x, strncpyBytes name DIRSIZ⟩))) S x I' → Back gs sb I' S → Q 0 gs) :
    wp (link cwd old new) Q E fs := by
  unfold link
  rw [wp_bind]
  refine h.wp_namei ha hcwd old (fun e gs he => hE e gs (he.imp_left fun hc =>
    ⟨hc.1, fun hs => hc.2 (hs.mono (by decide))⟩)) (fun _ gs hb => hfail gs hb) ?_
  intro ip T gs hw hfound
  have hpos := one_pos ip
  have hnn := ha.nonneg ip
  simp only [wp_bind, wp_get, wp_ite, wp_pure]
  refine hw.doing.wp_ilock hnn hpos rfl (fun hno ks => hE _ ks (.inr ⟨rfl, _, ?_, hno⟩)) ?_
  · exact hw.origin.resolve_right fun hin => ha.used _ hin hno
  intro ks U f hd halike hval hf htype _
  obtain ⟨x, hx⟩ : ∃ x, x = (T ip).inum := ⟨_, rfl⟩
  have hUx : (U ip).inum = x := (halike ip).1.trans hx.symm
  rw [← hx] at hf hfound
  refine ⟨fun hdir => ?_, fun hno => ?_⟩
  · exact hd.wp_finish ha hfail
  have hndir : f.type ≠ .dir := fun he => hno (htype.trans (congrArg some he))
  refine hd.wp_setNlink hnn hpos hval (by rw [hUx]; exact hf) _ fun ls hl => ?_
  refine hl.wp_iunlock hnn hpos (update_self ..) fun ms V hm halike' => ?_
  rw [lock_unlock rfl] at hm
  have hVx : (V ip).inum = x := (halike' ip).1.trans hUx
  rw [hUx] at hm
  obtain ⟨J, hJ⟩ : ∃ J, J = update I x (some { f with nlink := short (f.nlink + 1) }) :=
    ⟨_, rfl⟩
  rw [← hJ] at hm
  have hdirs : SameDirs I J := hJ ▸ SameDirs.set hf hndir hndir
  have hlive : ∀ t, 0 < (S t).ref → 0 < (V t).ref := by
    intro t ht
    have h1 := hm.held.ref t
    have h2 := one_nonneg ip t
    omega
  have hipV := hm.live hnn hpos
  -- with the reference to the file, the raised count is a state at rest
  have haV : AtRest J V := by
    have hI : AtRest I V := by
      refine ha.held hm.held (one_nonneg ip) (fun t ht => ?_) hm.locked
      have hti : t = ip := by
        by_contra hne
        rw [one_other hne] at ht
        exact absurd ht (Int.lt_irrefl 0)
      rw [hti, hVx, hf]
      exact Option.some_ne_none f
    rw [hJ]
    exact hI.set (fun he => absurd he hndir) (fun _ => ⟨ip, hipV, hVx⟩) (short_range _)
  have hstart : startOf V cwd new = startOf S cwd new := by
    unfold startOf
    rw [(hm.held.keep cwd hcwd).1]
  have hname := hm.shows.wp_linkName (E := E) (Q := Q) haV (hlive cwd hcwd) hipV new
    (K := fun linked => if linked = true then do
        iput ip
        pure 0
      else do
        ilock ip
        setNlink ip (· - 1)
        iunlockput ip
        pure (-1)) (fun e ns he => hE e ns ?_) ?_ ?_
  · rw [wp_bind] at hname
    exact hname
  · refine he.imp (fun hc => ⟨hc.1, fun hs => hc.2 (hs.held hm.held)⟩) fun hc => ⟨hc.1, ?_⟩
    obtain ⟨y, hy, hnone⟩ := hc.2
    refine ⟨y, hdirs.named hy, ?_⟩
    rw [hJ] at hnone
    by_cases hyx : y = x
    · rw [hyx, update_self] at hnone
      cases hnone
    · rwa [update_of_ne hyx] at hnone
  · rintro ns ⟨W, hW⟩
    have hWx : (W ip).inum = x := ((hW.held.keep ip hipV).1).trans hVx
    rw [if_neg (by decide)]
    have hn := hW.onTop hm.held (one_nonneg ip)
    rw [hJ] at hn
    exact Doing.wp_linkBad ha (by rw [hWx]; exact hf) (by rw [hWx]; exact hn) hfail
  · intro d g name k ns hpar hg hdir hnew hbefore hfree hk hb
    obtain ⟨W, hW⟩ := hb
    have hWx : (W ip).inum = x := ((hW.held.keep ip hipV).1).trans hVx
    rw [if_pos rfl, wp_bind]
    have hn := hW.onTop hm.held (one_nonneg ip)
    refine hn.wp_iput hnn (one_nonneg ip) hpos rfl fun I' os X ho hrel _ _ _ => ?_
    rw [hWx, hVx, hJ] at hrel
    refine hdone x f d g name k I' os hfound hf hndir ?_ ((hdirs d g hdir).mp hg) hdir hnew hbefore
      hfree hk hrel ⟨X, ho.congr (fun t => sub_self _) fun _ => rfl⟩
    rw [← hdirs.walkParent, ← hstart]
    exact hpar

end Link

/-! `unlink`. -/

section Unlink
variable {gs : Fs} {S' : Fin NINODE → Slot} {R : Fin NINODE → Int} {L : Fin NINODE → Bool}
  {s : Fin NINODE} {f : Node}

theorem Doing.wp_isdirempty (h : Doing gs sb I S R L S') (hn : 0 ≤ (S s).ref) (hpos : 0 < R s)
    (hv : (S' s).valid = true) (hE : ∀ e ks, E e ks) {Q : Bool → Fs → Prop}
    (hQ : ∀ b, Q b gs) : wp (isdirempty s) Q E gs := by
  simp only [isdirempty, wp_bind, wp_get]
  have hscan := wp_scan (Q := fun found ks => Q (found == none) ks) (E := E) h.shows.wf
    (h.shows.live.mpr (h.live hn hpos)) (h.shows.valid.trans hv) 2
    (fun _ => hE "isdirempty: readi" gs)
    (c := fun _ de => pure (if de.inum ≠ 0 then some () else none)) (fun _ => True)
    (fun _ _ => hQ _) ?_
  · exact hscan
  · intro k _ _ _
    rw [wp_pure]
    split
    · exact hQ _
    · exact ⟨rfl, trivial⟩

theorem wp_ilock_locked (hE : ∀ e ks, E e ks) (hlk : (gs.itable s).locked = true) :
    wp (ilock s) Q E gs := by
  simp only [ilock, acquireSleep, wp_bind, wp_get, wp_ite, wp_throw]
  exact ⟨fun _ => hE _ _, fun _ => ⟨fun _ => hE _ _, fun hno => absurd hlk hno⟩⟩

theorem wp_skip {σ α : Type} {c : Prog σ String α} {s : σ} {Q : α → σ → Prop}
    (hQ : ∀ a t, Q a t) : wp c Q anyStop s := by
  unfold wp
  split
  · exact hQ _ _
  · trivial

theorem Shows.wp_unlink (h : Shows fs sb I S) (ha : AtRest I S) (hcwd : 0 < (S cwd).ref)
    (path : List UInt8) :
    wp (unlink cwd path) (fun r gs => r = -1 → Back gs sb I S) anyStop fs := by
  unfold unlink
  rw [wp_bind]
  refine h.wp_nameiparent ha hcwd path (fun _ _ _ => trivial) (fun _ gs hb _ => hb) ?_
  intro dp name T gs g hw hg hdir _ _
  have hpos := one_pos dp
  have hnn := ha.nonneg dp
  simp only [wp_bind, wp_ite, wp_pure]
  refine hw.doing.wp_ilock hnn hpos rfl (fun _ _ => trivial) ?_
  intro ks U g' hd halike hval _ _ _
  have hUg : I (U dp).inum = some g := by rw [(halike dp).1, hg]
  refine ⟨fun _ => hd.wp_finish ha fun ms hb _ => hb, fun _ => ?_⟩
  refine hd.wp_dirlookup hnn hpos hval hUg hdir (ha.whole _ g hg hdir) name (fun _ => trivial)
    (fun _ => ?_) ?_ (one_nonneg dp)
  · simp only [wp_bind, wp_pure]
    exact hd.wp_finish ha fun ms hb _ => hb
  intro x off ip ls V _ hl hother hVx _
  have hR := two_nonneg dp ip
  have hposip := two_pos_right dp ip
  simp only [wp_bind, wp_get, wp_ite, wp_throw]
  by_cases heq : ip = dp
  · -- a directory that names itself, which is locked
    refine wp_ilock_locked (fun _ _ => trivial) ?_
    rw [hl.shows.locked, hl.locked, heq, update_self]
  refine hl.wp_ilock (ha.nonneg ip) hposip (update_of_ne heq _ _) (fun _ _ => trivial) ?_
  intro ms W f hm _ hvalip _ _ _
  refine ⟨fun _ => trivial, fun _ => ?_⟩
  have hfail : wp (iunlockput ip) (fun _ => wp (iunlockput dp) (fun _ ns => -1 = (-1 : Int) →
      Back ns sb I S) anyStop) anyStop ms := by
    refine hm.wp_putBack ha hR hposip (update_self ..) fun ns X hn _ _ => ?_
    rw [lock_unlock (update_of_ne heq _ _)] at hn
    refine (hn.congr (fun t => ?_) fun _ => rfl).wp_finish ha fun os hb _ => hb
    rw [add_sub_cancel_right]
  -- removing the name never ends with -1
  refine ⟨fun _ => hm.wp_isdirempty (ha.nonneg ip) hposip hvalip (fun _ _ => trivial) fun b => ?_,
    fun _ => ?_⟩ <;> refine ⟨fun _ => wp_skip fun wrote _ => ⟨fun _ => ?_, fun _ => trivial⟩,
    fun _ => hfail⟩
  all_goals
    refine ⟨fun _ => wp_skip fun _ _ => ?_, fun _ => ?_⟩ <;>
      exact wp_skip fun _ _ => wp_skip fun _ _ => wp_skip fun _ _ h0 => absurd h0 (by decide)

end Unlink

/-! `create`. -/

def parented (type : InodeType) (g : Node) : Node :=
  if type = .dir then { g with nlink := short (g.nlink + 1) } else g

/-- `create` can make a file: the directory is there and does not have the name, an inode is free,
and the directory has a place for an entry or can grow. -/
def Fs.Makes (fs : Fs) (d : Nat) (names : List Name) : Prop :=
  ∃ e g name, walkParent fs.node d names = some (e, name) ∧ fs.node e = some g ∧
    g.lookup name = none ∧ (∃ x, 0 < x ∧ x < fs.sb.ninodes ∧ fs.node x = none) ∧
    ((∃ k, k < g.nents ∧ g.entry k = none) ∨ fs.SpaceAt e)

section Create
variable {gs : Fs} {S' : Fin NINODE → Slot} {ip dp : Fin NINODE} {x d : Nat} {f g : Node}

def twoLocks (dp ip : Fin NINODE) : Fin NINODE → Bool :=
  update (update noLocks dp true) ip true

theorem Doing.wp_createFail (ha : AtRest I S) (hx : I x = none) (hne : ip ≠ dp)
    (hidle : (S ip).ref = 0)
    (h : Doing gs sb (update I x (some f)) S (one dp + one ip) (twoLocks dp ip) S')
    (hi : (S' ip).inum = x) (hv : (S' ip).valid = true) {Q : Option (Fin NINODE) → Fs → Prop}
    (hQ : ∀ ks, Back ks sb I S → Q none ks) : wp (createFail ip dp) Q E gs := by
  simp only [createFail, wp_bind, wp_pure]
  refine h.wp_setNlink (ha.nonneg ip) (two_pos_right dp ip) hv
    (by rw [hi]; exact update_self ..) _ fun ks hk => ?_
  rw [hi, update_idem] at hk
  refine hk.wp_iunlockput (ha.nonneg ip) (two_nonneg dp ip) (two_pos_right dp ip)
    (update_self ..) ?_
  intro I' ls T hl _ hdead _ _
  have hgone : I' = I := by
    rw [hdead ⟨?_, hv, { f with nlink := short 0 }, ?_, rfl⟩, hi, update_idem]
    · exact update_eq_self_iff.mpr hx.symm
    · rw [hk.held.ref, hidle, Pi.add_apply, one_self, one_other hne]
      rfl
    · rw [hi]
      exact update_self ..
  rw [hgone, twoLocks, lock_unlock (update_of_ne hne _ _)] at hl
  exact (hl.congr (fun t => by rw [add_sub_cancel_right]) fun _ => rfl).wp_finish ha hQ

theorem Doing.wp_dotEntries (ha : AtRest I S) (hdir : f.type = .dir) (hb : f.bytes = [])
    (hnl : f.nlink = 1)
    (h : Doing gs sb (update I x (some f)) S (one dp + one ip) (twoLocks dp ip) S')
    (hi : (S' ip).inum = x) (hv : (S' ip).valid = true)
    (hfull : ∀ ks, (∀ t, (S' t).ref ≠ 0) → E "iget: no inodes" ks) {Q : Bool → Fs → Prop}
    (hno : ∀ f' ks T, Doing ks sb (update I x (some f')) S (one dp + one ip)
      (twoLocks dp ip) T → (T ip).inum = x → (T ip).valid = true → Q false ks)
    (hyes : ∀ f' ks, f'.type = .dir → f'.nlink = 1 →
      Doing ks sb (update I x (some f')) S (one dp + one ip) (twoLocks dp ip) S' →
      Q true ks) : wp (dotEntries ip dp) Q E gs := by
  have hself : ∀ v : Option Node, update I x v x = v := fun v => update_self ..
  have hnn := ha.nonneg ip
  have hpos := two_pos_right dp ip
  have hlive : 0 < (S' ip).ref := h.live hnn hpos
  have hkeep : ∀ T : Fin NINODE → Slot, (∀ t, 0 < (S' t).ref → (T t).inum = (S' t).inum ∧
      ((S' t).valid = true → (T t).valid = true)) → (T ip).inum = x ∧ (T ip).valid = true :=
    fun T hT => ⟨(hT ip hlive).1.trans hi, (hT ip hlive).2 hv⟩
  simp only [dotEntries, wp_bind, wp_get]
  refine h.wp_dirlink hnn (two_nonneg dp ip) hpos hv (by rw [hi, hself]) hdir
    (by rw [hb]; exact Nat.dvd_zero _) (ascii ".") _ (fun hall => hfull _ hall) ?_ ?_
  · intro ks T hk hT _
    exact hno f ks T hk (hkeep T hT).1 (hkeep T hT).2
  · intro k ks _ _ _ hk hks
    rw [hi, update_idem] at hks
    simp only [if_true, wp_bind, wp_get]
    obtain ⟨f1, hf1⟩ : ∃ f1, f1 = f.put k ⟨(gs.itable ip).inum, strncpyBytes (ascii ".") DIRSIZ⟩ :=
      ⟨_, rfl⟩
    rw [← hf1] at hks
    have hwhole : DESIZE ∣ f1.bytes.length := by
      rw [hf1]
      exact (Node.put_nents (strncpyBytes_length _ _) (by rw [hb]; exact Nat.dvd_zero _)
        (hk.imp_right And.left)).2
    have hdir1 : f1.type = .dir := by
      rw [hf1]
      exact hdir
    refine hks.wp_dirlink hnn (two_nonneg dp ip) hpos hv (by rw [hi, hself]) hdir1 hwhole
      (ascii "..") _ (fun hall => hfull _ hall) ?_ ?_
    · intro ls T hl hT _
      exact hno _ ls T hl (hkeep T hT).1 (hkeep T hT).2
    · intro k' ls _ _ _ _ hls
      rw [hi, update_idem] at hls
      refine hyes (f1.put k' _) ls hdir1 ?_ hls
      rw [hf1]
      exact hnl

theorem Doing.wp_createEntry (ha : AtRest I S) (hx : I x = none) (hne : ip ≠ dp)
    (hidle : (S ip).ref = 0) {type : InodeType}
    (h : Doing gs sb (update I x (some f)) S (one dp + one ip) (twoLocks dp ip) S')
    (hi : (S' ip).inum = x) (hv : (S' ip).valid = true) (hd : (S' dp).inum = d)
    (hvd : (S' dp).valid = true) (hg : I d = some g) (hdir : g.type = .dir)
    (hnew : g.lookup name = none) (hfull : ∀ ks, (∀ t, (S' t).ref ≠ 0) → E "iget: no inodes" ks)
    {Q : Option (Fin NINODE) → Fs → Prop}
    (hno : ∀ ks, Back ks sb I S → (∀ j, j < g.nents → g.entry j ≠ none) → ¬ gs.Space dp → Q none ks)
    (hyes : ∀ k I' ks T, g.entry k = none → (k < g.nents ∨ gs.Space dp) → I' x = some f →
      Doing ks sb I' S (one ip) (update noLocks ip true) T → (T ip).inum = x →
      (T ip).valid = true → Q (some ip) ks) : wp (createEntry ip dp name type) Q E gs := by
  have hdx : d ≠ x := by
    rintro rfl
    rw [hx] at hg
    cases hg
  have hnode : update I x (some f) (S' dp).inum = some g := by
    rw [hd, update_of_ne hdx, hg]
  have hnn := ha.nonneg dp
  have hposd := two_pos_left dp ip
  have hlive := h.live (ha.nonneg ip) (two_pos_right dp ip)
  have hinum : (gs.itable ip).inum = x := h.shows.inum.trans hi
  simp only [createEntry, wp_bind, wp_get, hinum]
  refine h.wp_dirlink hnn (two_nonneg dp ip) hposd hvd hnode hdir (ha.whole d g hg hdir) name x
    (fun hall => hfull _ hall) ?_ ?_
  · intro ks T hk hT hwhy
    rw [if_neg (by decide)]
    obtain ⟨hall, hspace⟩ := hwhy.resolve_left fun hthere => hthere hnew
    exact hk.wp_createFail ha hx hne hidle ((hT ip hlive).1.trans hi) ((hT ip hlive).2 hv)
      fun ls hb => hno ls hb hall hspace
  · intro k ks _ _ hfree hk hks
    rw [hd] at hks
    rw [if_pos rfl]
    -- counting the new directory does not change anything else
    have hend : ∀ ls, Doing ls sb (update (update I x (some f)) d
        (some (parented type (g.put k ⟨x, strncpyBytes name DIRSIZ⟩)))) S (one dp + one ip)
        (twoLocks dp ip) S' → wp (iunlockput dp) (fun _ ms => Q (some ip) ms) E ls := by
      intro ls hl
      have hlocks : twoLocks dp ip dp = true := by
        rw [twoLocks, update_of_ne (Ne.symm hne), update_self]
      refine hl.wp_iunlockput hnn (two_nonneg dp ip) hposd hlocks ?_
      intro I' ms T hm hrel _ hother _
      rw [hd] at hrel
      have hTip : T ip = S' ip := hother ip hne
      have hI' : I' x = some f := by
        obtain rfl | ⟨rfl, -, -⟩ := hrel
        · rw [update_of_ne hdx.symm, update_self]
        · rw [update_of_ne hdx.symm, update_of_ne hdx.symm, update_self]
      refine hyes k I' ms T hfree (hk.imp_right And.right) hI'
        (hm.congr (fun t => ?_) fun t => ?_) ?_ ?_
      · rw [add_sub_cancel_left]
      · rw [twoLocks, update_comm hne, lock_unlock rfl]
      · rw [hTip, hi]
      · rw [hTip, hv]
    by_cases htype : type = .dir
    · rw [if_pos htype]
      simp only [wp_bind, wp_pure]
      refine hks.wp_setNlink hnn hposd hvd (by rw [hd]; exact update_self ..) _
        fun ls hl => hend ls ?_
      rw [hd, update_idem] at hl
      rw [parented, if_pos htype]
      exact hl
    · rw [if_neg htype]
      simp only [wp_bind, wp_pure]
      refine hend ks ?_
      rw [parented, if_neg htype]
      exact hks

theorem Doing.wp_createNew (ha : AtRest I S) (type : InodeType) (major minor : Int)
    (h : Doing gs sb I S (one dp) (update noLocks dp true) S') (hd : (S' dp).inum = d)
    (hvd : (S' dp).valid = true) (hg : I d = some g) (hdir : g.type = .dir)
    (hnew : g.lookup name = none) (hst : Still d fs gs) (hsb : fs.sb = sb)
    (hfull : ∀ ks, ¬ Spare S 3 → E "iget: no inodes" ks) {Q : Option (Fin NINODE) → Fs → Prop}
    (hno : ∀ ks, Back ks sb I S → (type = .file → (∀ x, 0 < x → x < sb.ninodes → I x ≠ none) ∨
      (∀ j, j < g.nents → g.entry j ≠ none) ∧ ¬ fs.SpaceAt d) → Q none ks)
    (hyes : ∀ x f k I' ip ks T, 0 < x → x < sb.ninodes → I x = none → f.type = type →
      f.nlink = 1 → g.entry k = none → (type = .file → k < g.nents ∨ fs.SpaceAt d) →
      I' x = some f → Doing ks sb I' S (one ip) (update noLocks ip true) T →
      (T ip).inum = x → (T ip).valid = true → Q (some ip) ks) :
    wp (createNew dp name type major minor) Q E gs := by
  have hlive : ∀ t, 0 < (S' t).ref → I (S' t).inum ≠ none := by
    intro t ht
    by_cases hts : t = dp
    · rw [hts, hd, hg]
      exact Option.some_ne_none g
    · have href := h.held.ref t
      rw [one_other hts] at href
      have hl : 0 < (S t).ref := by omega
      rw [(h.held.keep t hl).1]
      exact ha.used _ ⟨t, hl, rfl⟩
  simp only [createNew, wp_bind]
  refine wp_frame (still_ialloc type) (h.wp_ialloc ha.nonneg (one_nonneg dp) hlive type
    (fun ks hall => hfull ks fun hs => ?_) ?_ ?_)
  · obtain ⟨t, ht⟩ := ((hs.mono (show 2 ≤ 3 by decide)).held h.held).idle
    exact hall t ht
  · intro hall _
    simp only [wp_bind, wp_pure]
    exact h.wp_finish ha fun ks hb => hno ks hb fun _ => .inl hall
  intro x ip ks T h0 hlt hx hidle hR0 hk hother hTx hst1
  have hne : ip ≠ dp := by
    rintro rfl
    rw [one_self] at hR0
    exact absurd hR0 (by decide)
  have hdx : d ≠ x := by
    rintro rfl
    rw [hx] at hg
    cases hg
  have hself : ∀ v : Option Node, update I x v x = v := fun v => update_self ..
  have hposip := two_pos_right dp ip
  simp only [wp_bind]
  refine wp_frame still_ilock (hk.wp_ilock hidle.ge hposip (update_of_ne hne _ _)
    (fun hgone => by rw [hTx, hself] at hgone; cases hgone) ?_)
  intro ls U f0 hl halike hval hf0 _ _ hst2
  rw [hTx, hself] at hf0
  obtain rfl := Option.some.inj hf0
  have hUx : (U ip).inum = x := (halike ip).1.trans hTx
  have hUd : (U dp).inum = d := by rw [(halike dp).1, hother dp (Ne.symm hne), hd]
  have hUvd : (U dp).valid = true := (halike dp).2 (by rw [hother dp (Ne.symm hne), hvd])
  have hspare : ∀ ms, (∀ t, (U t).ref ≠ 0) → E "iget: no inodes" ms := by
    intro ms hall
    refine hfull ms fun hs => ?_
    have h2 : Spare T 1 := by
      have h1 := hs.held h.held
      obtain ⟨A, hcard, hA⟩ := h1
      refine ⟨A.erase ip, ?_, fun t ht => ?_⟩
      · have := Finset.pred_card_le_card_erase (s := A) (a := ip)
        omega
      · rw [hother t (Finset.ne_of_mem_erase ht)]
        exact hA t (Finset.mem_of_mem_erase ht)
    obtain ⟨t, ht⟩ := h2.idle
    refine hall t ?_
    have h3 := hl.held.ref t
    have h4 := hk.held.ref t
    omega
  simp only [wp_modify]
  refine wp_frame still_iupdate (hl.shows.wp_store (hl.live hidle.ge hposip) hval
    (by rw [hUx, hself])
    { (ls.itable ip).d with major := short major, minor := short minor, nlink := 1 } rfl rfl rfl
    fun ms hm hst3 => ?_)
  rw [hUx, update_idem] at hm
  obtain ⟨b, hb⟩ : ∃ b : Node, b = ⟨type, short major, short minor, 1, []⟩ := ⟨_, rfl⟩
  have hdo : Doing ms sb (update I x (some b)) S (one dp + one ip) (twoLocks dp ip) U := by
    rw [hb]
    exact ⟨hm, hl.held, hl.locked⟩
  -- up to here nothing but inode `x` was written
  have hspace : ms.Space dp ↔ fs.SpaceAt d := by
    refine hdo.shows.space (hdo.live (ha.nonneg dp) (two_pos_left dp ip)) hUvd hUd ?_ hsb
    refine (hst.trans (hst1 d ?_)).trans ((hst2 d).trans ?_)
    · rw [h.shows.node, hg]
      exact Option.some_ne_none g
    · have hinum : ((ls.setD ip { (ls.itable ip).d with
          major := short major, minor := short minor, nlink := 1 }).itable ip).inum = x := by
        simp only [Fs.setD, Fs.setInode, update_self]
        exact hl.shows.inum.trans hUx
      have hlast := hst3 d (by rw [hinum]; exact hdx)
      exact ⟨hlast.bitmap, hlast.data, hlast.dinode⟩
  -- the rest, for a new inode whose own entries were made
  have hentry : ∀ f' ns, f'.type = type → f'.nlink = 1 →
      (type = .file → (ns.Space dp ↔ fs.SpaceAt d)) →
      Doing ns sb (update I x (some f')) S (one dp + one ip) (twoLocks dp ip) U →
      wp (createEntry ip dp name type) Q E ns := by
    intro f' ns hty hnl hsame hn
    refine hn.wp_createEntry ha hx hne hidle hUx hval hUd hUvd hg hdir hnew hspare
      (fun os hback hall hsp => hno os hback fun hfile => .inr ⟨hall, fun hc => hsp ?_⟩) ?_
    · exact (hsame hfile).mpr hc
    intro k I' os V hfree hcan hI' ho hVx hVv
    exact hyes x f' k I' ip os V h0 hlt hx hty hnl hfree
      (fun hfile => hcan.imp_right (hsame hfile).mp) hI' ho hVx hVv
  by_cases htype : type = .dir
  · rw [if_pos htype]
    have hfile : type ≠ .file := by
      rw [htype]
      decide
    refine Doing.wp_dotEntries ha (by rw [hb]; exact htype) (by rw [hb]) (by rw [hb]) hdo
      hUx hval hspare ?_ ?_
    · intro f' ns V hn hVx hVv
      rw [if_neg (by decide)]
      exact hn.wp_createFail ha hx hne hidle hVx hVv fun os hback =>
        hno os hback fun hf => absurd hf hfile
    · intro f' ns hty hnl hn
      rw [if_pos rfl]
      exact hentry f' ns (hty.trans htype.symm) hnl (fun hf => absurd hf hfile) hn
  · rw [if_neg htype, wp_pure, if_pos rfl]
    exact hentry b ms (by rw [hb]) (by rw [hb]) (fun _ => hspace) hdo

/-- `create` fails and has changed nothing, finds an inode, or makes one; it makes a file exactly
if it can. -/
theorem Shows.wp_create (h : Shows fs sb I S) (ha : AtRest I S) (hcwd : 0 < (S cwd).ref)
    (path : List UInt8) (type : InodeType) (major minor : Int)
    (hE : ∀ e gs, MayStop I S 3 e → E e gs) {Q : Option (Fin NINODE) → Fs → Prop}
    (hno : ∀ gs, Back gs sb I S →
      (type = .file → ¬ fs.Makes (startOf S cwd path) (elems path)) → Q none gs)
    (hfound : ∀ ip gs T, ¬ fs.Makes (startOf S cwd path) (elems path) →
      Doing gs sb I S (one ip) (update noLocks ip true) T → Q (some ip) gs)
    (hnew : ∀ x f I' ip gs T, (type = .file → fs.Makes (startOf S cwd path) (elems path)) →
      I x = none → f.type = type → f.nlink = 1 → I' x = some f →
      Doing gs sb I' S (one ip) (update noLocks ip true) T → (T ip).inum = x →
      (T ip).valid = true → Q (some ip) gs) :
    wp (create cwd path type major minor) Q E fs := by
  have hE2 : ∀ e gs, MayStop I S 2 e → E e gs := fun e gs he =>
    hE e gs (he.imp_left fun hc => ⟨hc.1, fun hs => hc.2 (hs.mono (by decide))⟩)
  unfold create
  rw [wp_bind]
  refine h.wp_nameiparent ha hcwd path hE2 (fun hnone gs hb => hno gs hb fun _ hm => ?_) ?_
  · obtain ⟨e, g, name, hpar, -⟩ := hm
    rw [h.node, hnone] at hpar
    cases hpar
  intro dp name T gs g hw hg hdir hpar hst1
  -- what it takes to make a file of this name
  have hmakes : fs.Makes (startOf S cwd path) (elems path) ↔ g.lookup name = none ∧
      (∃ x, 0 < x ∧ x < sb.ninodes ∧ I x = none) ∧
      ((∃ k, k < g.nents ∧ g.entry k = none) ∨ fs.SpaceAt (T dp).inum) := by
    unfold Fs.Makes
    rw [h.node, h.sb]
    constructor
    · rintro ⟨e, g', name', hpar', hg', hrest⟩
      obtain ⟨rfl, rfl⟩ := Prod.mk.inj (Option.some.inj (hpar.symm.trans hpar'))
      obtain rfl := Option.some.inj (hg.symm.trans hg')
      exact hrest
    · exact fun hrest => ⟨_, g, name, hpar, hg, hrest⟩
  have hpos := one_pos dp
  have hnn := ha.nonneg dp
  simp only [wp_bind]
  refine wp_frame still_ilock
    (hw.doing.wp_ilock hnn hpos rfl (fun hgone => by rw [hg] at hgone; cases hgone) ?_)
  intro ks U g' hd halike hval _ _ _ hst2
  have hUd := (halike dp).1
  refine hd.wp_dirlookup hnn hpos hval (by rw [hUd]; exact hg) hdir (ha.whole _ g hg hdir) name
    (fun hall => ?_) (fun hnone => ?_) ?_ (one_nonneg dp)
  · refine hE _ _ (.inl ⟨rfl, fun hs => ?_⟩)
    obtain ⟨t, ht⟩ := ((hs.mono (show 2 ≤ 3 by decide)).held hd.held).idle
    exact hall t ht
  · refine hd.wp_createNew ha type major minor hUd hval hg hdir hnone
      ((hst1 _).trans (hst2 _)) h.sb (fun ls hs => hE _ ls (.inl ⟨rfl, hs⟩)) ?_ ?_
    · refine fun ls hb hwhy => hno ls hb fun hfile hm => ?_
      obtain ⟨-, ⟨x, h0, hlt, hx⟩, hplace⟩ := hmakes.mp hm
      obtain hall | ⟨hall, hsp⟩ := hwhy hfile
      · exact hall x h0 hlt hx
      · obtain ⟨k, hk, hfree⟩ | hsp' := hplace
        · exact hall k hk hfree
        · exact hsp hsp'
    · intro x f k I' ip ls V h0 hlt hx hty hnl hfree hcan hI' hl hVx hVv
      refine hnew x f I' ip ls V (fun hfile => hmakes.mpr ⟨hnone, ⟨x, h0, hlt, hx⟩, ?_⟩) hx hty
        hnl hI' hl hVx hVv
      exact (hcan hfile).imp_left fun hk => ⟨k, hk, hfree⟩
  intro x off ip ls V hsome hl hother hVx _
  have hnot : ¬ fs.Makes (startOf S cwd path) (elems path) := by
    intro hm
    rw [(hmakes.mp hm).1] at hsome
    cases hsome
  simp only [wp_bind, wp_get, wp_ite, wp_pure]
  refine hl.wp_putBack ha (two_nonneg dp ip) (two_pos_left dp ip) (update_self ..) ?_
  intro ms W hm hotherW hWd
  have hWx : (W ip).inum = x := by
    by_cases heq : ip = dp
    · rw [heq, hWd, ← heq, hVx]
    · rw [hotherW ip heq, hVx]
  have hm' : Doing ms sb I S (one ip) noLocks W :=
    hm.congr (fun t => by rw [add_sub_cancel_left]) fun t => by rw [lock_unlock rfl]
  refine hm'.wp_ilock (ha.nonneg ip) (one_pos ip) rfl (fun hgone ns => hE _ ns ?_) ?_
  · refine .inr ⟨rfl, x, .inr ⟨_, g, name, hg, hdir, ?_⟩, hWx ▸ hgone⟩
    rw [Node.child, hsome]
    rfl
  intro ns X f hn _ _ _ _ _
  exact ⟨fun _ => hfound ip ns X hnot hn, fun _ => hn.wp_finish ha fun os hb =>
    hno os hb fun _ => hnot⟩

end Create

end Calls

end Xv6Audit.FileSys
