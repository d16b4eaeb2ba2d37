import Xv6Audit.Fs.Policy

/-! File systems with exact link counts, and the calls that keep them so. -/
namespace Xv6Audit.FileSys

open Prog Disk LinkTree

structure Sound (fs : Fs) : Prop where
  ready : Ready fs
  tidy : Tidy ROOTINO dot dotdot fs.tree
  numbered : Numbered fs
  range : ∀ x, fs.tree.nlink x ≤ 32767

section Sound
variable {fs gs : Fs} {R : Fin NINODE → Int} {cwd s ip dp : Fin NINODE} {E : String → Fs → Prop}

theorem dot_ne_dotdot : dot ≠ dotdot := by decide

theorem Sound.nonneg (h : Sound fs) (x : Nat) : 0 ≤ fs.tree.nlink x := by
  by_cases hk : fs.tree.kind x = none
  · rw [(free_node hk).1]
  · rw [h.tidy.count x hk]
    split <;> omega

/-! Numbers and counts. -/

theorem Numbered.of_kind (h : Numbered fs) (hsb : gs.sb = fs.sb)
    (hk : ∀ i, gs.tree.kind i ≠ none → fs.tree.kind i ≠ none) : Numbered gs :=
  ⟨by rw [hsb]; exact h.fits, fun i hi => by rw [hsb]; exact h.alloc i (hk i hi)⟩

variable {d k x : Nat} {n : Name} {type : InodeType} {t : Tree Nat Name}

theorem Numbered.created (h : Numbered fs) (hg : Ends fs R gs) (hx : fs.freeInum = some x)
    (ht : gs.tree = (born fs.tree type x d).link d k n x) : Numbered gs := by
  obtain ⟨hx0, hxlt, -⟩ := freeInum_spec hx
  refine ⟨by rw [hg.sb]; exact h.fits, fun i hi => ?_⟩
  rw [hg.sb]
  rw [ht] at hi
  by_cases hix : i = x
  · omega
  · exact h.alloc i (by rw [← (born_sameBut fs.tree type x d).kind i hix]; exact hi)

theorem created_range (h : ∀ y, t.nlink y ≤ 32767) (hmax : type = .dir → t.nlink d < 32767)
    (y : Nat) :
    ((born t type x d).link d k n x).nlink y ≤ 32767 := by
  obtain ⟨hb0, hbk⟩ := born_self t type x d
  simp only [Tree.link]
  by_cases hyx : y = x
  · subst y
    rw [if_pos (show (born t type x d).Counts d x x from .inl rfl), hb0]
    decide
  · rw [(born_sameBut t type x d).nlink y hyx]
    split
    · rename_i hc
      obtain ⟨rfl, hdir⟩ := hc.resolve_left hyx
      have htype : type = .dir := by
        rw [hbk] at hdir
        cases type <;> simp_all [kindOf]
      have := hmax htype
      omega
    · exact h y

theorem linked_range (h : ∀ y, t.nlink y ≤ 32767) (hx : t.kind x = some .leaf)
    (hmax : t.nlink x < 32767) (y : Nat) :
    (t.link d k n x).nlink y ≤ 32767 := by
  simp only [Tree.link]
  split
  · rename_i hc
    rcases hc with rfl | ⟨-, hdir⟩
    · omega
    · rw [hx] at hdir
      cases hdir
  · exact h y

theorem Sound.created (h : Sound fs) (hg : Ends fs R gs) (hx : fs.freeInum = some x)
    (hdd : type ≠ .dir → ∀ e m, fs.tree.ent e 1 ≠ some (x, m)) (hd : fs.tree.kind d = some .dir)
    (hpos : 0 < fs.tree.nlink d) (hmax : type = .dir → fs.tree.nlink d < 32767)
    (hfree : fs.tree.ent d k = none) (hname : ∀ j y, fs.tree.ent d j ≠ some (y, n))
    (ht : gs.tree = (born fs.tree type x d).link d k n x) : Sound gs := by
  have hxk : fs.tree.kind x = none := kind_none.mpr (freeInum_spec hx).2.2
  have hxd : d ≠ x := by
    rintro rfl
    rw [hxk] at hd
    cases hd
  have hsame := born_sameBut fs.tree type x d
  obtain ⟨hb0, hbk⟩ := born_self fs.tree type x d
  have hborn : Tidy ROOTINO dot dotdot (born fs.tree type x d) := by
    unfold born
    split
    · exact h.tidy.newDir dot_ne_dotdot hxk hd
    · rename_i htype
      exact h.tidy.newLeaf hxk (hdd htype)
  have hxb : (born fs.tree type x d).kind x ≠ none := by
    rw [hbk]
    simp
  obtain ⟨hroot, hnl, -⟩ := hborn.unlinked_of_zero hxb hb0
  have htidy : Tidy ROOTINO dot dotdot gs.tree := by
    rw [ht]
    refine hborn.link ?_ ?_ (h.tidy.dotted.two_le hd hfree) ?_ ?_ hxb fun _ =>
      ⟨hroot, hnl, Ne.symm hxd⟩
    · rw [hsame.kind d hxd]
      exact hd
    · rw [hsame.nlink d hxd]
      exact hpos
    · rw [hsame.ent d hxd]
      exact hfree
    · rw [hsame.ent d hxd]
      exact hname
  exact ⟨hg.ready, htidy, h.numbered.created hg hx ht, ht ▸ created_range h.range hmax⟩

theorem Sound.linked (h : Sound fs) (hg : Ends fs R gs) (hx : fs.tree.kind x = some .leaf)
    (hmax : fs.tree.nlink x < 32767) (hd : fs.tree.kind d = some .dir) (hpos : 0 < fs.tree.nlink d)
    (hfree : fs.tree.ent d k = none) (hname : ∀ j y, fs.tree.ent d j ≠ some (y, n))
    (ht : gs.tree = fs.tree.link d k n x) : Sound gs := by
  have htidy : Tidy ROOTINO dot dotdot gs.tree := by
    rw [ht]
    refine h.tidy.link hd hpos (h.tidy.dotted.two_le hd hfree) hfree hname (by rw [hx]; simp) ?_
    intro hdir
    rw [hx] at hdir
    cases hdir
  refine ⟨hg.ready, htidy, h.numbered.of_kind hg.sb fun i hi => ?_, ht ▸ linked_range h.range hx hmax⟩
  rw [ht] at hi
  exact hi

theorem reaps_kind {t' : Tree Nat Name} (hr : t.Reaps t') {i : Nat} (hi : t'.kind i ≠ none) :
    t.kind i ≠ none := by
  induction hr with
  | none => exact hi
  | @free t' x _ _ _ ih =>
    refine ih ?_
    by_cases hix : i = x
    · subst i
      simp [Tree.reset] at hi
    · simpa only [Tree.reset, Function.update_of_ne hix] using hi

theorem reaps_range {t' : Tree Nat Name} (hr : t.Reaps t') (h : ∀ y, t.nlink y ≤ 32767) (y : Nat) :
    t'.nlink y ≤ 32767 := by
  induction hr with
  | none => exact h y
  | @free t' x _ _ _ ih =>
    by_cases hyx : y = x
    · subst y
      simp [Tree.reset]
    · simpa only [Tree.reset, Function.update_of_ne hyx] using ih

theorem Sound.reaped (h : Sound fs) (hg : Ends fs R gs) (hr : fs.tree.Reaps gs.tree) : Sound gs :=
  ⟨hg.ready, h.tidy.reaps hr, h.numbered.of_kind hg.sb fun _ => reaps_kind hr,
    reaps_range hr h.range⟩

theorem unlink_range (h : ∀ y, t.nlink y ≤ 32767) (d k x y : Nat) :
    (t.unlink d k x).nlink y ≤ 32767 := by
  have := h y
  simp only [Tree.unlink]
  split <;> omega

theorem Sound.unlinked (h : Sound fs) (hg : Ends fs R gs) (hk : 2 ≤ k)
    (he : fs.tree.ent d k = some (x, n))
    (hempty : fs.tree.kind x = some .dir → ∀ j, 2 ≤ j → fs.tree.ent x j = none)
    (hr : (fs.tree.unlink d k x).Reaps gs.tree) : Sound gs :=
  ⟨hg.ready, (h.tidy.unlink hk he hempty).reaps hr, h.numbered.of_kind hg.sb fun _ => reaps_kind hr,
    reaps_range hr (unlink_range h.range d k x)⟩

theorem Ready.dir_small (h : Ready fs) (hd : fs.tree.kind d = some .dir)
    (hcount : fs.tree.nlink d = (fs.tree.links d).ncard + if d = ROOTINO then 1 else 0)
    (hone : ∀ e k n e' k' n', 2 ≤ k → 2 ≤ k' → fs.tree.ent e k = some (d, n) →
      fs.tree.ent e' k' = some (d, n') → e = e' ∧ k = k') : fs.tree.nlink d < 32767 := by
  have hsize := h.wf.size_le (i := d) (by rw [FileSys.kind_dir.mp hd]; simp)
  have hnents : fs.nents d ≤ 17152 := by
    have hmax : MAXFILE * BSIZE = 274432 := rfl
    unfold Fs.nents DESIZE
    omega
  obtain ⟨A, hA⟩ : ∃ A : Set (Nat × Nat), A = {p | 2 ≤ p.2 ∧ ∃ n, fs.tree.ent p.1 p.2 = some (d, n)} :=
    ⟨_, rfl⟩
  have hsub : fs.tree.links d ⊆ A ∪ (fun k => (d, k)) '' (↑(Finset.range (fs.nents d)) : Set Nat) := by
    rintro ⟨e, k⟩ ⟨hk, y, n, he, hy | ⟨hed, -⟩⟩
    · exact .inl (by rw [hA]; exact ⟨hk, n, hy ▸ he⟩)
    · have hed' : e = d := hed
      subst e
      exact .inr ⟨k, by simpa using entry_lt_nents (show fs.entry d k = _ from he), rfl⟩
  have hA1 : A.Subsingleton := by
    rintro ⟨e, k⟩ hp ⟨e', k'⟩ hq
    rw [hA] at hp hq
    obtain ⟨hk, n, he⟩ := hp
    obtain ⟨hk', n', he'⟩ := hq
    obtain ⟨rfl, rfl⟩ := hone _ _ _ _ _ _ hk hk' he he'
    rfl
  have hAcard : A.ncard ≤ 1 := by
    rcases hA1.eq_empty_or_singleton with he | ⟨q, hq⟩
    · simp [he]
    · simp [hq]
  have hle : (fs.tree.links d).ncard ≤ 1 + fs.nents d := by
    calc (fs.tree.links d).ncard
        ≤ (A ∪ (fun k => (d, k)) '' (↑(Finset.range (fs.nents d)) : Set Nat)).ncard :=
          Set.ncard_le_ncard hsub (hA1.finite.union ((Finset.finite_toSet _).image _))
      _ ≤ A.ncard + ((fun k => (d, k)) '' (↑(Finset.range (fs.nents d)) : Set Nat)).ncard :=
          Set.ncard_union_le _ _
      _ ≤ 1 + fs.nents d := by
          refine Nat.add_le_add hAcard ?_
          refine (Set.ncard_image_le (Finset.finite_toSet _)).trans ?_
          rw [Set.ncard_coe_finset, Finset.card_range]
  rw [hcount]
  split <;> omega

/-! As an invariant of runs. -/

/-- What `create` needs to find, for the counts to stay exact: a parent that is linked itself,
and for anything but a directory a free inode that no `..` names. -/
structure Fs.MayCreate (fs : Fs) (cwd : Fin NINODE) (path : List UInt8) (type : InodeType) :
    Prop where
  parent : ∀ d n, fs.Parent cwd path d n → 0 < fs.tree.nlink d
  unnamed : type ≠ .dir → ∀ x, fs.freeInum = some x → ∀ e m, fs.tree.ent e 1 ≠ some (x, m)

structure Fs.MayLink (fs : Fs) (cwd : Fin NINODE) (old new : List UInt8) : Prop where
  target : ∀ x, fs.resolve (fs.start cwd old) (elems old) = some x → fs.tree.nlink x < 32767
  parent : ∀ d n, fs.Parent cwd new d n → 0 < fs.tree.nlink d

def exactCounts : Policy where
  inv := Sound
  mayCreate := Fs.MayCreate
  mayLink := Fs.MayLink
  mayUnlink := fun _ _ _ => True

theorem Sound.basic (h : Sound fs) : Basic fs :=
  ⟨h.ready, h.numbered, h.tidy.dotted, h.nonneg, h.range, fun d hd =>
    h.ready.dir_small hd (h.tidy.count d (by rw [hd]; simp))
      (h.tidy.single d hd)⟩

theorem exactCounts_keeps : exactCounts.Keeps where
  basic h := Sound.basic h
  reaps h hg hr := Sound.reaped h hg hr
  created h hok hpar hroom hx hg ht :=
    Sound.created h hg hx (fun hty => hok.unnamed hty _ hx) hroom.dir (hok.parent _ _ hpar)
      (fun _ => (Sound.basic h).small _ hroom.dir) hroom.free hroom.fresh ht
  target _ hok hx := hok.target _ hx
  linked h hok hpar hroom hx hmax hg ht :=
    Sound.linked h hg hx hmax hroom.dir (hok.parent _ _ hpar) hroom.free hroom.fresh ht
  unlinked h _ _ hk he _ hempty hg hr := Sound.unlinked h hg hk he hempty hr

end Sound

end Xv6Audit.FileSys
