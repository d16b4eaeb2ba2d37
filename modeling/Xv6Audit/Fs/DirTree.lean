import Xv6Audit.Lib.Forest
import Xv6Audit.Fs.Sound

/-! File systems whose directories form a tree. Unlike exact counts, this also outlives files
that are made in removed directories. -/
namespace Xv6Audit.FileSys

open Prog Disk LinkTree

structure DirTree (fs : Fs) : Prop where
  ready : Ready fs
  forest : Forest ROOTINO dot dotdot fs.tree
  numbered : Numbered fs
  range : ∀ x, fs.tree.nlink x ≤ 32767

section DirTree
variable {fs gs : Fs} {R : Fin NINODE → Int}

theorem DirTree.basic (h : DirTree fs) : Basic fs := by
  refine ⟨h.ready, h.numbered, h.forest.dotted, fun x => ?_, h.range, fun d hd => ?_⟩
  · by_cases hk : fs.tree.kind x = none
    · rw [(free_node hk).1]
    · exact h.forest.nonneg hk
  · exact h.ready.dir_small hd (h.forest.count d hd) (h.forest.single d hd)

variable {x d k : Nat} {n : Name}

theorem forest_born {t : Tree Nat Name} (h : Forest ROOTINO dot dotdot t) (hx : t.kind x = none)
    (type : InodeType) (d : Nat) :
    Forest ROOTINO dot dotdot (born t type x d) := by
  unfold born
  split
  · exact h.newDir dot_ne_dotdot hx d
  · exact h.newLeaf hx

theorem forest_created {t : Tree Nat Name} (h : Forest ROOTINO dot dotdot t) {type : InodeType}
    (hx : t.kind x = none) (hd : t.kind d = some .dir) (hfree : t.ent d k = none)
    (hname : ∀ j y, t.ent d j ≠ some (y, n)) :
    Forest ROOTINO dot dotdot ((born t type x d).link d k n x) := by
  have hxd : d ≠ x := by
    rintro rfl
    rw [hx] at hd
    cases hd
  have hsame := born_sameBut t type x d
  obtain ⟨hb0, hbk⟩ := born_self t type x d
  have hborn := forest_born h hx type d
  have hxb : (born t type x d).kind x ≠ none := by
    rw [hbk]
    simp
  obtain ⟨hroot, hnl, -⟩ := hborn.unlinked_of_zero hxb hb0
  refine hborn.link ?_ (h.dotted.two_le hd hfree) ?_ ?_ hxb fun hdir => ?_
  · rw [hsame.kind d hxd]
    exact hd
  · rw [hsame.ent d hxd]
    exact hfree
  · rw [hsame.ent d hxd]
    exact hname
  · have htype : type = .dir := by
      rw [hbk] at hdir
      cases type <;> simp_all [kindOf]
    have hent := t.newDir_ent dot dotdot x d
    subst type
    refine ⟨hroot, hnl, Ne.symm hxd, ?_, fun j hj => ?_⟩
    · exact hent 1
    · exact (hent j).trans (by rw [if_neg (by omega), if_neg (by omega)])

section
variable (h : DirTree fs) (hg : Ends fs R gs)
include h hg

theorem DirTree.created {type : InodeType} (hx : fs.freeInum = some x) (hroom : fs.Room d k n)
    (ht : gs.tree = (born fs.tree type x d).link d k n x) : DirTree gs := by
  have hxk : fs.tree.kind x = none := kind_none.mpr (freeInum_spec hx).2.2
  refine ⟨hg.ready, ?_, h.numbered.created hg hx ht, ht ▸ created_range h.range fun _ => ?_⟩
  · rw [ht]
    exact forest_created h.forest hxk hroom.dir hroom.free hroom.fresh
  · exact h.basic.small d hroom.dir

theorem DirTree.linked (hx : fs.tree.kind x = some .leaf) (hmax : fs.tree.nlink x < 32767)
    (hroom : fs.Room d k n) (ht : gs.tree = fs.tree.link d k n x) :
    DirTree gs := by
  refine ⟨hg.ready, ?_, h.numbered.of_kind hg.sb fun i hi => ?_,
    ht ▸ linked_range h.range hx hmax⟩
  · rw [ht]
    refine h.forest.link hroom.dir (h.forest.dotted.two_le hroom.dir hroom.free) hroom.free
      hroom.fresh (by rw [hx]; simp) fun hdir => ?_
    rw [hx] at hdir
    cases hdir
  · rw [ht] at hi
    exact hi

theorem DirTree.reaped (hr : fs.tree.Reaps gs.tree) :
    DirTree gs :=
  ⟨hg.ready, h.forest.reaps hr, h.numbered.of_kind hg.sb fun _ => reaps_kind hr,
    reaps_range hr h.range⟩

theorem DirTree.unlinked (hk : 2 ≤ k) (he : fs.tree.ent d k = some (x, n))
    (hr : (fs.tree.unlink d k x).Reaps gs.tree) : DirTree gs :=
  ⟨hg.ready, (h.forest.unlink hk he).reaps hr, h.numbered.of_kind hg.sb fun _ => reaps_kind hr,
    reaps_range hr (unlink_range h.range d k x)⟩

end

def dirTrees : Policy where
  inv := DirTree
  mayCreate := fun _ _ _ _ => True
  mayLink := fun fs cwd old _ =>
    ∀ x, fs.resolve (fs.start cwd old) (elems old) = some x → fs.tree.nlink x < 32767
  mayUnlink := fun _ _ _ => True

theorem dirTrees_keeps : dirTrees.Keeps where
  basic h := DirTree.basic h
  reaps h hg hr := DirTree.reaped h hg hr
  created h _ _ hroom hx hg ht := DirTree.created h hg hx hroom ht
  target _ hok hx := hok _ hx
  linked h _ _ hroom hx hmax hg ht := DirTree.linked h hg hx hmax hroom ht
  unlinked h _ _ hk he _ _ hg hr := DirTree.unlinked h hg hk he hr

end DirTree

end Xv6Audit.FileSys
