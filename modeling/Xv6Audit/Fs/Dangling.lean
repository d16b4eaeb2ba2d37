import Xv6Audit.Fs.DirTree
import Xv6Audit.Fs.LinkCount

/-! Entries that name no inode. The `..` of a directory that was removed and is still in use
is not counted by its parent, which can go before it. -/
namespace Xv6Audit.FileSys

open Prog Disk LinkTree
open Audit (ascii)

def Fs.Unparented (fs : Fs) (cwd : Fin NINODE) (path : List UInt8) : Prop :=
  ∀ x ∈ fs.resolve (fs.start cwd path) (elems path), ∀ e, e < fs.sb.ninodes →
    fs.tree.nlink e = 0 → (fs.entry e 1).map Prod.fst ≠ some x

def Fs.Countable (fs : Fs) (cwd : Fin NINODE) (path : List UInt8) : Prop :=
  ∀ x ∈ fs.resolve (fs.start cwd path) (elems path), fs.tree.nlink x < 32767

/-- No directory is made in a removed one, none is removed that a removed one in use has for its
parent, and no count is at its limit. -/
def Stays (y : Sys) : PathCall → Prop
  | .openFile _ _ _ => True
  | .mkdir p path => ∀ cwd ∈ y.cwd p, ∀ a ∈ path, y.fs.Attached cwd a.bytes
  | .mknod _ _ _ _ => True
  | .link p old _ => ∀ cwd ∈ y.cwd p, ∀ a ∈ old, y.fs.Countable cwd a.bytes
  | .unlink p path => ∀ cwd ∈ y.cwd p, ∀ a ∈ path, y.fs.Unparented cwd a.bytes
  | .chdir _ _ => True
  | .close _ _ => True
  | .exit _ => True

instance (fs : Fs) (cwd : Fin NINODE) (path : List UInt8) : Decidable (fs.Unparented cwd path) :=
  inferInstanceAs (Decidable (∀ x ∈ fs.resolve _ _, ∀ e, e < _ → _ = _ → _ ≠ some x))

instance (fs : Fs) (cwd : Fin NINODE) (path : List UInt8) : Decidable (fs.Countable cwd path) :=
  inferInstanceAs (Decidable (∀ x ∈ fs.resolve _ _, fs.tree.nlink x < 32767))

instance (y : Sys) : (c : PathCall) → Decidable (Stays y c)
  | .openFile _ _ _ => inferInstanceAs (Decidable True)
  | .mkdir _ _ => inferInstanceAs (Decidable (∀ _ ∈ _, ∀ _ ∈ _, _))
  | .mknod _ _ _ _ => inferInstanceAs (Decidable True)
  | .link _ _ _ => inferInstanceAs (Decidable (∀ _ ∈ _, ∀ _ ∈ _, _))
  | .unlink _ _ => inferInstanceAs (Decidable (∀ _ ∈ _, ∀ _ ∈ _, _))
  | .chdir _ _ => inferInstanceAs (Decidable True)
  | .close _ _ => inferInstanceAs (Decidable True)
  | .exit _ => inferInstanceAs (Decidable True)

structure Anchored (fs : Fs) : Prop where
  dirTree : DirTree fs
  upright : Upright ROOTINO dotdot fs.tree

def noDangling : Policy where
  inv := Anchored
  mayCreate := fun fs cwd path type =>
    type = .dir → ∀ d n, fs.Parent cwd path d n → 0 < fs.tree.nlink d
  mayLink := fun fs cwd old _ => fs.Countable cwd old
  mayUnlink := Fs.Unparented

section Anchored
variable {fs gs : Fs} {R : Fin NINODE → Int} {cwd : Fin NINODE} {path : List UInt8}

theorem Anchored.created (h : Anchored fs) (hg : Ends fs R gs) {type : InodeType} {x d k : Nat}
    {n : Name} (hpos : type = .dir → 0 < fs.tree.nlink d) (hx : fs.freeInum = some x)
    (hroom : fs.Room d k n) (ht : gs.tree = (born fs.tree type x d).link d k n x) :
    Anchored gs := by
  have hf := h.dirTree.forest
  have hxk : fs.tree.kind x = none := kind_none.mpr (freeInum_spec hx).2.2
  have hxd : d ≠ x := by
    rintro rfl
    rw [hroom.dir] at hxk
    cases hxk
  have hsame := born_sameBut fs.tree type x d
  obtain ⟨-, hbk⟩ := born_self fs.tree type x d
  have hup : type = .dir → d = ROOTINO ∨ fs.tree.Linked d := fun hty =>
    h.upright.linked_of_pos hf hroom.dir (hpos hty)
  have hborn : Upright ROOTINO dotdot (born fs.tree type x d) := by
    unfold born
    split
    · rename_i hty
      exact h.upright.newDir hf hxk hroom.dir (hup hty)
    · exact h.upright.newLeaf hf hxk
  refine ⟨h.dirTree.created hg hx hroom ht, ?_⟩
  rw [ht]
  refine hborn.link (hf.dotted.two_le hroom.dir hroom.free) ?_ fun hdir => ?_
  · rw [hsame.ent d hxd]
    exact hroom.free
  · have hty : type = .dir := by
      rw [hbk] at hdir
      cases type <;> simp_all [kindOf]
    refine (hup hty).imp id ?_
    rintro ⟨e, j, m, hj, he⟩
    have hex : e ≠ x := by
      rintro rfl
      rw [hf.owner _ j _ he] at hxk
      cases hxk
    exact ⟨e, j, m, hj, by rw [hsame.ent e hex]; exact he⟩

theorem Anchored.unlinked (h : Anchored fs) (hg : Ends fs R gs) {d k x : Nat} {n : Name}
    (hok : fs.Unparented cwd path) (hpar : fs.Parent cwd path d n) (hk : 2 ≤ k)
    (he : fs.tree.ent d k = some (x, cname n))
    (hfirst : ∀ j, j < k → ∀ y, fs.tree.ent d j ≠ some (y, cname n))
    (hempty : fs.tree.kind x = some .dir → ∀ j, 2 ≤ j → fs.tree.ent x j = none)
    (hr : (fs.tree.unlink d k x).Reaps gs.tree) : Anchored gs := by
  have hf := h.dirTree.forest
  obtain ⟨init, hel, hres⟩ := hpar
  have hx : fs.resolve (fs.start cwd path) (elems path) = some x := by
    rw [hel, resolve_append, hres]
    exact child_eq_some he hfirst
  have hstay : fs.tree.kind x = some .dir → ∀ e, fs.tree.kind e = some .dir →
      fs.tree.ent e 1 ≠ some (x, dotdot) := by
    intro hxk e hek hdd
    by_cases h0 : fs.tree.nlink e = 0
    · have hlt := (h.dirTree.numbered.alloc e (by rw [hek]; simp)).2
      have hdd' : fs.entry e 1 = some (x, dotdot) := hdd
      exact hok x hx e hlt h0 (by rw [hdd']; rfl)
    · -- a directory that is still linked is an entry of its parent, and `x` is empty
      have hnn := hf.nonneg (x := e) (by rw [hek]; simp)
      rcases h.upright.linked_of_pos hf hek (by omega) with rfl | ⟨u, j, m, hj, hu⟩
      · rw [hf.top] at hdd
        cases hdd
        exact (hf.above d k _ _ hk he hxk).1 rfl
      · rw [(hf.above u j e m hj hu hek).2] at hdd
        cases hdd
        rw [hempty hxk j hj] at hu
        cases hu
  exact ⟨h.dirTree.unlinked hg hk he hr,
    (h.upright.unlink hf hk he hempty hstay).reaps (hf.unlink hk he) hr⟩

theorem noDangling_keeps : noDangling.Keeps where
  basic h := DirTree.basic h.dirTree
  reaps h hg hr := ⟨h.dirTree.reaped hg hr, h.upright.reaps h.dirTree.forest hr⟩
  created h hok hpar hroom hx hg ht :=
    Anchored.created h hg (fun hty => hok hty _ _ hpar) hx hroom ht
  target _ hok hx := hok _ hx
  linked h _ _ hroom hx hmax hg ht := by
    refine ⟨h.dirTree.linked hg hx hmax hroom ht, ?_⟩
    rw [ht]
    refine h.upright.link (h.dirTree.forest.dotted.two_le hroom.dir hroom.free) hroom.free ?_
    intro hdir
    rw [hx] at hdir
    cases hdir
  unlinked h hok hpar hk he hfirst hempty hg hr :=
    Anchored.unlinked h hg hok hpar hk he hfirst hempty hr

theorem Stays.admits {y : Sys} {c : PathCall} (hc : Stays y c) : noDangling.Admits y c := by
  cases c with
  | openFile p path omode => exact fun _ _ _ _ _ hty => absurd hty (by decide)
  | mkdir p path => exact fun cwd hcwd a ha _ d n hpar => hc cwd hcwd a ha d hpar.eq
  | mknod p path major minor => exact fun _ _ _ _ hty => absurd hty (by decide)
  | link p old new => exact fun cwd hcwd a ha _ _ => hc cwd hcwd a ha
  | unlink p path => exact hc
  | chdir p path | close p fd | exit p => trivial

theorem Anchored.no_dangling (h : Anchored fs) {d : Nat} (hd : fs.tree.kind d ≠ none) :
    ¬ fs.Dangling d := by
  rintro (hk | ⟨e, k, x, n, he, hx⟩)
  · exact hd hk
  · exact h.upright.target h.dirTree.forest he hx

end Anchored

/-- From every system in order, after every run of calls that each met its condition: every
entry in use of a directory names an allocated inode, and no lookup comes to one that is not
there. -/
theorem entries_name_inodes (y z : Sys) (calls : List PathCall) (h : noDangling.Holds y 0)
    (hal : Run.Along Sys.step Stays y calls) (hrun : Run.exec Sys.step y calls = some z) :
    (∀ d k x n, z.fs.entry d k = some (x, n) → (z.fs.dinode x).type ≠ none) ∧
    ∀ p cwd, z.cwd p = some cwd → ∀ path parent,
      (namex cwd path parent z.fs).1 ≠ .error "ilock: no type" := by
  have hz := noDangling_keeps.run (fun _ hc => Stays.admits hc) h hal hrun
  have hready := hz.inv.dirTree.ready
  refine ⟨fun d k x n he hx => ?_, fun p cwd hcwd path parent herr => ?_⟩
  · exact hz.inv.upright.target hz.inv.dirTree.forest (show z.fs.tree.ent d k = _ from he)
      (kind_none.mpr hx)
  · have hlive := hz.live_cwd hcwd (Int.le_refl 0)
    have hstart : z.fs.tree.kind (z.fs.start cwd path) ≠ none := by
      unfold Fs.start
      split
      · rw [hz.inv.dirTree.forest.rootDir]
        simp
      · exact hready.kind_ne_none hlive
    have hw : wp (namex cwd path parent) (fun _ _ => True) (fun e _ => e ≠ noType) z.fs := by
      refine wp_namex hready hlive path parent (fun e gs he hno => ?_) (fun _ _ => trivial) ?_
      · exact hz.inv.no_dangling hstart (he hno)
      · exact fun _ _ _ _ _ _ => trivial
    exact wp_of_stop hw (Prod.ext herr rfl) rfl

/-! The system with a new image. -/

theorem rootFs_low (d k : Nat) (hk : 2 ≤ k) : rootFs.tree.ent d k = none := by
  rw [rootFs_entry, if_neg (by omega), if_neg (by omega)]

theorem rootFs_dirTree : DirTree rootFs := by
  have h := rootSys_ok.sound
  refine ⟨h.ready, Forest.of_tidy h.tidy ?_ rootFs_low, h.numbered, h.range⟩
  rw [rootFs_entry, if_neg (by omega), if_pos ⟨rfl, rfl⟩]

theorem rootSys_holds : noDangling.Holds rootSys 0 where
  inv := {
    dirTree := rootFs_dirTree
    upright := by
      refine ⟨fun d k x n hk he => ?_, fun e u hek he => ?_⟩
      · rw [show rootSys.fs = rootFs from rfl, rootFs_low d k hk] at he
        cases he
      · rw [show rootSys.fs = rootFs from rfl, rootFs_entry, if_neg (by omega)] at he
        split at he
        · cases he
          exact ⟨rootFs_kind ROOTINO, .inl rfl⟩
        · cases he }
  cleared := rootSys_ok.cleared
  refs := rootSys_ok.refs

def removedUpwards : List PathCall :=
  [.mkdir 1 (userPath "a" (by decide) (by decide)),
   .mkdir 1 (userPath "a/b" (by decide) (by decide)),
   .chdir 1 (userPath "a/b" (by decide) (by decide)),
   .unlink 1 (userPath "../b" (by decide) (by decide)),
   .unlink 1 (userPath "/a" (by decide) (by decide))]

section
attribute [local irreducible] Run.exec Run.Along

theorem entries_name_inodes_twoNames : ∃ z, Run.exec Sys.step rootSys twoNames = some z ∧
    Run.Along Sys.step Stays rootSys twoNames ∧
    (∀ d k x n, z.fs.entry d k = some (x, n) → (z.fs.dinode x).type ≠ none) ∧
    ∀ p cwd, z.cwd p = some cwd → ∀ path parent,
      (namex cwd path parent z.fs).1 ≠ .error "ilock: no type" := by
  have hsome : (Run.exec Sys.step rootSys twoNames).isSome = true := by decide +kernel
  have hal : Run.Along Sys.step Stays rootSys twoNames := by decide +kernel
  obtain ⟨z, hz⟩ := Option.isSome_iff_exists.mp hsome
  exact ⟨z, hz, hal, entries_name_inodes _ z _ rootSys_holds hal hz⟩

/-- The working directory, inode 3, has inode 2 for its parent, which is free. -/
theorem parent_of_removed_dangles : noDangling.Holds rootSys 0 ∧
    ∃ z, Run.exec Sys.step rootSys removedUpwards = some z ∧ z.fs.entry 3 1 = some (2, dotdot) ∧
      (z.fs.dinode 2).type = none ∧ ∃ cwd, z.cwd 1 = some cwd ∧
      (namex cwd (ascii "../a") false z.fs).1 = .error "ilock: no type" := by
  have hrun : (Run.exec Sys.step rootSys removedUpwards).map (fun z =>
      (z.fs.entry 3 1, (z.fs.dinode 2).type, (z.cwd 1).map fun cwd =>
        stopped (namex cwd (ascii "../a") false z.fs).1)) =
      some (some (2, dotdot), none, some (some "ilock: no type")) := by decide +kernel
  obtain ⟨z, hz, hzt⟩ := Option.map_eq_some_iff.mp hrun
  simp only [Prod.mk.injEq, Option.map_eq_some_iff, stopped_eq_some] at hzt
  exact ⟨rootSys_holds, z, hz, hzt⟩

end

end Xv6Audit.FileSys
