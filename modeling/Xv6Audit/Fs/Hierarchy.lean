import Xv6Audit.Fs.Dangling

/-! What every run of the calls on path names keeps: the directories form a tree, no block or inode
is lost, and no reference outlives its inode. -/
namespace Xv6Audit.FileSys

open Prog Disk LinkTree
open Audit (ascii)

def Fits (y : Sys) : PathCall → Prop
  | .link p old _ => ∀ cwd ∈ y.cwd p, ∀ a ∈ old, y.fs.Countable cwd a.bytes
  | _ => True

theorem Fits.admits {y : Sys} {c : PathCall} (hc : Fits y c) : dirTrees.Admits y c := by
  cases c with
  | openFile p path omode => exact fun _ _ _ _ _ => trivial
  | mkdir p path | mknod p path major minor => exact fun _ _ _ _ => trivial
  | link p old new => exact fun cwd hcwd a ha _ _ => hc cwd hcwd a ha
  | unlink p path => exact fun _ _ _ _ => trivial
  | chdir p path | close p fd | exit p => trivial

theorem DirTree.path_of_resolve {fs : Fs} (h : DirTree fs) {names ns : List Name} {d x : Nat}
    (hd : fs.tree.Path ROOTINO ns d) (hres : fs.resolve d names = some x) :
    ∃ ms, fs.tree.Path ROOTINO ms x := by
  induction names generalizing d ns with
  | nil =>
    obtain rfl : d = x := by simpa [Fs.resolve] using hres
    exact ⟨ns, hd⟩
  | cons n names ih =>
    obtain ⟨y, hy, hres⟩ := Option.bind_eq_some_iff.mp hres
    obtain ⟨k, hk, -⟩ := child_spec hy
    obtain ⟨ms, hms⟩ := h.forest.path_step hd (show fs.tree.ent d k = _ from hk)
    exact ih hms hres

theorem Policy.Holds.live_iff {P : Policy} {y : Sys} (h : P.Holds y 0) {s : Fin NINODE} :
    y.fs.live s ↔ (∃ f, holds (y.files.file f) s) ∨ ∃ p, y.cwd p = some s := by
  have href : (y.fs.itable s).ref = held y.files s + y.cwds s + 0 := h.refs s
  constructor
  · intro hl
    by_contra hc
    simp only [not_or, not_exists] at hc
    have h1 : held y.files s = 0 := Finset.sum_eq_zero fun f _ => if_neg (hc.1 f)
    have h2 : y.cwds s = 0 := Finset.sum_eq_zero fun p _ => if_neg (hc.2 p)
    unfold Fs.live at hl
    omega
  · rintro (⟨f, hf⟩ | ⟨p, hp⟩)
    · have h1 : 0 < held y.files s := Finset.sum_pos' (fun i _ => weight_nonneg _ s)
        ⟨f, Finset.mem_univ f, by simp [weight, hf]⟩
      have h2 := cwds_nonneg y s
      unfold Fs.live
      omega
    · exact h.live_cwd hp le_rfl

section Runs
variable (y z : Sys) (calls : List PathCall) (h : dirTrees.Holds y 0)
  (hal : Run.Along Sys.step Fits y calls) (hrun : Run.exec Sys.step y calls = some z)
include h hal hrun

/-- From every system in order, after every run of calls in which no count was at its limit: the
entries other than `.` and `..` lead to directories of a higher rank, so there is no cycle; and a
directory found from the root has one such entry that names it, in the directory its `..` names,
and different names for its own. -/
theorem directories_form_tree :
    (∃ rank : Nat → Nat, ∀ d k x n, n ≠ dot → n ≠ dotdot → z.fs.entry d k = some (x, n) →
      (z.fs.dinode x).type = some .dir → rank d < rank x) ∧
    ∀ d names, z.fs.resolve ROOTINO names = some d → (z.fs.dinode d).type = some .dir →
      (d ≠ ROOTINO → ∃ e k n, n ≠ dot ∧ n ≠ dotdot ∧ z.fs.entry e k = some (d, n) ∧
        z.fs.entry d 1 = some (e, dotdot) ∧
        ∀ e' k' n', n' ≠ dot → n' ≠ dotdot → z.fs.entry e' k' = some (d, n') → e' = e ∧ k' = k) ∧
      (d = ROOTINO → z.fs.entry d 1 = some (d, dotdot)) ∧
      z.fs.entry d 0 = some (d, dot) ∧
      ∀ j k x w n, z.fs.entry d j = some (x, n) → z.fs.entry d k = some (w, n) → j = k := by
  have hz := (dirTrees_keeps.run (fun _ hc => Fits.admits hc) h hal hrun).inv
  have hf : Forest ROOTINO dot dotdot z.fs.tree := hz.forest
  have hlow : ∀ {d k x n}, n ≠ dot → n ≠ dotdot → z.fs.tree.ent d k = some (x, n) → 2 ≤ k :=
    fun h1 h2 he => (hf.two_le_iff dot_ne_dotdot he).mpr ⟨h1, h2⟩
  obtain ⟨rank, hrank⟩ := hf.ranked
  refine ⟨⟨rank, fun d k x n h1 h2 he hx => hrank d k x n (hlow h1 h2 he) he (kind_dir.mpr hx)⟩,
    fun d names hnames hdir => ?_⟩
  have hkind : z.fs.tree.kind d = some .dir := kind_dir.mpr hdir
  obtain ⟨ns, hns⟩ := DirTree.path_of_resolve hz .nil hnames
  refine ⟨fun hroot => ?_, ?_, hf.self d hkind, fun j k x w n => hf.names d j k x w n⟩
  · cases hns with
    | nil => exact absurd rfl hroot
    | @snoc ns e k _ n _ hk he =>
      obtain ⟨hdot, hdotdot⟩ := (hf.two_le_iff dot_ne_dotdot he).mp hk
      refine ⟨e, k, n, hdot, hdotdot, he, (hf.above e k d n hk he hkind).2, ?_⟩
      intro e' k' n' h1 h2 he'
      exact hf.single d hkind e' k' n' e k n (hlow h1 h2 he') hk he' he
  · rintro rfl
    exact hf.top

/-- After every such run the bitmap has exactly the blocks that inodes name, each named once, and
an inode that counts no link is still in use: nothing is lost while the system runs. -/
theorem nothing_lost_in_runs : WellFormed z.fs ∧
    ∀ i, (z.fs.dinode i).type ≠ none → (z.fs.dinode i).nlink = 0 → z.InUse i := by
  have hz := dirTrees_keeps.run (fun _ hc => Fits.admits hc) h hal hrun
  refine ⟨hz.inv.ready.wf, fun i hi h0 => ?_⟩
  obtain ⟨s, hl, hs⟩ := hz.inv.ready.orphan i (fun hk => hi (kind_none.mp hk))
    ((tree_nlink hi).trans h0)
  exact ⟨s, hs, hz.live_iff.mp hl⟩

/-- After every such run the inode table counts the open files and working directories, and none
of them is of a free inode. -/
theorem references_exact_in_runs :
    (∀ s, (z.fs.itable s).ref = held z.files s + z.cwds s) ∧
    ∀ i, z.InUse i → (z.fs.dinode i).type ≠ none := by
  have hz := dirTrees_keeps.run (fun _ hc => Fits.admits hc) h hal hrun
  refine ⟨fun s => (hz.refs s).trans (add_zero _), ?_⟩
  rintro i ⟨s, rfl, huse⟩ hnone
  exact hz.inv.ready.kind_ne_none (hz.live_iff.mpr huse) (kind_none.mpr hnone)

end Runs

section
attribute [local irreducible] Run.exec

theorem rootSys_dirTrees : dirTrees.Holds rootSys 0 :=
  ⟨rootFs_dirTree, rootSys_ok.cleared, rootSys_ok.refs⟩

theorem removedUpwards_fits (n : Nat) :
    Run.Along Sys.step Fits rootSys (removedUpwards.take n) := by
  refine Run.Along.of_forall fun y c hc => ?_
  have hmem := List.mem_of_mem_take hc
  simp only [removedUpwards, List.mem_cons, List.not_mem_nil, or_false] at hmem
  rcases hmem with rfl | rfl | rfl | rfl | rfl <;> trivial

/-- A directory in a directory of the root. -/
theorem directories_form_tree_nested :
    ∃ z, Run.exec Sys.step rootSys (removedUpwards.take 2) = some z ∧
      ∃ e k n, z.fs.entry e k = some (3, n) ∧ z.fs.entry 3 1 = some (e, dotdot) := by
  have hrun : (Run.exec Sys.step rootSys (removedUpwards.take 2)).map (fun z =>
      ((z.fs.dinode 3).type, z.fs.resolve ROOTINO [ascii "a", ascii "b"])) =
      some (some .dir, some 3) := by decide +kernel
  obtain ⟨z, hz, hzt⟩ := Option.map_eq_some_iff.mp hrun
  obtain ⟨htype, hres⟩ := Prod.mk.inj hzt
  obtain ⟨e, k, n, -, -, he, hup, -⟩ := ((directories_form_tree _ z _ rootSys_dirTrees
    (removedUpwards_fits 2) hz).2 3 _ hres htype).1 (by decide)
  exact ⟨z, hz, e, k, n, he, hup⟩

/-- The working directory has been removed. -/
theorem nothing_lost_in_runs_removed :
    ∃ z, Run.exec Sys.step rootSys (removedUpwards.take 4) = some z ∧
      (z.fs.dinode 3).nlink = 0 ∧ z.InUse 3 := by
  have hrun : (Run.exec Sys.step rootSys (removedUpwards.take 4)).map (fun z =>
      ((z.fs.dinode 3).type, (z.fs.dinode 3).nlink)) = some (some .dir, 0) := by decide +kernel
  obtain ⟨z, hz, hzt⟩ := Option.map_eq_some_iff.mp hrun
  obtain ⟨htype, h0⟩ := Prod.mk.inj hzt
  exact ⟨z, hz, h0, (nothing_lost_in_runs _ z _ rootSys_dirTrees (removedUpwards_fits 4) hz).2 3
    (by rw [htype]; simp) h0⟩

theorem references_exact_in_runs_removed :
    ∃ z, Run.exec Sys.step rootSys (removedUpwards.take 4) = some z ∧
      ∀ s, (z.fs.itable s).ref = held z.files s + z.cwds s := by
  have hsome : (Run.exec Sys.step rootSys (removedUpwards.take 4)).isSome = true := by
    decide +kernel
  obtain ⟨z, hz⟩ := Option.isSome_iff_exists.mp hsome
  exact ⟨z, hz,
    (references_exact_in_runs _ z _ rootSys_dirTrees (removedUpwards_fits 4) hz).1⟩

end

end Xv6Audit.FileSys
