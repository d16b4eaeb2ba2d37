import Xv6Audit.Fs.Sound

/-! Exact link counts over whole runs of the calls on path names. -/
namespace Xv6Audit.FileSys

open Prog Disk LinkTree
open Ftable (Files Released flag)
open Audit (ascii)

def Fs.parent (fs : Fs) (cwd : Fin NINODE) (path : List UInt8) : Option Nat :=
  if elems path = [] then none else fs.resolve (fs.start cwd path) (elems path).dropLast

def Fs.Attached (fs : Fs) (cwd : Fin NINODE) (path : List UInt8) : Prop :=
  ∀ d ∈ fs.parent cwd path, 0 < fs.tree.nlink d

def Fs.Unnamed (fs : Fs) : Prop :=
  ∀ x ∈ fs.freeInum, ∀ e, e < fs.sb.ninodes → (fs.entry e 1).map Prod.fst ≠ some x

/-- What a new link relies on, in the state in which the call is made: its directory is
linked, the count of an inode that gets another name is not at its limit, and a new file does not
take the place of a directory that is still named. -/
def Meets (y : Sys) : PathCall → Prop
  | .openFile p path omode => flag omode.toNat O_CREATE = true → ∀ cwd ∈ y.cwd p, ∀ a ∈ path,
      y.fs.Attached cwd a.bytes ∧ y.fs.Unnamed
  | .mkdir p path => ∀ cwd ∈ y.cwd p, ∀ a ∈ path, y.fs.Attached cwd a.bytes
  | .mknod p path _ _ => ∀ cwd ∈ y.cwd p, ∀ a ∈ path, y.fs.Attached cwd a.bytes ∧ y.fs.Unnamed
  | .link p old new => ∀ cwd ∈ y.cwd p, ∀ a ∈ old, ∀ b ∈ new, y.fs.Attached cwd b.bytes ∧
      ∀ x ∈ y.fs.resolve (y.fs.start cwd a.bytes) (elems a.bytes), y.fs.tree.nlink x < 32767
  | .unlink _ _ => True
  | .chdir _ _ => True
  | .close _ _ => True
  | .exit _ => True

instance (fs : Fs) (cwd : Fin NINODE) (path : List UInt8) : Decidable (fs.Attached cwd path) :=
  inferInstanceAs (Decidable (∀ d ∈ fs.parent cwd path, 0 < fs.tree.nlink d))

instance (fs : Fs) : Decidable fs.Unnamed :=
  inferInstanceAs (Decidable (∀ x ∈ fs.freeInum, ∀ e, e < fs.sb.ninodes →
    (fs.entry e 1).map Prod.fst ≠ some x))

instance (y : Sys) : (c : PathCall) → Decidable (Meets y c)
  | .openFile _ _ _ => inferInstanceAs (Decidable (_ → ∀ _ ∈ _, ∀ _ ∈ _, _ ∧ _))
  | .mkdir _ _ => inferInstanceAs (Decidable (∀ _ ∈ _, ∀ _ ∈ _, Fs.Attached _ _ _))
  | .mknod _ _ _ _ => inferInstanceAs (Decidable (∀ _ ∈ _, ∀ _ ∈ _, _ ∧ _))
  | .link _ _ _ => inferInstanceAs (Decidable (∀ _ ∈ _, ∀ _ ∈ _, ∀ _ ∈ _, _ ∧ ∀ _ ∈ _, _ < _))
  | .unlink _ _ => inferInstanceAs (Decidable True)
  | .chdir _ _ => inferInstanceAs (Decidable True)
  | .close _ _ => inferInstanceAs (Decidable True)
  | .exit _ => inferInstanceAs (Decidable True)

structure Carries (y : Sys) (R : Fin NINODE → Int) : Prop where
  sound : Sound y.fs
  cleared : Cleared y.files
  refs : ∀ s, (y.fs.itable s).ref = held y.files s + y.cwds s + R s

def Sys.Ok (y : Sys) : Prop := Carries y 0

section Calls
variable {fs : Fs} {y : Sys} {p : Fin NPROC} {cwd : Fin NINODE} {path : List UInt8}

theorem Fs.Parent.eq {d : Nat} {n : Name} (h : fs.Parent cwd path d n) :
    fs.parent cwd path = some d := by
  obtain ⟨init, hel, hres⟩ := h
  unfold Fs.parent
  rw [hel, List.dropLast_concat, if_neg (by simp)]
  exact hres

theorem Sound.mayCreate (h : Sound fs) {type : InodeType} (hatt : fs.Attached cwd path)
    (hun : type ≠ .dir → fs.Unnamed) : fs.MayCreate cwd path type := by
  refine ⟨fun d n hpar => hatt d hpar.eq, fun hty x hx e m he => ?_⟩
  have hdir := h.tidy.owner e 1 _ he
  have hlt := (h.numbered.alloc e (by rw [hdir]; simp)).2
  have he' : fs.entry e 1 = some (x, m) := he
  exact hun hty x hx e hlt (by rw [he']; rfl)

theorem Sys.Ok.admits (h : y.Ok) {c : PathCall} (hc : Meets y c) : exactCounts.Admits y c := by
  cases c with
  | openFile p path omode =>
    intro hcr cwd hcwd a ha
    obtain ⟨hatt, hun⟩ := hc hcr cwd hcwd a ha
    exact h.sound.mayCreate hatt fun _ => hun
  | mkdir p path =>
    intro cwd hcwd a ha
    exact h.sound.mayCreate (hc cwd hcwd a ha) fun hne => absurd rfl hne
  | mknod p path major minor =>
    intro cwd hcwd a ha
    obtain ⟨hatt, hun⟩ := hc cwd hcwd a ha
    exact h.sound.mayCreate hatt fun _ => hun
  | link p old new =>
    intro cwd hcwd a ha b hb
    obtain ⟨hatt, hmax⟩ := hc cwd hcwd a ha b hb
    exact ⟨hmax, fun d n hpar => hatt d hpar.eq⟩
  | unlink p path => exact fun _ _ _ _ => trivial
  | chdir p path | close p fd | exit p => trivial

theorem Sys.Ok.run {z : Sys} {calls : List PathCall} (h : y.Ok)
    (hal : Run.Along Sys.step Meets y calls) (hrun : Run.exec Sys.step y calls = some z) :
    z.Ok := by
  have hz := exactCounts_keeps.run (fun hy => Sys.Ok.admits ⟨hy.inv, hy.cleared, hy.refs⟩)
    ⟨h.sound, h.cleared, h.refs⟩ hal hrun
  exact ⟨hz.inv, hz.cleared, hz.refs⟩

end Calls

/-! What a system in order shows. -/

def Fs.namesOf (fs : Fs) (i : Nat) : Nat :=
  ∑ d ∈ Finset.range fs.sb.ninodes,
    ((Finset.range (fs.nents d)).filter fun k => (fs.entry d k).map Prod.fst = some i).card

def Sys.InUse (y : Sys) (i : Nat) : Prop :=
  ∃ s, (y.fs.itable s).inum = i ∧ ((∃ f, holds (y.files.file f) s) ∨ ∃ p, y.cwd p = some s)

theorem namesOf_eq {fs : Fs} (h : Sound fs) (i : Nat) :
    fs.namesOf i = {p : Nat × Nat | ∃ n, fs.tree.ent p.1 p.2 = some (i, n)}.ncard := by
  have hname : ∀ d k, (fs.entry d k).map Prod.fst = some i ↔
      ∃ n, fs.tree.ent d k = some (i, n) := by
    intro d k
    change _ ↔ ∃ n, fs.entry d k = some (i, n)
    cases fs.entry d k with
    | none => simp
    | some e =>
      obtain ⟨x, n⟩ := e
      simp
  let S := (Finset.range fs.sb.ninodes).sigma fun d =>
    (Finset.range (fs.nents d)).filter fun k => (fs.entry d k).map Prod.fst = some i
  have hcard : fs.namesOf i = S.card := (Finset.card_sigma _ _).symm
  rw [hcard, ← Set.ncard_coe_finset]
  refine Set.ncard_congr (fun p _ => (p.1, p.2)) ?_ ?_ ?_
  · rintro ⟨d, k⟩ hp
    simp only [S, Finset.coe_sigma, Set.mem_sigma_iff, Finset.mem_coe, Finset.mem_filter] at hp
    exact (hname d k).mp hp.2.2
  · rintro ⟨d, k⟩ ⟨d', k'⟩ _ _ he
    obtain ⟨rfl, rfl⟩ := Prod.mk.inj he
    rfl
  · rintro ⟨d, k⟩ ⟨n, he⟩
    have he' : fs.entry d k = some (i, n) := he
    have hdir := h.tidy.owner d k _ he'
    have hlt := (h.numbered.alloc d (by rw [hdir]; simp)).2
    refine ⟨⟨d, k⟩, ?_, rfl⟩
    simp only [S, Finset.coe_sigma, Set.mem_sigma_iff, Finset.mem_coe, Finset.mem_filter,
      Finset.mem_range]
    exact ⟨hlt, entry_lt_nents he', (hname d k).mpr ⟨n, he⟩⟩

theorem cname_length (n : Name) : (cname n).length ≤ DIRSIZ := by
  unfold cname
  exact ((List.takeWhile_prefix _).length_le).trans (List.length_take_le _ _)

theorem cname_cname (n : Name) : cname (cname n) = cname n := by
  have h := cname_length n
  unfold cname at h ⊢
  rw [List.take_of_length_le h, List.takeWhile_eq_self_iff]
  intro x hx
  have hx0 := List.mem_takeWhile_imp hx
  exact hx0

theorem Sound.resolve_path {fs : Fs} (h : Sound fs) {ns : List Name} {x : Nat}
    (hp : fs.tree.Path ROOTINO ns x) : fs.resolve ROOTINO ns = some x := by
  induction hp with
  | nil => rfl
  | @snoc ns y k x n _ _ he ih =>
    rw [resolve_append, ih]
    have he' : fs.entry y k = some (x, n) := he
    have hn : n = cname n := by
      unfold Fs.entry at he'
      split at he'
      · simp only [Option.some.injEq, Prod.mk.injEq] at he'
        rw [← he'.2, cname_cname]
      · cases he'
    refine child_eq_some (k := k) (by rw [← hn]; exact he') fun j hj z hz => ?_
    rw [← hn] at hz
    exact absurd (h.tidy.names y j k z x n hz he) (by omega)

theorem Sys.Ok.inUse {y : Sys} (h : y.Ok) {s : Fin NINODE} (hl : y.fs.live s) :
    y.InUse (y.fs.itable s).inum := by
  refine ⟨s, rfl, ?_⟩
  by_contra hc
  simp only [not_or, not_exists] at hc
  have h1 : held y.files s = 0 := Finset.sum_eq_zero fun f _ => if_neg (hc.1 f)
  have h2 : y.cwds s = 0 := Finset.sum_eq_zero fun p _ => if_neg (hc.2 p)
  have h3 : (y.fs.itable s).ref = held y.files s + y.cwds s + 0 := h.refs s
  unfold Fs.live at hl
  omega

/-- From every system in order, after every run of calls that each met its condition: a file
or device counts the entries that name it; it can be found by name if it counts any, and is
still in use if it counts none. -/
theorem link_counts_exact (y z : Sys) (calls : List PathCall) (h : y.Ok)
    (hal : Run.Along Sys.step Meets y calls) (hrun : Run.exec Sys.step y calls = some z) (i : Nat)
    (hi : (z.fs.dinode i).type = some .file ∨ (z.fs.dinode i).type = some .device) :
    (z.fs.dinode i).nlink = z.fs.namesOf i ∧
    (0 < (z.fs.dinode i).nlink → ∃ names, z.fs.resolve ROOTINO names = some i) ∧
    ((z.fs.dinode i).nlink = 0 → z.InUse i) := by
  have hz := h.run hal hrun
  have hleaf : z.fs.tree.kind i = some .leaf := by
    rw [kind_leaf]
    rcases hi with hi | hi <;> simp [hi]
  have hnl : z.fs.tree.nlink i = (z.fs.dinode i).nlink := tree_nlink (kind_leaf.mp hleaf).1
  rw [← hnl]
  refine ⟨?_, fun hpos => ?_, fun h0 => ?_⟩
  · rw [hz.sound.tidy.leaf_count hleaf, namesOf_eq hz.sound]
  · obtain ⟨ns, hns⟩ := hz.sound.tidy.leaf_named hleaf hpos
    exact ⟨ns, hz.sound.resolve_path hns⟩
  · obtain ⟨s, hs, hsi⟩ := hz.sound.ready.orphan i (by rw [hleaf]; simp) h0
    exact hsi ▸ hz.inUse hs

/-! The root directory alone, where processes 0 and 1 work. -/

def rootSys : Sys where
  fs := rootFs
  files := ⟨fun _ => ⟨.none, 0, false, false, 0, 0, 0, 0⟩, fun _ _ => none, fun _ => ⟨false, false⟩⟩
  cwd := fun p => if p.val < 2 then some 0 else none

theorem rootFs_kind (i : Nat) :
    rootFs.tree.kind i = if i = ROOTINO then some .dir else none := by
  by_cases hi : i = ROOTINO
  · subst i
    rfl
  · simp [Fs.tree, rootFs, hi]

theorem rootFs_entry (d k : Nat) : rootFs.tree.ent d k =
    if d = ROOTINO ∧ k = 0 then some (ROOTINO, dot)
    else if d = ROOTINO ∧ k = 1 then some (ROOTINO, dotdot) else none := by
  by_cases hd : d = ROOTINO
  · subst d
    by_cases h0 : k = 0
    · subst k
      decide +kernel
    · by_cases h1 : k = 1
      · subst k
        decide +kernel
      · rw [if_neg (by simp [h0]), if_neg (by simp [h1])]
        refine if_neg fun hc => ?_
        have h2 : rootFs.nents ROOTINO = 2 := rfl
        have := hc.2.1
        omega
  · rw [if_neg (by simp [hd]), if_neg (by simp [hd])]
    exact entry_not_dir (by simp [rootFs, hd])

theorem rootSys_ok : rootSys.Ok where
  sound := {
    ready := by
      refine ⟨rootFs_wellFormed, fun t ht => ?_, fun t => ?_, fun i hk hn => ?_⟩
      · rw [rootFs_live ht]
        rfl
      · by_cases ht : t = 0
        · subst t
          decide
        · simp [rootSys, rootFs, ht]
      · rw [show rootSys.fs = rootFs from rfl, rootFs_kind] at hk
        have hi : i = ROOTINO := by
          by_contra hne
          exact hk (if_neg hne)
        subst i
        exact absurd hn (by decide)
    tidy := Tidy.bare dot_ne_dotdot rootFs_kind rfl rootFs_entry
    numbered := by
      refine ⟨by decide, fun i hk => ?_⟩
      rw [show rootSys.fs = rootFs from rfl, rootFs_kind] at hk
      have hi : i = ROOTINO := by
        by_contra hne
        exact hk (if_neg hne)
      subst i
      decide
    range := by
      intro x
      by_cases hx : x = ROOTINO
      · subst x
        decide
      · have : (rootFs.dinode x).type = none := by simp [rootFs, hx]
        simp [Fs.tree, rootSys, this] }
  cleared := fun _ _ => rfl
  refs := by
    intro s
    have hheld : held rootSys.files s = 0 :=
      Finset.sum_eq_zero fun i _ => weight_idle rfl s
    rw [hheld]
    by_cases hs : s = 0
    · subst s
      decide +kernel
    · have hcwds : rootSys.cwds s = 0 := by
        refine Finset.sum_eq_zero fun p _ => if_neg fun hc => ?_
        simp only [rootSys] at hc
        split at hc
        · exact hs (Option.some.inj hc).symm
        · cases hc
      rw [hcwds]
      simp [rootSys, rootFs, hs]

def userPath (s : String) (h0 : 0 ∉ ascii s) (h1 : (ascii s).length < MAXPATH) :
    Option UserPath := some ⟨ascii s, h0, h1⟩

def twoNames : List PathCall :=
  [.mkdir 1 (userPath "d" (by decide) (by decide)),
   .openFile 1 (userPath "d/f" (by decide) (by decide)) 0x202,
   .link 1 (userPath "d/f" (by decide) (by decide)) (userPath "g" (by decide) (by decide)),
   .chdir 1 (userPath "d" (by decide) (by decide)),
   .unlink 1 (userPath "f" (by decide) (by decide)),
   .unlink 1 (userPath "../d" (by decide) (by decide)),
   .close 1 0,
   .exit 1]

def madeInRemoved : List PathCall :=
  [.mkdir 1 (userPath "d" (by decide) (by decide)),
   .chdir 1 (userPath "d" (by decide) (by decide)),
   .unlink 1 (userPath "../d" (by decide) (by decide)),
   .openFile 1 (userPath "f" (by decide) (by decide)) 0x202,
   .close 1 0,
   .chdir 1 (userPath "/" (by decide) (by decide))]

section
attribute [local irreducible] Run.exec Run.Along

theorem link_counts_exact_twoNames : ∃ z, Run.exec Sys.step rootSys twoNames = some z ∧
    Run.Along Sys.step Meets rootSys twoNames ∧ (z.fs.dinode 3).type = some .file ∧
    (z.fs.dinode 3).nlink = z.fs.namesOf 3 ∧
    (0 < (z.fs.dinode 3).nlink → ∃ names, z.fs.resolve ROOTINO names = some 3) ∧
    ((z.fs.dinode 3).nlink = 0 → z.InUse 3) := by
  have htype : (Run.exec Sys.step rootSys twoNames).map (fun z => (z.fs.dinode 3).type) =
      some (some .file) := by decide +kernel
  have hal : Run.Along Sys.step Meets rootSys twoNames := by decide +kernel
  obtain ⟨z, hz, hzt⟩ := Option.map_eq_some_iff.mp htype
  exact ⟨z, hz, hal, hzt, link_counts_exact _ z _ rootSys_ok hal hz 3 (.inl hzt)⟩

/-- The file keeps its one link when the directory that held its only name is freed. -/
theorem removed_directory_leaves_link : rootSys.Ok ∧
    ∃ z, Run.exec Sys.step rootSys madeInRemoved = some z ∧
      (z.fs.dinode 3).type = some .file ∧ (z.fs.dinode 3).nlink = 1 ∧ z.fs.namesOf 3 = 0 := by
  have hrun : (Run.exec Sys.step rootSys madeInRemoved).map (fun z =>
      ((z.fs.dinode 3).type, (z.fs.dinode 3).nlink, z.fs.namesOf 3)) =
      some (some .file, 1, 0) := by decide +kernel
  obtain ⟨z, hz, hzt⟩ := Option.map_eq_some_iff.mp hrun
  simp only [Prod.mk.injEq] at hzt
  exact ⟨rootSys_ok, z, hz, hzt⟩

end

end Xv6Audit.FileSys
