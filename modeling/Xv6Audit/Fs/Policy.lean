import Xv6Audit.Fs.Holders

/-! Invariants of the file system over whole runs of the calls on path names. An invariant
comes with conditions on the calls that make and remove links; all that has to be shown of
it is that the changes of the tree keep it. -/
namespace Xv6Audit.FileSys

open Prog Disk LinkTree
open Shared (sum_update)
open Ftable (Files Released flag)

structure Basic (fs : Fs) : Prop where
  ready : Ready fs
  numbered : Numbered fs
  dotted : Dotted dot dotdot fs.tree
  nonneg : ∀ x, 0 ≤ fs.tree.nlink x
  range : ∀ x, fs.tree.nlink x ≤ 32767
  small : ∀ d, fs.tree.kind d = some .dir → fs.tree.nlink d < 32767

structure Policy where
  inv : Fs → Prop
  mayCreate : Fs → Fin NINODE → List UInt8 → InodeType → Prop
  mayLink : Fs → Fin NINODE → List UInt8 → List UInt8 → Prop
  mayUnlink : Fs → Fin NINODE → List UInt8 → Prop

def Fs.Parent (fs : Fs) (cwd : Fin NINODE) (path : List UInt8) (d : Nat) (n : Name) : Prop :=
  ∃ init, elems path = init ++ [n] ∧ fs.resolve (fs.start cwd path) init = some d

structure Fs.Room (fs : Fs) (d k : Nat) (n : Name) : Prop where
  dir : fs.tree.kind d = some .dir
  free : fs.tree.ent d k = none
  fresh : ∀ j y, fs.tree.ent d j ≠ some (y, n)

structure Policy.Keeps (P : Policy) : Prop where
  basic : ∀ {fs}, P.inv fs → Basic fs
  reaps : ∀ {fs gs R}, P.inv fs → Ends fs R gs → fs.tree.Reaps gs.tree → P.inv gs
  created : ∀ {fs gs R cwd path type x d k n}, P.inv fs → P.mayCreate fs cwd path type →
    fs.Parent cwd path d n → fs.Room d k (cname n) → fs.freeInum = some x → Ends fs R gs →
    gs.tree = (born fs.tree type x d).link d k (cname n) x → P.inv gs
  target : ∀ {fs cwd old new x}, P.inv fs → P.mayLink fs cwd old new →
    fs.resolve (fs.start cwd old) (elems old) = some x → fs.tree.nlink x < 32767
  linked : ∀ {fs gs R cwd old new x d k n}, P.inv fs → P.mayLink fs cwd old new →
    fs.Parent cwd new d n → fs.Room d k (cname n) → fs.tree.kind x = some .leaf →
    fs.tree.nlink x < 32767 → Ends fs R gs → gs.tree = fs.tree.link d k (cname n) x → P.inv gs
  unlinked : ∀ {fs gs R cwd path d k x n}, P.inv fs → P.mayUnlink fs cwd path →
    fs.Parent cwd path d n → 2 ≤ k → fs.tree.ent d k = some (x, cname n) →
    (∀ j, j < k → ∀ y, fs.tree.ent d j ≠ some (y, cname n)) →
    (fs.tree.kind x = some .dir → ∀ j, 2 ≤ j → fs.tree.ent x j = none) → Ends fs R gs →
    (fs.tree.unlink d k x).Reaps gs.tree → P.inv gs

abbrev anyStop {σ : Type} : String → σ → Prop := fun _ _ => True

namespace Policy

structure Leads (P : Policy) (fs : Fs) (R : Fin NINODE → Int) (gs : Fs) : Prop where
  inv : P.inv gs
  refs : ∀ t, (gs.itable t).ref = (fs.itable t).ref + R t

variable {Q : Unit → Fs → Prop}

section Fs
variable {P : Policy} {fs gs ks : Fs} {R R' : Fin NINODE → Int} {cwd s ip : Fin NINODE}
  {path : List UInt8}

theorem Leads.refl (h : P.inv fs) : P.Leads fs 0 fs := ⟨h, fun _ => (Int.add_zero _).symm⟩

theorem Leads.trans (h : P.Leads fs R gs) (h' : P.Leads gs R' ks) : P.Leads fs (R + R') ks :=
  ⟨h'.inv, fun t => by rw [h'.refs t, h.refs t, Pi.add_apply, Int.add_assoc]⟩

section
variable (hP : P.Keeps)
include hP

section
variable (h : P.inv fs)
include h

theorem Keeps.same (hg : Ends fs R gs) (ht : gs.tree = fs.tree) : P.Leads fs R gs :=
  ⟨hP.reaps h hg (ht ▸ .none), hg.refs⟩

theorem Keeps.wp_create (hcwd : fs.live cwd) (type : InodeType) (major minor : Int)
    (hok : P.mayCreate fs cwd path type) {Q : Option (Fin NINODE) → Fs → Prop}
    (hnone : ∀ gs, P.Leads fs 0 gs → Q none gs)
    (hsome : ∀ ip gs, P.Leads fs (one ip) gs → gs.live ip → Q (some ip) gs) :
    wp (create cwd path type major minor) Q anyStop fs := by
  have hb := hP.basic h
  refine hb.ready.wp_create hcwd hb.numbered path type major minor hb.nonneg (fun _ => hb.small)
    (fun _ _ => trivial) ?_ ?_ ?_
  · exact fun gs hg ht => hnone gs (hP.same h hg ht)
  · exact fun ip gs hg hl _ ht => hsome ip gs (hP.same h hg ht) hl
  · intro x init n d k ip gs hg hl _ hx hinit hres hd _ hfree hname ht
    exact hsome ip gs ⟨hP.created h hok ⟨init, hinit, hres⟩ ⟨hd, hfree, hname⟩ hx hg ht, hg.refs⟩ hl

theorem Keeps.wp_link (hcwd : fs.live cwd) {old new : List UInt8} (hok : P.mayLink fs cwd old new)
    {Q : Int → Fs → Prop} (hQ : ∀ r gs, P.Leads fs 0 gs → Q r gs) :
    wp (link cwd old new) Q anyStop fs := by
  have hb := hP.basic h
  refine hb.ready.wp_link hcwd hb.numbered old new hb.nonneg (fun x => hP.target h hok)
    (fun _ _ => trivial) ?_ ?_
  · exact fun gs hg ht => hQ _ gs (hP.same h hg ht)
  · intro x init n d k gs hg hx hmax hinit hres hd _ hfree hname ht
    exact hQ _ gs ⟨hP.linked h hok ⟨init, hinit, hres⟩ ⟨hd, hfree, hname⟩ hx hmax hg ht, hg.refs⟩

theorem Keeps.wp_unlink (hcwd : fs.live cwd) (hok : P.mayUnlink fs cwd path) {Q : Int → Fs → Prop}
    (hQ : ∀ r gs, P.Leads fs 0 gs → Q r gs) :
    wp (unlink cwd path) Q anyStop fs := by
  have hb := hP.basic h
  refine hb.ready.wp_unlink hcwd hb.dotted hb.nonneg hb.range path (fun _ _ => trivial) ?_ ?_
  · exact fun gs hg ht => hQ _ gs (hP.same h hg ht)
  · intro init n d k x gs hg hinit hres hk he hfirst hempty hr
    exact hQ _ gs ⟨hP.unlinked h hok ⟨init, hinit, hres⟩ hk he hfirst hempty hg hr, hg.refs⟩

theorem Keeps.wp_iput (hl : fs.live s) (hQ : ∀ gs, P.Leads fs (-one s) gs → Q () gs) :
    wp (iput s) Q anyStop fs := by
  have hb := hP.basic h
  refine hb.ready.wp_iput hl (fun _ _ => trivial) (fun _ gs hg ht => hQ gs (hP.same h hg.ends ht)) ?_
  intro _ h0 gs hg ht
  refine hQ gs ⟨hP.reaps h hg.ends ?_, hg.refs⟩
  rw [ht]
  exact .free .none (hb.ready.kind_ne_none hl) h0

theorem Keeps.wp_iunlock (hQ : ∀ gs, P.Leads fs 0 gs → gs.live s → Q () gs) :
    wp (iunlock s) Q anyStop fs :=
  (hP.basic h).ready.wp_iunlock (fun _ _ => trivial) fun gs hg hl ht =>
    hQ gs (hP.same h hg.ends ht) hl

theorem Keeps.wp_iunlockput (hQ : ∀ gs, P.Leads fs (-one s) gs → Q () gs) :
    wp (iunlockput s) Q anyStop fs := by
  simp only [iunlockput, wp_bind]
  refine hP.wp_iunlock h fun gs hg hl => hP.wp_iput hg.inv hl fun ks hk => hQ ks ?_
  have hend := hg.trans hk
  rwa [zero_add] at hend

theorem Keeps.wp_namei (hcwd : fs.live cwd) {Q : Option (Fin NINODE) → Fs → Prop}
    (hnone : ∀ gs, P.Leads fs 0 gs → Q none gs)
    (hsome : ∀ ip gs, wp (ilock ip) (fun _ ks => P.Leads fs (one ip) ks ∧ ks.live ip) anyStop gs →
      Q (some ip) gs) : wp (namei cwd path) Q anyStop fs := by
  have hr := (hP.basic h).ready
  simp only [namei, wp_bind, wp_pure]
  refine wp_namex hr hcwd path false (fun _ _ _ => trivial) (fun gs hg => ?_) fun ip n gs hg _ _ => ?_
  · exact hnone gs (hP.same h (hg.moves_zero hr).ends hg.tree)
  · refine hsome ip gs (hg.ilock (fun _ _ _ => trivial) fun ks hk hv hl _ _ => ?_)
    exact ⟨hP.same h (hk.moves_one hr hv).ends hk.tree, hl⟩

end

end

section Trunc
attribute [local irreducible] FileSys.itrunc

theorem Keeps.wp_itrunc (hP : P.Keeps) (h : P.inv fs) (hl : fs.live s)
    (hfile : (fs.itable s).d.type = some .file) (hQ : ∀ gs, P.Leads fs 0 gs → Q () gs) :
    wp (itrunc s) Q anyStop fs := by
  have hr := (hP.basic h).ready
  obtain ⟨hd, -⟩ := hr.cached hl
  refine FileSys.wp_itrunc hr.wf hl (hr.valid s hl) fun gs hg hs hgd hdata hdin => ?_
  have hgl : gs.live s := (hs.live s).mpr hl
  have hself : gs.dinode (fs.itable s).inum = (gs.itable s).d := by
    rw [← hs.inum s]
    refine ((hg.table.cached s hgl ?_).1).symm
    rw [hs.valid]
    exact hr.valid s hl
  have ht : gs.tree = fs.tree := by
    refine tree_leaf hdata hdin ?_ ?_ ?_
    · rw [hself, hgd, ← hd]
    · rw [hself, hgd, ← hd]
    · rw [← hd, hfile]
      simp
  exact hQ gs (hP.same h (hr.same hg hs (by rw [ht]) (by rw [ht])).ends ht)

end Trunc

end Fs

/-! The whole system. -/

structure Holds (P : Policy) (y : Sys) (R : Fin NINODE → Int) : Prop where
  inv : P.inv y.fs
  cleared : Cleared y.files
  refs : ∀ s, (y.fs.itable s).ref = held y.files s + y.cwds s + R s

def Admits (P : Policy) (y : Sys) : PathCall → Prop
  | .openFile p path omode => flag omode.toNat O_CREATE = true → ∀ cwd ∈ y.cwd p, ∀ a ∈ path,
      P.mayCreate y.fs cwd a.bytes .file
  | .mkdir p path => ∀ cwd ∈ y.cwd p, ∀ a ∈ path, P.mayCreate y.fs cwd a.bytes .dir
  | .mknod p path _ _ => ∀ cwd ∈ y.cwd p, ∀ a ∈ path, P.mayCreate y.fs cwd a.bytes .device
  | .link p old new => ∀ cwd ∈ y.cwd p, ∀ a ∈ old, ∀ b ∈ new, P.mayLink y.fs cwd a.bytes b.bytes
  | .unlink p path => ∀ cwd ∈ y.cwd p, ∀ a ∈ path, P.mayUnlink y.fs cwd a.bytes
  | .chdir _ _ => True
  | .close _ _ => True
  | .exit _ => True

section Sys
attribute [local irreducible] Prog.forUpto

variable {P : Policy} {y : Sys} {R R' : Fin NINODE → Int} {s cwd : Fin NINODE} {p : Fin NPROC}
  {E : String → Sys → Prop} {fs : Fs}

theorem wp_onFs {α : Type} (c : FsProg α) (Q : α → Sys → Prop) : wp (onFs c) Q E y ↔
    wp c (fun a gs => Q a { y with fs := gs }) (fun e gs => E e { y with fs := gs }) y.fs :=
  wp_zoom _ _ c y Q E

theorem wp_onFiles {α : Type} (c : Ftable.FileProg α) (Q : α → Sys → Prop) :
    wp (onFiles c) Q E y ↔
    wp c (fun a G => Q a { y with files := G }) (fun e G => E e { y with files := G }) y.files :=
  wp_zoom _ _ c y Q E

section
variable (h : P.Holds y R)
include h

theorem Holds.leads {gs : Fs} (hl : P.Leads y.fs R' gs) :
    P.Holds { y with fs := gs } (R + R') :=
  ⟨hl.inv, h.cleared, fun s => by
    have h1 := hl.refs s
    have h2 := h.refs s
    have h3 : Sys.cwds { y with fs := gs } s = y.cwds s := rfl
    simp only [Pi.add_apply, h3]
    omega⟩

theorem Holds.leads_zero {gs : Fs} (hl : P.Leads y.fs 0 gs) :
    P.Holds { y with fs := gs } R := by
  have := h.leads hl
  rwa [add_zero] at this

theorem Holds.live_cwd (hc : y.cwd p = some s) (hR : 0 ≤ R s) :
    y.fs.live s := by
  have h1 := h.refs s
  have h2 := held_nonneg y.files s
  have h3 := cwds_pos hc
  unfold Fs.live
  omega

theorem Holds.live_own (hR : 0 < R s) : y.fs.live s := by
  have h1 := h.refs s
  have h2 := held_nonneg y.files s
  have h3 := cwds_nonneg y s
  unfold Fs.live
  omega

theorem Holds.wp_iput (hP : P.Keeps) (hl : y.fs.live s) {Q : Unit → Sys → Prop}
    (hQ : ∀ gs, P.Holds { y with fs := gs } (R - one s) → Q () { y with fs := gs }) :
    wp (onFs (iput s)) Q anyStop y := by
  rw [wp_onFs]
  refine hP.wp_iput h.inv hl fun gs hg => hQ gs ?_
  rw [sub_eq_add_neg]
  exact h.leads hg

end

theorem Holds.wp_release {r : Released} (h : P.Holds y (R + handed r)) (hP : P.Keeps)
    (hR : ∀ s, 0 ≤ R s) {Q : Unit → Sys → Prop}
    (hQ : ∀ gs, P.Holds { y with fs := gs } R → Q () { y with fs := gs }) :
    wp (release r) Q anyStop y := by
  cases r with
  | inode ip =>
    have hpos : 0 < (R + handed (.inode ip)) (Fin.ofNat NINODE ip) := by
      have := hR (Fin.ofNat NINODE ip)
      simp only [handed, Pi.add_apply, one_self]
      omega
    refine h.wp_iput hP (h.live_own hpos) fun gs hg => hQ gs ?_
    rwa [handed, add_sub_cancel_right] at hg
  | page pi | nothing => exact hQ y.fs (by rwa [handed, add_zero] at h)

theorem Holds.wp_releaseAll {rs : List Released} (h : P.Holds y (handedAll rs)) (hP : P.Keeps)
    {Q : Unit → Sys → Prop}
    (hQ : ∀ gs, P.Holds { y with fs := gs } 0 → Q () { y with fs := gs }) :
    wp (releaseAll rs) Q anyStop y := by
  induction rs generalizing y with
  | nil => exact hQ y.fs h
  | cons r rs ih =>
    rw [handedAll, add_comm] at h
    rw [releaseAll, wp_bind]
    exact h.wp_release hP (handedAll_nonneg rs) fun gs hg => ih hg hQ

theorem wp_mycwd {Q : Fin NINODE → Sys → Prop} (hQ : ∀ cwd, y.cwd p = some cwd → Q cwd y) :
    wp (mycwd p) Q anyStop y := by
  simp only [mycwd, wp_bind, wp_get]
  cases h : y.cwd p with
  | none => trivial
  | some cwd => exact hQ cwd h

section
variable (hP : P.Keeps)
include hP

theorem Keeps.wp_openInode (h : P.inv fs) (hcwd : fs.live cwd) {omode : Nat} {path : List UInt8}
    (hok : flag omode O_CREATE = true → P.mayCreate fs cwd path .file)
    {Q : Option (Fin NINODE) → Fs → Prop} (hnone : ∀ gs, P.Leads fs 0 gs → Q none gs)
    (hsome : ∀ ip gs, P.Leads fs (one ip) gs → gs.live ip → Q (some ip) gs) :
    wp (openInode cwd path omode) Q anyStop fs := by
  rw [openInode, wp_ite]
  refine ⟨fun hc => ?_, fun _ => ?_⟩
  · exact hP.wp_create h hcwd .file 0 0 (hok hc) hnone hsome
  · rw [wp_bind]
    refine hP.wp_namei h hcwd hnone fun ip gs hg => ?_
    rw [wp_bind]
    exact wp_post hg fun _ ks hk => hsome ip ks hk.1 hk.2

theorem Keeps.wp_openEnd (h : P.inv fs) {ip : Fin NINODE} (hl : fs.live ip) (omode : Nat) (fd : Int)
    (hQ : ∀ gs, P.Leads fs 0 gs → Q () gs) : wp (openEnd ip omode fd) Q anyStop fs := by
  have hunlock : ∀ gs, P.Leads fs 0 gs → wp (iunlock ip) Q anyStop gs := by
    intro gs hg
    refine hP.wp_iunlock hg.inv fun ks hk _ => hQ ks ?_
    have hend := hg.trans hk
    rwa [zero_add] at hend
  simp only [openEnd, wp_bind, wp_get, wp_ite]
  refine ⟨fun hc => ?_, fun _ => hunlock fs (Leads.refl h)⟩
  exact hP.wp_itrunc h hl hc.2.2 fun gs hg => hunlock gs hg

theorem Keeps.sysOpen (h : P.Holds y 0) (path : Option UserPath) (omode : UInt32)
    (hc : P.Admits y (.openFile p path omode)) :
    wp (sysOpen p path omode) (fun _ z => P.Holds z 0) anyStop y := by
  rw [FileSys.sysOpen, wp_bind]
  refine wp_mycwd fun cwd hcwd => ?_
  cases path with
  | none => exact h
  | some a =>
    have hlive := h.live_cwd hcwd (Int.le_refl 0)
    rw [wp_bind, wp_onFs]
    refine hP.wp_openInode h.inv hlive (fun hcr => hc hcr cwd hcwd a rfl)
      (fun gs hg => h.leads_zero hg) ?_
    intro ip gs hg hl
    have hcarry := h.leads hg
    rw [zero_add] at hcarry
    rw [wp_bind, wp_get, wp_bind, wp_onFiles]
    refine wp_sysOpen hcarry.cleared _ _ (fun _ => trivial) fun r G hG hheld => ?_
    have hz : P.Holds { y with fs := gs, files := G } (handedAll r.2) := by
      refine ⟨hcarry.inv, hG, fun s => ?_⟩
      have h1 : (gs.itable s).ref = held y.files s + y.cwds s + one ip s := hcarry.refs s
      have h2 : held G s + handedAll r.2 s = held y.files s +
        one (Fin.ofNat NINODE ip.val) s := hheld s
      have h3 : Fin.ofNat NINODE ip.val = ip := Fin.ext (Nat.mod_eq_of_lt ip.isLt)
      rw [h3] at h2
      change (gs.itable s).ref = held G s + y.cwds s + handedAll r.2 s
      omega
    obtain ⟨fd, rs⟩ := r
    rw [wp_bind, wp_onFs]
    refine hP.wp_openEnd hz.inv hl _ _ fun ks hk => ?_
    rw [wp_bind]
    exact (hz.leads_zero hk).wp_releaseAll hP fun ls hls => hls

theorem Keeps.sysMake (h : P.Holds y 0) (path : Option UserPath) (type : InodeType)
    (major minor : Int) (hc : ∀ cwd ∈ y.cwd p, ∀ a ∈ path, P.mayCreate y.fs cwd a.bytes type) :
    wp (sysMake p path type major minor) (fun _ z => P.Holds z 0) anyStop y := by
  rw [FileSys.sysMake, wp_bind]
  refine wp_mycwd fun cwd hcwd => ?_
  cases path with
  | none => exact h
  | some a =>
    rw [wp_bind, wp_onFs]
    refine hP.wp_create h.inv (h.live_cwd hcwd (Int.le_refl 0)) type major minor (hc cwd hcwd a rfl)
      (fun gs hg => h.leads_zero hg) fun ip gs hg _ => ?_
    have hcarry := h.leads hg
    rw [zero_add] at hcarry
    rw [wp_bind, wp_onFs]
    refine hP.wp_iunlockput hcarry.inv fun ks hk => ?_
    have hend := hcarry.leads hk
    rwa [add_neg_cancel] at hend

theorem Keeps.sysLink (h : P.Holds y 0) (old new : Option UserPath)
    (hc : P.Admits y (.link p old new)) :
    wp (sysLink p old new) (fun _ z => P.Holds z 0) anyStop y := by
  rw [FileSys.sysLink, wp_bind]
  refine wp_mycwd fun cwd hcwd => ?_
  cases old with
  | none => exact h
  | some a =>
    cases new with
    | none => exact h
    | some b =>
      rw [wp_onFs]
      exact hP.wp_link h.inv (h.live_cwd hcwd (Int.le_refl 0)) (hc cwd hcwd a rfl b rfl)
        fun _ gs hg => h.leads_zero hg

theorem Keeps.sysUnlink (h : P.Holds y 0) (path : Option UserPath)
    (hc : P.Admits y (.unlink p path)) :
    wp (sysUnlink p path) (fun _ z => P.Holds z 0) anyStop y := by
  rw [FileSys.sysUnlink, wp_bind]
  refine wp_mycwd fun cwd hcwd => ?_
  cases path with
  | none => exact h
  | some a =>
    rw [wp_onFs]
    exact hP.wp_unlink h.inv (h.live_cwd hcwd (Int.le_refl 0)) (hc cwd hcwd a rfl)
      fun _ gs hg => h.leads_zero hg

theorem Keeps.wp_chdirInode (h : P.inv fs) (hcwd : fs.live cwd) {path : List UInt8}
    {Q : Option (Fin NINODE) → Fs → Prop} (hnone : ∀ gs, P.Leads fs 0 gs → Q none gs)
    (hsome : ∀ ip gs, P.Leads fs (one ip) gs → Q (some ip) gs) :
    wp (chdirInode cwd path) Q anyStop fs := by
  simp only [chdirInode, wp_bind]
  refine hP.wp_namei h hcwd hnone fun ip gs hg => ?_
  simp only [wp_bind]
  refine wp_post hg fun _ ks hk => ?_
  rw [wp_get, wp_ite]
  refine ⟨fun _ => ?_, fun _ => ?_⟩
  · rw [wp_bind]
    refine hP.wp_iunlock hk.1.inv fun ls hl _ => hsome ip ls ?_
    have hend := hk.1.trans hl
    rwa [add_zero] at hend
  · rw [wp_bind]
    refine hP.wp_iunlockput hk.1.inv fun ls hl => hnone ls ?_
    have hend := hk.1.trans hl
    rwa [add_neg_cancel] at hend

section
variable (h : P.Holds y 0)
include h

theorem Keeps.sysChdir (path : Option UserPath) :
    wp (sysChdir p path) (fun _ z => P.Holds z 0) anyStop y := by
  rw [FileSys.sysChdir, wp_bind]
  refine wp_mycwd fun cwd hcwd => ?_
  cases path with
  | none => exact h
  | some a =>
    rw [wp_bind, wp_onFs]
    refine hP.wp_chdirInode h.inv (h.live_cwd hcwd (Int.le_refl 0)) (fun gs hg => h.leads_zero hg) ?_
    intro ip gs hg
    have hcarry := h.leads hg
    rw [zero_add] at hcarry
    simp only [wp_bind]
    refine hcarry.wp_iput hP (hcarry.live_cwd hcwd (one_nonneg ip cwd)) ?_
    intro ks hk
    refine ⟨hk.inv, hk.cleared, fun s => ?_⟩
    have h1 : (ks.itable s).ref = held y.files s + y.cwds s + (one ip s - one cwd s) := hk.refs s
    have h2 := sum_update y.cwd p (some ip) fun c => cwdWeight c s
    rw [hcwd, cwdWeight_some, cwdWeight_some] at h2
    have h4 : ∑ q, cwdWeight (y.cwd q) s = y.cwds s := rfl
    change (ks.itable s).ref = held y.files s +
      (∑ q, cwdWeight (Function.update y.cwd p (some ip) q) s) + 0
    omega

theorem Keeps.released {G : Files} {r : Released} (hG : Cleared G)
    (hheld : ∀ s, held G s + handed r s = held y.files s) {Q : Unit → Sys → Prop}
    (hQ : ∀ z, P.Holds z 0 → z.cwd = y.cwd → Q () z) :
    wp (release r) Q anyStop { y with files := G } := by
  have hz : P.Holds { y with files := G } (0 + handed r) := by
    refine ⟨h.inv, hG, fun s => ?_⟩
    have h1 : (y.fs.itable s).ref = held y.files s + y.cwds s + 0 := h.refs s
    have h2 := hheld s
    change (y.fs.itable s).ref = held G s + y.cwds s + (0 + handed r) s
    rw [zero_add]
    omega
  exact hz.wp_release hP (fun _ => Int.le_refl 0) fun gs hg => hQ _ hg rfl

theorem Keeps.sysClose (fd : Int) :
    wp (sysClose p fd) (fun _ z => P.Holds z 0) anyStop y := by
  rw [FileSys.sysClose, wp_bind]
  refine wp_mycwd fun cwd _ => ?_
  rw [wp_bind, wp_onFiles]
  refine wp_sysClose h.cleared fd (fun _ => trivial) fun r G hG hheld => ?_
  obtain ⟨r, rel⟩ := r
  rw [wp_bind]
  exact hP.released h hG hheld fun z hz _ => hz

theorem Keeps.exitFiles :
    wp (exitFiles p) (fun _ z => P.Holds z 0) anyStop y := by
  rw [FileSys.exitFiles, wp_ite]
  refine ⟨fun _ => trivial, fun _ => ?_⟩
  rw [wp_bind]
  refine wp_mycwd fun cwd hcwd => ?_
  rw [wp_bind]
  refine wp_post (Q := fun _ (z : Sys) => P.Holds z 0 ∧ z.cwd = y.cwd) ?_ ?_
  · refine wp_forUpto (fun _ (z : Sys) => P.Holds z 0 ∧ z.cwd = y.cwd) ⟨h, rfl⟩ ?_
    rintro fd _ z ⟨hz, hzc⟩
    rw [wp_bind, wp_onFiles]
    refine wp_exitFd hz.cleared _ (fun _ => trivial) fun r G hG hheld => ?_
    exact hP.released hz hG hheld fun w hw hwc => ⟨hw, hwc.trans hzc⟩
  · rintro _ z ⟨hz, hzc⟩
    have hzcwd : z.cwd p = some cwd := by
      rw [hzc]
      exact hcwd
    rw [wp_bind]
    refine hz.wp_iput hP (hz.live_cwd hzcwd (Int.le_refl 0)) ?_
    intro ks hk
    refine ⟨hk.inv, hk.cleared, fun s => ?_⟩
    have h1 : (ks.itable s).ref = held z.files s + z.cwds s + (0 - one cwd s) := hk.refs s
    have h2 := sum_update z.cwd p none fun c => cwdWeight c s
    have h3 : cwdWeight none s = 0 := rfl
    rw [hzcwd, cwdWeight_some, h3] at h2
    have h4 : ∑ q, cwdWeight (z.cwd q) s = z.cwds s := rfl
    change (ks.itable s).ref = held z.files s +
      (∑ q, cwdWeight (Function.update z.cwd p none q) s) + 0
    omega

theorem Keeps.call {c : PathCall} (hc : P.Admits y c) :
    wp c.prog (fun _ z => P.Holds z 0) anyStop y := by
  cases c with
  | openFile p path omode =>
    rw [PathCall.prog, wp_bind]
    exact hP.sysOpen h path omode hc
  | mkdir p path =>
    rw [PathCall.prog, wp_bind]
    exact hP.sysMake h path .dir 0 0 hc
  | mknod p path major minor =>
    rw [PathCall.prog, wp_bind]
    exact hP.sysMake h path .device major minor hc
  | link p old new =>
    rw [PathCall.prog, wp_bind]
    exact hP.sysLink h old new hc
  | unlink p path =>
    rw [PathCall.prog, wp_bind]
    exact hP.sysUnlink h path hc
  | chdir p path =>
    rw [PathCall.prog, wp_bind]
    exact hP.sysChdir h path
  | close p fd =>
    rw [PathCall.prog, wp_bind]
    exact hP.sysClose h fd
  | exit p => exact hP.exitFiles h

theorem Keeps.step {z : Sys} {c : PathCall} (hc : P.Admits y c) (hs : Sys.step y c = some z) :
    P.Holds z 0 := by
  have hw := hP.call h hc
  unfold Sys.step at hs
  rcases hr : c.prog y with ⟨r, w⟩
  rw [hr] at hs
  cases r with
  | ok u =>
    obtain rfl : w = z := by simpa using hs
    have hz := wp_of_run hw hr
    exact hz
  | error e => simp at hs

end

/-- Run lemma: so does every run of calls under a condition that implies the policy's. -/
theorem Keeps.run {C : Sys → PathCall → Prop} (hC : ∀ {y c}, P.Holds y 0 → C y c → P.Admits y c)
    {z : Sys} {calls : List PathCall} (h : P.Holds y 0) (hal : Run.Along Sys.step C y calls)
    (hrun : Run.exec Sys.step y calls = some z) : P.Holds z 0 :=
  @Run.exec_inv _ _ _ _ (fun z => P.Holds z 0) (fun hy hc hs => hP.step hy (hC hy hc) hs)
    y z calls h hal hrun

end

end Sys

end Policy

end Xv6Audit.FileSys
