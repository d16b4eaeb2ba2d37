import Xv6Audit.Fs.Edit

/-! What the calls on names do to the tree: each makes one link or removes one, with the
inode at its end, or leaves everything as it was. -/
namespace Xv6Audit.FileSys

open Prog Disk LinkTree
open Audit (ascii)

def dot : Name := cname (ascii ".")
def dotdot : Name := cname (ascii "..")

structure Numbered (fs : Fs) : Prop where
  fits : fs.sb.ninodes ≤ 65536
  alloc : ∀ i, fs.tree.kind i ≠ none → 0 < i ∧ i < fs.sb.ninodes

structure Ends (fs : Fs) (R : Fin NINODE → Int) (gs : Fs) : Prop where
  ready : Ready gs
  sb : gs.sb = fs.sb
  refs : ∀ t, (gs.itable t).ref = (fs.itable t).ref + R t

section Calls
variable {base fs gs ks : Fs} {R R' : Fin NINODE → Int} {s ip dp : Fin NINODE}
  {E : String → Fs → Prop}

theorem Moves.ends (h : Moves fs R gs) : Ends fs R gs := ⟨h.ready, h.sb, h.refs⟩

theorem Ends.trans (h : Ends fs R gs) (h' : Ends gs R' ks) : Ends fs (R + R') ks :=
  ⟨h'.ready, h'.sb.trans h.sb, fun t => by rw [h'.refs t, h.refs t, Pi.add_apply, Int.add_assoc]⟩

theorem Moves.stay (h : Moves base R fs) (hR : ∀ t, 0 ≤ R t) (h' : Moves fs 0 gs) :
    Moves base R gs := by
  have := h.trans h' hR
  rwa [add_zero] at this

theorem Moves.live (h : Moves fs R gs) {t : Fin NINODE} (hR : 0 ≤ R t) (ht : fs.live t) :
    gs.live t := by
  have := h.refs t
  unfold Fs.live at *
  omega

theorem Ready.wp_dotEntries (h : Ready fs) (hl : fs.live ip) (hdl : fs.live dp)
    (hnum : Numbered fs) (hempty : ∀ k, fs.tree.ent (fs.itable ip).inum k = none)
    (hE : ∀ e gs, E e gs) {Q : Bool → Fs → Prop}
    (hfail : ∀ gs, Moves fs 0 gs → fs.tree.SameBut (fs.itable ip).inum gs.tree → Q false gs)
    (hQ : ∀ gs, Moves fs 0 gs → gs.tree = (fs.tree.setEnt (fs.itable ip).inum 0
      (some ((fs.itable ip).inum, dot))).setEnt (fs.itable ip).inum 1
      (some ((fs.itable dp).inum, dotdot)) → Q true gs) : wp (dotEntries ip dp) Q E fs := by
  have hx := hnum.alloc _ (h.kind_ne_none hl)
  have hd := hnum.alloc _ (h.kind_ne_none hdl)
  have hfits := hnum.fits
  have hrefl : fs.tree.SameBut (fs.itable ip).inum fs.tree :=
    ⟨fun _ _ => rfl, fun _ _ => rfl, fun _ _ => rfl⟩
  have hzero : ∀ t : Fin NINODE, (0 : Int) ≤ (0 : Fin NINODE → Int) t := fun _ => Int.le_refl 0
  simp only [dotEntries, wp_bind, wp_get, wp_ite, wp_pure]
  refine h.wp_dirlink hl hE _ (by omega) (by omega) (fun gs hg ht => ?_)
    fun k gs hg _ hfirst _ _ ht => ?_
  · exact ⟨fun hc => absurd hc (by simp), fun _ => hfail gs hg (by rw [ht]; exact hrefl)⟩
  · obtain rfl : k = 0 := by
      by_contra hk
      exact hfirst 0 (by omega) (hempty 0)
    refine ⟨fun _ => ?_, fun hc => absurd rfl hc⟩
    have hi : (gs.itable ip).inum = (fs.itable ip).inum := hg.keeps ip hl
    have hdi : (gs.itable dp).inum = (fs.itable dp).inum := hg.keeps dp hdl
    refine hg.ready.wp_dirlink (hg.live (hzero _) hl) hE _ (by omega) (by omega) ?_ ?_
    · intro ks hk htk
      refine hfail ks (hg.stay hzero hk) ?_
      rw [htk, ht]
      exact hrefl.setEnt 0 _
    · intro k ks hk _ hfirst hfree _ htk
      rw [hi] at hfirst hfree htk
      rw [ht] at hfirst hfree htk
      simp only [Tree.setEnt_ent, hempty, true_and] at hfirst hfree
      obtain rfl : k = 1 := by
        have h1 : ¬ 1 < k := fun hlt => hfirst 1 hlt (by simp)
        have h2 : k ≠ 0 := by
          rintro rfl
          simp at hfree
        omega
      refine hQ ks (hg.stay hzero hk) ?_
      rw [htk, hdi]
      rfl

theorem free_node {x : Nat} (hx : fs.tree.kind x = none) :
    fs.tree.nlink x = 0 ∧ ∀ k, fs.tree.ent x k = none := by
  have ht := kind_none.mp hx
  exact ⟨if_pos ht, fun k => entry_not_dir (by rw [ht]; simp)⟩

variable {Q : Option (Fin NINODE) → Fs → Prop}

theorem Ready.wp_createFail (hm : Moves fs (one ip) gs) (hidle : (fs.itable ip).ref = 0)
    (hsame : fs.tree.SameBut (gs.itable ip).inum gs.tree)
    (hx : fs.tree.kind (gs.itable ip).inum = none) (hdl : fs.live dp)
    (hsafe : ¬ ((fs.itable dp).ref = 1 ∧ fs.tree.nlink (fs.itable dp).inum = 0))
    (hE : ∀ e gs, E e gs) (hQ : ∀ ks, Ends fs (-one dp) ks → ks.tree = fs.tree → Q none ks) :
    wp (createFail ip dp) Q E gs := by
  obtain ⟨x, hxi⟩ : ∃ x, x = (gs.itable ip).inum := ⟨_, rfl⟩
  rw [← hxi] at hsame hx
  have hgref : (gs.itable ip).ref = 1 := by
    rw [hm.refs ip, hidle, one_self]
    rfl
  have hgl : gs.live ip := by
    unfold Fs.live
    omega
  have hne : dp ≠ ip := by
    rintro rfl
    unfold Fs.live at hdl
    omega
  simp only [createFail, wp_bind, wp_pure]
  refine hm.ready.wp_setNlink hgl _ fun g1 h1 ht1 => ?_
  have hi1 : (g1.itable ip).inum = x := (h1.keeps ip hgl).trans hxi.symm
  rw [← hxi] at ht1
  have hnl1 : g1.tree.nlink x = 0 := by
    rw [ht1]
    simp [Tree.setNlink, short]
  refine h1.ready.wp_iunlockput hE (fun hc => ?_) fun _ _ g2 h2 ht2 => ?_
  · rw [hi1] at hc
    exact absurd ⟨by rw [h1.refs ip, hgref]; rfl, hnl1⟩ hc
  · rw [hi1] at ht2
    obtain ⟨hn0, he0⟩ := free_node hx
    have htree : g2.tree = fs.tree := by
      rw [ht2, ht1]
      exact (hsame.setNlink _).back hx hn0 he0
    have hdp1 : g1.live dp := (hm.stay (one_nonneg ip) h1).live (one_nonneg ip dp) hdl
    have hdpi : (g2.itable dp).inum = (fs.itable dp).inum := by
      rw [h2.keeps dp hdp1, (hm.stay (one_nonneg ip) h1).keeps dp hdl]
    have hdpr : (g2.itable dp).ref = (fs.itable dp).ref := by
      rw [h2.refs dp, h1.refs dp, hm.refs dp]
      simp [one_other hne]
    refine h2.ready.wp_iunlockput_safe (by rw [hdpr, htree, hdpi]; exact hsafe) hE
      fun g3 h3 ht3 => hQ g3 ?_ (ht3.trans htree)
    have hends := (hm.stay (one_nonneg ip) h1).ends.trans (h2.ends.trans h3.ends)
    rwa [add_neg_cancel_left] at hends

def born (t : Tree Nat Name) (type : InodeType) (x d : Nat) : Tree Nat Name :=
  if type = .dir then t.newDir dot dotdot x d else t.reset x (some .leaf)

theorem born_sameBut (t : Tree Nat Name) (type : InodeType) (x d : Nat) :
    t.SameBut x (born t type x d) := by
  unfold born
  split
  · exact ((Tree.SameBut.reset t x _).setEnt _ _).setEnt _ _
  · exact Tree.SameBut.reset t x _

theorem born_self (t : Tree Nat Name) (type : InodeType) (x d : Nat) :
    (born t type x d).nlink x = 0 ∧ (born t type x d).kind x = some (kindOf type) := by
  unfold born
  cases type <;> simp [Tree.newDir, Tree.reset, Tree.setEnt, kindOf]

theorem short_of_range {n : Int} (h0 : -32768 ≤ n) (h1 : n ≤ 32767) : short n = n := by
  unfold short
  omega

theorem Ready.wp_createEntry (hm : Moves fs (one ip) gs) (hidle : (fs.itable ip).ref = 0)
    {x d : Nat} (hx : x = (gs.itable ip).inum) (hd : d = (fs.itable dp).inum) (hx0 : 0 < x)
    (hxlt : x < 65536) (hxk : fs.tree.kind x = none) (hxd : x ≠ d) (hdl : fs.live dp)
    (hnn : 0 ≤ fs.tree.nlink d)
    (hsafe : ¬ ((fs.itable dp).ref = 1 ∧ fs.tree.nlink (fs.itable dp).inum = 0)) (name : Name)
    (type : InodeType) (hmax : type = .dir → fs.tree.nlink d < 32767)
    (ht : gs.tree = (born fs.tree type x d).setNlink x 1) (hE : ∀ e gs, E e gs)
    (hfail : ∀ ks, Ends fs (-one dp) ks → ks.tree = fs.tree → Q none ks)
    (hQ : ∀ k ks, Ends fs (one ip - one dp) ks → ks.live ip → (ks.itable ip).inum = x →
      (∀ j, j < k → fs.tree.ent d j ≠ none) → fs.tree.ent d k = none →
      ks.tree = (born fs.tree type x d).link d k (cname name) x → Q (some ip) ks) :
    wp (createEntry ip dp name type) Q E gs := by
  have hsame : fs.tree.SameBut x gs.tree := ht ▸ (born_sameBut fs.tree type x d).setNlink 1
  have hgl : gs.live ip := by
    unfold Fs.live
    rw [hm.refs ip, hidle, one_self]
    decide
  have hgdl : gs.live dp := hm.live (one_nonneg ip dp) hdl
  have hgd : (gs.itable dp).inum = d := (hm.keeps dp hdl).trans hd.symm
  have hent : gs.tree.ent d = fs.tree.ent d := hsame.ent d (Ne.symm hxd)
  have hgn : gs.tree.nlink d = fs.tree.nlink d := hsame.nlink d (Ne.symm hxd)
  have hne : dp ≠ ip := by
    rintro rfl
    unfold Fs.live at hdl
    omega
  rw [createEntry, wp_bind, wp_get, wp_bind, ← hx]
  refine hm.ready.wp_dirlink hgdl hE name hxlt (by omega) ?_ ?_
  · intro g1 h1 ht1
    rw [wp_ite]
    refine ⟨fun hc => absurd hc (by simp), fun _ => ?_⟩
    have hi1 : (g1.itable ip).inum = x := (h1.keeps ip hgl).trans hx.symm
    refine Ready.wp_createFail (hm.stay (one_nonneg ip) h1) hidle ?_ ?_ hdl hsafe hE hfail
    · rw [hi1, ht1]
      exact hsame
    · rw [hi1]
      exact hxk
  · intro k g1 h1 _ hfirst hfree _ ht1
    rw [hgd] at hfirst hfree ht1
    rw [hent] at hfirst hfree
    rw [wp_ite]
    refine ⟨fun _ => ?_, fun hc => absurd rfl hc⟩
    have hm1 := hm.stay (one_nonneg ip) h1
    have hdl1 : g1.live dp := hm1.live (one_nonneg ip dp) hdl
    have hd1 : (g1.itable dp).inum = d := (hm1.keeps dp hdl).trans hd.symm
    have hn1 : g1.tree.nlink d = fs.tree.nlink d := by
      rw [ht1]
      exact hgn
    obtain ⟨hb0, hbk⟩ := born_self fs.tree type x d
    have hbn : (born fs.tree type x d).nlink d = fs.tree.nlink d :=
      (born_sameBut fs.tree type x d).nlink d (Ne.symm hxd)
    -- what is left is to unlock the parent, which counts something or is referred to elsewhere
    have hrest : ∀ g2, Moves g1 0 g2 →
        g2.tree = (born fs.tree type x d).link d k (cname name) x →
        ¬ ((fs.itable dp).ref = 1 ∧ g2.tree.nlink d = 0) →
        wp (do
          iunlockput dp
          pure (some ip)) Q E g2 := by
      intro g2 h2 ht2 hn2
      have hm2 := hm1.stay (one_nonneg ip) h2
      have hd2 : (g2.itable dp).inum = d := (hm2.keeps dp hdl).trans hd.symm
      have hr2 : (g2.itable dp).ref = (fs.itable dp).ref := by
        rw [hm2.refs dp, one_other hne, Int.add_zero]
      rw [wp_bind]
      refine h2.ready.wp_iunlockput_safe (by rw [hr2, hd2]; exact hn2) hE fun g3 h3 ht3 => ?_
      have hends := hm2.ends.trans h3.ends
      rw [← sub_eq_add_neg] at hends
      have hgl2 : g2.live ip := by
        unfold Fs.live
        rw [hm2.refs ip, hidle, one_self]
        decide
      refine hQ k g3 hends ?_ ?_ hfirst hfree (ht3.trans ht2)
      · unfold Fs.live
        rw [h3.refs ip, hm2.refs ip, hidle]
        simp [one_other (Ne.symm hne)]
      · rw [h3.keeps ip hgl2, h2.keeps ip ?_, h1.keeps ip hgl, hx]
        exact h1.live (Int.le_refl 0) hgl
    by_cases htype : type = .dir
    · simp only [htype, if_true, wp_bind]
      refine h1.ready.wp_setNlink hdl1 _ fun g2 h2 ht2 => ?_
      have hmax := hmax htype
      rw [hd1, hn1, short_of_range (by omega) (by omega)] at ht2
      have htree : g2.tree = (born fs.tree type x d).link d k (cname name) x := by
        rw [ht2, ht1, ht, ← Tree.link_of_dir _ _ _ (by rw [hbk, htype]; rfl) hxd, hb0, hbn]
        rfl
      have hrest2 := hrest g2 h2 htree (by
        rw [ht2]
        simp only [Tree.setNlink, Function.update_self]
        omega)
      rw [wp_bind] at hrest2
      exact hrest2
    · simp only [htype, if_false, wp_bind, wp_pure]
      have htree : g1.tree = (born fs.tree type x d).link d k (cname name) x := by
        rw [ht1, ht, ← Tree.link_of_leaf _ _ _ _ (by rw [hbk]; cases type <;> simp_all [kindOf]), hb0]
        rfl
      have hrest1 := hrest g1 (Moves.refl h1.ready) htree (by rw [hn1, hd]; exact hsafe)
      rw [wp_bind] at hrest1
      exact hrest1

theorem Ready.wp_createNew (h : Ready fs) (hl : fs.live dp) (hnum : Numbered fs)
    (hdir : fs.tree.kind (fs.itable dp).inum = some .dir)
    (hnn : 0 ≤ fs.tree.nlink (fs.itable dp).inum)
    (hsafe : ¬ ((fs.itable dp).ref = 1 ∧ fs.tree.nlink (fs.itable dp).inum = 0)) (name : Name)
    (type : InodeType) (hmax : type = .dir → fs.tree.nlink (fs.itable dp).inum < 32767)
    (major minor : Int) (hE : ∀ e gs, E e gs)
    (hfail : ∀ gs, Ends fs (-one dp) gs → gs.tree = fs.tree → Q none gs)
    (hQ : ∀ x k ip gs, Ends fs (one ip - one dp) gs → gs.live ip → (gs.itable ip).inum = x →
      fs.freeInum = some x → (∀ j, j < k → fs.tree.ent (fs.itable dp).inum j ≠ none) →
      fs.tree.ent (fs.itable dp).inum k = none →
      gs.tree = (born fs.tree type x (fs.itable dp).inum).link (fs.itable dp).inum k (cname name) x →
      Q (some ip) gs) : wp (createNew dp name type major minor) Q E fs := by
  obtain ⟨d, hd⟩ : ∃ d, d = (fs.itable dp).inum := ⟨_, rfl⟩
  rw [← hd] at hdir hnn hmax
  simp only [createNew, wp_bind]
  refine h.wp_ialloc type hE ?_ ?_
  · rw [wp_bind]
    exact h.wp_iunlockput_safe hsafe hE fun gs hg ht => hfail gs hg.ends ht
  intro x ip g0 hx hfresh
  obtain ⟨hx0, hxlt, hxfree⟩ := freeInum_spec hx
  have hxk : fs.tree.kind x = none := kind_none.mpr hxfree
  have hxd : x ≠ d := by
    rintro rfl
    rw [hxk] at hdir
    cases hdir
  have hfits := hnum.fits
  simp only [wp_bind]
  refine hfresh.wp_ilock h hE fun g1 h1 hl1 hi1 ht1 => ?_
  rw [wp_modify]
  refine h1.ready.wp_store hl1 { (g1.itable ip).d with
    major := short major, minor := short minor, nlink := 1 } rfl rfl rfl fun g2 h2 ht2 => ?_
  have hm := h1.stay (one_nonneg ip) h2
  have hi2 : (g2.itable ip).inum = x := (h2.keeps ip hl1).trans hi1
  have hl2 : g2.live ip := h2.live (Int.le_refl 0) hl1
  rw [hi1, ht1] at ht2
  have hnext := fun g3 (h3 : Moves g2 0 g3)
      (ht3 : g3.tree = (born fs.tree type x d).setNlink x 1) =>
    Ready.wp_createEntry (hm.stay (one_nonneg ip) h3) hfresh.idle
      ((h3.keeps ip hl2).trans hi2).symm hd hx0
      (by omega) hxk hxd hl hnn hsafe name type hmax ht3 hE hfail
      fun k ks hk hkl hki hfirst hfree ht => hQ x k ip ks hk hkl hki hx (by rwa [← hd])
        (by rwa [← hd]) (by rwa [← hd])
  have hfields : fs.tree.SameBut x g2.tree := ht2 ▸ (Tree.SameBut.reset fs.tree x _).setNlink 1
  rw [wp_ite]
  refine ⟨fun htype => ?_, fun htype => ?_⟩
  · have hnum2 : Numbered g2 := by
      refine ⟨by rw [hm.sb]; exact hfits, fun i hi => ?_⟩
      rw [hm.sb]
      by_cases hix : i = x
      · omega
      · rw [hfields.kind i hix] at hi
        exact hnum.alloc i hi
    have hempty : ∀ k, g2.tree.ent (g2.itable ip).inum k = none := by
      intro k
      rw [hi2, ht2]
      simp [Tree.setNlink, Tree.reset]
    have hdl2 : g2.live dp := hm.live (one_nonneg ip dp) hl
    have hd2 : (g2.itable dp).inum = d := (hm.keeps dp hl).trans hd.symm
    refine hm.ready.wp_dotEntries hl2 hdl2 hnum2 hempty hE ?_ ?_
    · intro g3 h3 hs3
      rw [wp_ite]
      refine ⟨fun hc => absurd hc (by simp), fun _ => ?_⟩
      rw [hi2] at hs3
      have hi3 : (g3.itable ip).inum = x := (h3.keeps ip hl2).trans hi2
      refine Ready.wp_createFail (hm.stay (one_nonneg ip) h3) hfresh.idle ?_ ?_ hl hsafe hE hfail
      · rw [hi3]
        exact hfields.trans hs3
      · rw [hi3]
        exact hxk
    · intro g3 h3 ht3
      rw [wp_ite]
      refine ⟨fun _ => hnext g3 h3 ?_, fun hc => absurd rfl hc⟩
      rw [ht3, hi2, hd2, ht2]
      subst htype
      rfl
  · rw [wp_pure, wp_ite]
    refine ⟨fun _ => hnext g2 (Moves.refl h2.ready) ?_, fun hc => absurd rfl hc⟩
    have hleaf : kindOf type = .leaf := by cases type <;> simp_all [kindOf]
    rw [ht2, hleaf]
    simp [born, htype]

theorem Ready.wp_create (h : Ready fs) {cwd : Fin NINODE} (hcwd : fs.live cwd) (hnum : Numbered fs)
    (path : List UInt8) (type : InodeType) (major minor : Int) (hnn : ∀ d, 0 ≤ fs.tree.nlink d)
    (hmax : type = .dir → ∀ d, fs.tree.kind d = some .dir → fs.tree.nlink d < 32767)
    (hE : ∀ e gs, E e gs) (hnone : ∀ gs, Ends fs 0 gs → gs.tree = fs.tree → Q none gs)
    (hfound : ∀ ip gs, Ends fs (one ip) gs → gs.live ip →
      ¬ ((gs.itable ip).ref = 1 ∧ gs.tree.nlink (gs.itable ip).inum = 0) →
      gs.tree = fs.tree → Q (some ip) gs)
    (hnew : ∀ x init n d k ip gs, Ends fs (one ip) gs → gs.live ip → (gs.itable ip).inum = x →
      fs.freeInum = some x → elems path = init ++ [n] →
      fs.resolve (fs.start cwd path) init = some d → fs.tree.kind d = some .dir →
      (∀ j, j < k → fs.tree.ent d j ≠ none) → fs.tree.ent d k = none →
      (∀ j y, fs.tree.ent d j ≠ some (y, cname n)) →
      gs.tree = (born fs.tree type x d).link d k (cname n) x → Q (some ip) gs) :
    wp (create cwd path type major minor) Q E fs := by
  simp only [create, nameiparent, wp_bind]
  refine wp_namex h hcwd path true (fun e gs _ => hE e gs) (fun gs hg => ?_)
    fun dp n g1 h1 hl1 hf1 => ?_
  · exact hnone gs (hg.moves_zero h).ends hg.tree
  obtain ⟨init, hinit, hres, hv1, hdir1⟩ : ∃ init, elems path = init ++ [n] ∧
      fs.resolve (fs.start cwd path) init = some (g1.itable dp).inum ∧
      (g1.itable dp).valid = true ∧ fs.tree.kind (g1.itable dp).inum = some .dir := by
    simpa [Found] using hf1
  simp only [wp_bind]
  refine h1.ilock (fun e gs _ => hE e gs) fun g2 h2 hv2 hl2 hi2 _ => ?_
  refine h2.dirlookup (one_nonneg dp) hl2 hv2 (fun e gs _ => hE e gs) n ?_ ?_
  · -- a new name
    intro hdir hfresh
    have hm2 := h2.moves_one h hv2
    have hsafe := hm2.safe (s := dp) h (one_nonneg dp) (by simp) fun h0 =>
      ⟨by rw [← h2.tree]; exact hm2.ready.kind_ne_none hl2, by rw [← h2.tree]; exact h0⟩
    rw [hi2] at hdir hfresh
    refine hm2.ready.wp_createNew hl2 ?_ ?_ ?_ hsafe n type ?_ major minor hE ?_ ?_
    · exact ⟨by rw [h2.sb]; exact hnum.fits, by rw [h2.tree, h2.sb]; exact hnum.alloc⟩
    · rw [h2.tree, hi2]
      exact hdir
    · rw [h2.tree]
      exact hnn _
    · rw [h2.tree, hi2]
      exact fun hty => hmax hty _ hdir
    · intro gs hg ht
      have hends := hm2.ends.trans hg
      rw [add_neg_cancel] at hends
      exact hnone gs hends (ht.trans h2.tree)
    · intro x k ip gs hg hgl hgi hx hfirst hfree ht
      rw [h2.tree, hi2] at hfirst hfree ht
      have hends := hm2.ends.trans hg
      rw [add_sub_cancel] at hends
      have hfree' : fs.freeInum = some x := by
        have : g2.freeInum = fs.freeInum := by
          unfold Fs.freeInum
          rw [h2.sb, h2.dinode]
        rw [← this]
        exact hx
      exact hnew x init n _ k ip gs hends hgl hgi hfree' hinit hres hdir hfirst hfree hfresh ht
  · -- the name is there
    intro k y ip g3 _ _ h3 _ hl3 _
    have hR : ∀ u, 0 ≤ (one dp + one ip) u := fun u => by
      have := one_nonneg dp u
      have := one_nonneg ip u
      simp only [Pi.add_apply]
      omega
    have hp : 0 < (one dp + one ip) dp := by
      have := one_nonneg ip dp
      simp only [Pi.add_apply, one_self]
      omega
    simp only [wp_bind]
    refine h3.iunlockput hR hp h (fun e gs _ => hE e gs) fun g4 h4 _ => ?_
    rw [add_sub_cancel_left] at h4
    refine h4.ilock (fun e gs _ => hE e gs) fun g5 h5 hv5 hl5 _ _ => ?_
    have hm5 := h5.moves_one h hv5
    have hsafe := hm5.safe (s := ip) h (one_nonneg ip) (by simp) fun h0 =>
      ⟨by rw [← h5.tree]; exact hm5.ready.kind_ne_none hl5, by rw [← h5.tree]; exact h0⟩
    simp only [wp_get, wp_ite, wp_bind, wp_pure]
    refine ⟨fun _ => hfound ip g5 hm5.ends hl5 hsafe h5.tree, fun _ => ?_⟩
    refine hm5.ready.wp_iunlockput_safe hsafe hE fun g6 h6 ht6 => ?_
    have hends := hm5.ends.trans h6.ends
    rw [add_neg_cancel] at hends
    exact hnone g6 hends (ht6.trans h5.tree)

end Calls

end Xv6Audit.FileSys
