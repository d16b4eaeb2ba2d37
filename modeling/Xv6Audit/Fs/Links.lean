import Xv6Audit.Fs.Calls

/-! What `sys_link` and `sys_unlink` do to the tree. -/
namespace Xv6Audit.FileSys
open Function

open Prog Disk LinkTree

section Links
variable {fs gs : Fs} {cwd s ip dp : Fin NINODE} {E : String → Fs → Prop}

variable {Q : Int → Fs → Prop}

theorem Ready.wp_linkBack (h : Ready fs) (hm : Moves fs (one ip) gs) {x : Nat}
    (hx : (gs.itable ip).inum = x) (hk : fs.tree.kind x ≠ none)
    (ht : gs.tree = fs.tree.setNlink x (fs.tree.nlink x + 1)) (hnn : 0 ≤ fs.tree.nlink x)
    (hmax : fs.tree.nlink x ≤ 32767) (hE : ∀ e gs, E e gs)
    (hQ : ∀ gs, Ends fs 0 gs → gs.tree = fs.tree → Q (-1) gs) :
    wp (do
      ilock ip
      setNlink ip (· - 1)
      iunlockput ip
      pure (-1)) Q E gs := by
  simp only [wp_bind, wp_pure]
  refine hm.ready.wp_ilock hE fun g1 h1 hl1 ht1 => ?_
  have hm1 := hm.stay (one_nonneg ip) h1
  have hi1 : (g1.itable ip).inum = x := by
    refine (h1.keeps ip ?_).trans hx
    have := h1.refs ip
    unfold Fs.live at *
    simp only [Pi.zero_apply] at this
    omega
  refine h1.ready.wp_setNlink hl1 _ fun g2 h2 ht2 => ?_
  have hm2 := hm1.stay (one_nonneg ip) h2
  have hi2 : (g2.itable ip).inum = x := (h2.keeps ip hl1).trans hi1
  have htree : g2.tree = fs.tree := by
    rw [ht2, hi1, ht1, ht]
    refine Tree.ext rfl (funext fun y => ?_) rfl
    by_cases hy : y = x
    · subst y
      simp only [Tree.setNlink, update_self, Int.add_sub_cancel]
      exact short_of_range (by omega) hmax
    · simp [Tree.setNlink, hy]
  have hsafe := hm2.safe (s := ip) h (one_nonneg ip) (by simp) fun h0 => by
    rw [hi2, htree] at h0
    rw [hi2]
    exact ⟨hk, h0⟩
  refine h2.ready.wp_iunlockput_safe hsafe hE fun g3 h3 ht3 => ?_
  have hends := hm2.ends.trans h3.ends
  rw [add_neg_cancel] at hends
  exact hQ g3 hends (ht3.trans htree)

theorem Ready.wp_link (h : Ready fs) (hcwd : fs.live cwd) (hnum : Numbered fs)
    (old new : List UInt8) (hnn : ∀ x, 0 ≤ fs.tree.nlink x)
    (hmax : ∀ x, fs.resolve (fs.start cwd old) (elems old) = some x → fs.tree.nlink x < 32767)
    (hE : ∀ e gs, E e gs) (hfail : ∀ gs, Ends fs 0 gs → gs.tree = fs.tree → Q (-1) gs)
    (hQ : ∀ x init n d k gs, Ends fs 0 gs → fs.tree.kind x = some .leaf →
      fs.tree.nlink x < 32767 → elems new = init ++ [n] →
      fs.resolve (fs.start cwd new) init = some d → fs.tree.kind d = some .dir →
      (∀ j, j < k → fs.tree.ent d j ≠ none) →
      fs.tree.ent d k = none → (∀ j y, fs.tree.ent d j ≠ some (y, cname n)) →
      gs.tree = fs.tree.link d k (cname n) x → Q 0 gs) :
    wp (link cwd old new) Q E fs := by
  simp only [link, namei, nameiparent, wp_bind, wp_pure]
  refine wp_namex h hcwd old false (fun e gs _ => hE e gs) (fun gs hg => ?_) fun ip n g1 h1 _ hf1 => ?_
  · exact hfail gs (hg.moves_zero h).ends hg.tree
  have hres : fs.resolve (fs.start cwd old) (elems old) = some (g1.itable ip).inum := by
    simpa [Found] using hf1
  obtain ⟨x, hx⟩ : ∃ x, x = (g1.itable ip).inum := ⟨_, rfl⟩
  rw [← hx] at hres
  have hxmax := hmax x hres
  have hxnn := hnn x
  simp only [Option.map_some, wp_bind, wp_get, wp_ite, wp_pure]
  refine h1.ilock (fun e gs _ => hE e gs) fun g2 h2 hv2 hl2 hi2 _ => ?_
  rw [← hx] at hi2
  have hm2 := h2.moves_one h hv2
  have hkx : fs.tree.kind x ≠ none := by
    rw [← h2.tree, ← hi2]
    exact hm2.ready.kind_ne_none hl2
  refine ⟨fun _ => ?_, fun hleaf => ?_⟩
  · have hsafe := hm2.safe (s := ip) h (one_nonneg ip) (by simp) fun h0 => by
      rw [hi2, h2.tree] at h0
      rw [hi2]
      exact ⟨hkx, h0⟩
    refine hm2.ready.wp_iunlockput_safe hsafe hE fun g3 h3 ht3 => ?_
    have hends := hm2.ends.trans h3.ends
    rw [add_neg_cancel] at hends
    exact hfail g3 hends (ht3.trans h2.tree)
  have hleafx : fs.tree.kind x ≠ some .dir := by
    rw [← h2.tree, ← hi2]
    exact fun hd => hleaf ((hm2.ready.kind_dir hl2).mp hd)
  refine hm2.ready.wp_setNlink hl2 _ fun g3 h3 ht3 => ?_
  have hl3 : g3.live ip := h3.live (Int.le_refl 0) hl2
  refine h3.ready.wp_iunlock hE fun g4 h4 hl4 ht4 => ?_
  have hm4 := (hm2.stay (one_nonneg ip) h3).stay (one_nonneg ip) h4
  have hi4 : (g4.itable ip).inum = x := by rw [h4.keeps ip hl3, h3.keeps ip hl2, hi2]
  have htree4 : g4.tree = fs.tree.setNlink x (fs.tree.nlink x + 1) := by
    rw [ht4, ht3, hi2, h2.tree, short_of_range (by omega) (by omega)]
  have hback : ∀ gs, Moves g4 0 gs → gs.tree = g4.tree → wp (do
      ilock ip
      setNlink ip (· - 1)
      iunlockput ip
      pure (-1)) Q E gs := by
    intro gs hg ht
    exact h.wp_linkBack (hm4.stay (one_nonneg ip) hg) ((hg.keeps ip hl4).trans hi4) hkx
      (ht.trans htree4) hxnn (by omega) hE hfail
  -- the parent of the new name, looked up while the count is one too high
  have hcwd4 : g4.live cwd := hm4.live (one_nonneg ip cwd) hcwd
  refine wp_namex h4.ready hcwd4 new true (fun e gs _ => hE e gs) (fun gs hg => ?_)
    fun dp n g5 h5 hl5 hf5 => ?_
  · rw [wp_bind, wp_pure]
    exact hback gs (hg.moves_zero h4.ready) hg.tree
  obtain ⟨init, hinit, hres5, hv5, hdir5⟩ : ∃ init, elems new = init ++ [n] ∧
      g4.resolve (g4.start cwd new) init = some (g5.itable dp).inum ∧
      (g5.itable dp).valid = true ∧ g4.tree.kind (g5.itable dp).inum = some .dir := by
    simpa [Found] using hf5
  obtain ⟨d, hd⟩ : ∃ d, d = (g5.itable dp).inum := ⟨_, rfl⟩
  have hstart : g4.start cwd new = fs.start cwd new := by
    unfold Fs.start
    rw [hm4.keeps cwd hcwd]
  have hent4 : g4.tree.ent = fs.tree.ent := by
    rw [htree4]
    rfl
  rw [resolve_congr hent4, hstart, ← hd] at hres5
  rw [← hd, htree4] at hdir5
  have hxd : d ≠ x := by
    rintro rfl
    exact hleafx hdir5
  have hkd4 : g4.tree.kind d ≠ none := by
    have hkd : g4.tree.kind d = some .dir := by
      rw [htree4]
      exact hdir5
    rw [hkd]
    simp
  simp only [wp_bind, wp_get, wp_pure]
  refine h5.ilock (fun e gs _ => hE e gs) fun g6 h6 hv6 hl6 hi6 _ => ?_
  rw [← hd] at hi6
  have hm6 := h6.moves_one h4.ready hv6
  have hi6' : (g6.itable ip).inum = x := (hm6.keeps ip hl4).trans hi4
  have htree6 : g6.tree = fs.tree.setNlink x (fs.tree.nlink x + 1) := h6.tree.trans htree4
  have hxnum := hnum.alloc x hkx
  have hfits := hnum.fits
  rw [hi6']
  refine hm6.ready.wp_dirlink hl6 hE n (by omega) (by omega) ?_ ?_
  · intro g7 h7 ht7
    have hm7 := hm6.stay (one_nonneg dp) h7
    have hi7 : (g7.itable dp).inum = d := (h7.keeps dp hl6).trans hi6
    refine h7.ready.wp_iunlockput_safe ?_ hE fun g8 h8 ht8 => ?_
    · refine hm7.safe h4.ready (one_nonneg dp) (by simp) fun h0 => ?_
      rw [hi7, ht7, h6.tree] at h0
      rw [hi7]
      exact ⟨hkd4, h0⟩
    · have hm8 := hm7.trans h8 (one_nonneg dp)
      rw [add_neg_cancel] at hm8
      exact hback g8 hm8 (ht8.trans (ht7.trans h6.tree))
  · intro k g7 h7 _ hfirst hfree hfresh ht7
    rw [hi6] at hfirst hfree hfresh ht7
    rw [htree6] at hfirst hfree hfresh ht7
    rw [Tree.link_of_leaf _ _ _ _ hleafx] at ht7
    have hm7 := hm6.stay (one_nonneg dp) h7
    have hi7 : (g7.itable dp).inum = d := (h7.keeps dp hl6).trans hi6
    have hnd : (fs.tree.link d k (cname n) x).nlink d = fs.tree.nlink d :=
      if_neg fun hc => hc.elim hxd fun hc => hleafx hc.2
    have hnx : (fs.tree.link d k (cname n) x).nlink x = fs.tree.nlink x + 1 := if_pos (.inl rfl)
    refine h7.ready.wp_iunlockput_safe ?_ hE fun g8 h8 ht8 => ?_
    · refine hm7.safe h4.ready (one_nonneg dp) (by simp) fun h0 => ?_
      rw [hi7, ht7, hnd] at h0
      rw [hi7]
      refine ⟨hkd4, ?_⟩
      rw [htree4]
      simpa only [Tree.setNlink, update_of_ne hxd] using h0
    · have hm8 := hm7.trans h8 (one_nonneg dp)
      rw [add_neg_cancel] at hm8
      have hl8 : g8.live ip := hm8.live (Int.le_refl 0) hl4
      have hi8 : (g8.itable ip).inum = x := (hm8.keeps ip hl4).trans hi4
      rw [if_pos rfl, wp_bind]
      refine h8.ready.wp_iput_safe hl8 ?_ hE fun g9 h9 ht9 => ?_
      · rw [hi8, ht8, ht7, hnx]
        omega
      · have hends := hm4.ends.trans (hm8.ends.trans h9.ends)
        rw [zero_add, add_neg_cancel] at hends
        have hkl : fs.tree.kind x = some .leaf := by
          cases hk : fs.tree.kind x with
          | none => exact absurd hk hkx
          | some c =>
            cases c with
            | leaf => rfl
            | dir => exact absurd hk hleafx
        exact hQ x init n d k g9 hends hkl hxmax hinit hres5 hdir5 hfirst hfree hfresh
          (ht9.trans (ht8.trans ht7))

theorem Ready.wp_unlinkEntry (hm : Moves fs (one dp + one ip) gs) (ht : gs.tree = fs.tree)
    (hdot : Dotted dot dotdot fs.tree) (hnn : ∀ x, 0 ≤ fs.tree.nlink x)
    (hmax : ∀ x, fs.tree.nlink x ≤ 32767) (hdl : gs.live dp) (hil : gs.live ip) {d x k : Nat}
    {n : Name} (hd : (gs.itable dp).inum = d) (hx : (gs.itable ip).inum = x) (hk : 2 ≤ k)
    (he : fs.tree.ent d k = some (x, n))
    (hempty : fs.tree.kind x = some .dir → ∀ j, 2 ≤ j → fs.tree.ent x j = none) {c : Prop}
    [Decidable c] (hc : c ↔ fs.tree.kind x = some .dir) (hpos : 1 ≤ fs.tree.nlink x)
    (hE : ∀ e gs, E e gs) (hQ : ∀ gs, Ends fs 0 gs → (fs.tree.unlink d k x).Reaps gs.tree → Q 0 gs) :
    wp (do
      if ← writeDirent dp (DESIZE * k) ⟨0, List.replicate DIRSIZ 0⟩ then do
        if c then setNlink dp (· - 1) else pure ()
        iunlockput dp
        setNlink ip (· - 1)
        iunlockput ip
        pure 0
      else throw "unlink: writei") Q E gs := by
  have hdir : fs.tree.kind d = some .dir := hdot.owner d k _ he
  have hxd : x ≠ d := by
    rintro rfl
    rw [hempty hdir k hk] at he
    cases he
  have hxmax := hmax x
  have hdmax := hmax d
  have hdnn := hnn d
  have hpid : dp ≠ ip := by
    rintro rfl
    exact hxd (hx.symm.trans hd)
  have hkx : fs.tree.kind x ≠ none := by
    rw [← ht, ← hx]
    exact hm.ready.kind_ne_none hil
  have hzero : ∀ t : Fin NINODE, (0 : Int) ≤ (0 : Fin NINODE → Int) t := fun _ => Int.le_refl 0
  -- from here on only counts and references change
  have hrest : ∀ g1, Moves gs 0 g1 →
      g1.tree.setNlink x (fs.tree.nlink x - 1) = fs.tree.unlink d k x →
      g1.tree.nlink x = fs.tree.nlink x → wp (do
        iunlockput dp
        setNlink ip (· - 1)
        iunlockput ip
        pure 0) Q E g1 := by
    intro g1 h1 htree hn1
    have hd1 : (g1.itable dp).inum = d := (h1.keeps dp hdl).trans hd
    have hx1 : (g1.itable ip).inum = x := (h1.keeps ip hil).trans hx
    have hl1 : g1.live ip := h1.live (hzero _) hil
    have hnd : (fs.tree.unlink d k x).nlink d = g1.tree.nlink d := by
      rw [← htree]
      simp only [Tree.setNlink, update_of_ne (Ne.symm hxd)]
    have hlast : ∀ g2, Moves g1 (-one dp) g2 → g2.tree.nlink x = fs.tree.nlink x →
        (fs.tree.unlink d k x).Reaps (g2.tree.setNlink x (fs.tree.nlink x - 1)) →
        wp (do
          setNlink ip (· - 1)
          iunlockput ip
          pure 0) Q E g2 := by
      intro g2 h2 hn2 hr2
      have hx2 : (g2.itable ip).inum = x := (h2.keeps ip hl1).trans hx1
      have hl2 : g2.live ip := h2.live (by simp [one_other (Ne.symm hpid)]) hl1
      simp only [wp_bind, wp_pure]
      refine h2.ready.wp_setNlink hl2 _ fun g3 h3 ht3 => ?_
      rw [hx2, hn2, short_of_range (by omega) (by omega)] at ht3
      rw [← ht3] at hr2
      have hx3 : (g3.itable ip).inum = x := (h3.keeps ip hl2).trans hx2
      have hl3 : g3.live ip := h3.live (hzero _) hl2
      have hends : ∀ g4, Moves g3 (-one ip) g4 → Ends fs 0 g4 := by
        intro g4 h4
        have := hm.ends.trans (h1.ends.trans (h2.ends.trans (h3.ends.trans h4.ends)))
        rwa [zero_add, zero_add, ← neg_add, add_neg_cancel] at this
      refine h3.ready.wp_iunlockput hE (fun _ g4 h4 ht4 => ?_) fun _ h0 g4 h4 ht4 => ?_
      · exact hQ g4 (hends g4 h4) (ht4 ▸ hr2)
      · refine hQ g4 (hends g4 h4) ?_
        rw [ht4]
        exact .free hr2 (h3.ready.kind_ne_none hl3) h0
    rw [wp_bind]
    refine h1.ready.wp_iunlockput hE (fun _ g2 h2 ht2 => ?_) fun _ h0 g2 h2 ht2 => ?_
    · refine hlast g2 h2 (by rw [ht2, hn1]) ?_
      rw [ht2, htree]
      exact .none
    · rw [hd1] at h0 ht2
      refine hlast g2 h2 ?_ ?_
      · rw [ht2]
        simpa only [Tree.reset, update_of_ne hxd] using hn1
      · rw [ht2, Tree.reset_setNlink _ hxd, htree]
        exact .free .none (by change fs.tree.kind d ≠ none; rw [hdir]; simp) (hnd.trans h0)
  have hkn : k < gs.nents d := entry_lt_nents (by change gs.tree.ent d k = _; rw [ht]; exact he)
  rw [wp_bind]
  refine wp_writeDirent hm.ready.wf hdl (hm.ready.valid dp hdl) ?_ (by decide) (by simp)
    (.inl (by rw [hd]; exact hkn)) (fun _ _ _ _ => hE _ _) fun g1 hg1 hs1 ht1 => ?_
  · rw [← hm.ready.kind_dir hdl, hd, ht]
    exact hdir
  rw [if_pos rfl, hd, ht] at ht1
  have h1 : Moves gs 0 g1 := hm.ready.same hg1 hs1 (by rw [ht1, ht]; rfl) (by rw [ht1, ht]; rfl)
  by_cases hcc : c
  · simp only [if_true, hcc]
    rw [wp_bind]
    refine h1.ready.wp_setNlink (h1.live (hzero _) hdl) _ fun g2 h2 ht2 => ?_
    have hnd : g1.tree.nlink d = fs.tree.nlink d := by
      rw [ht1]
      rfl
    rw [h1.keeps dp hdl, hd, hnd, short_of_range (by omega) (by omega), ht1] at ht2
    refine hrest g2 (h1.stay hzero h2) ?_ ?_
    · rw [ht2]
      exact Tree.unlink_of_dir _ _ _ (hc.mp hcc)
    · rw [ht2]
      simp [Tree.setNlink, Tree.setEnt, hxd]
  · simp only [if_true, hcc, if_false]
    refine hrest g1 h1 ?_ ?_
    · rw [ht1]
      exact Tree.unlink_of_leaf _ _ _ fun hd => hcc (hc.mpr hd)
    · rw [ht1]
      rfl

theorem Ready.wp_unlink (h : Ready fs) (hcwd : fs.live cwd) (hdot : Dotted dot dotdot fs.tree)
    (hnn : ∀ x, 0 ≤ fs.tree.nlink x) (hmax : ∀ x, fs.tree.nlink x ≤ 32767) (path : List UInt8)
    (hE : ∀ e gs, E e gs) (hfail : ∀ gs, Ends fs 0 gs → gs.tree = fs.tree → Q (-1) gs)
    (hQ : ∀ init n d k x gs, Ends fs 0 gs → elems path = init ++ [n] →
      fs.resolve (fs.start cwd path) init = some d → 2 ≤ k →
      fs.tree.ent d k = some (x, cname n) →
      (∀ j, j < k → ∀ y, fs.tree.ent d j ≠ some (y, cname n)) →
      (fs.tree.kind x = some .dir → ∀ j, 2 ≤ j → fs.tree.ent x j = none) →
      (fs.tree.unlink d k x).Reaps gs.tree → Q 0 gs) :
    wp (unlink cwd path) Q E fs := by
  simp only [unlink, nameiparent, wp_bind]
  refine wp_namex h hcwd path true (fun e gs _ => hE e gs) (fun gs hg => ?_)
    fun dp n g1 h1 hl1 hf1 => ?_
  · exact hfail gs (hg.moves_zero h).ends hg.tree
  obtain ⟨init, hinit, hres, -, -⟩ : ∃ init, elems path = init ++ [n] ∧
      fs.resolve (fs.start cwd path) init = some (g1.itable dp).inum ∧
      (g1.itable dp).valid = true ∧ fs.tree.kind (g1.itable dp).inum = some .dir := by
    simpa [Found] using hf1
  simp only [wp_bind]
  refine h1.ilock (fun e gs _ => hE e gs) fun g2 h2 hv2 hl2 hi2 _ => ?_
  have hm2 := h2.moves_one h hv2
  obtain ⟨d, hd⟩ : ∃ d, d = (g2.itable dp).inum := ⟨_, rfl⟩
  rw [← hi2, ← hd] at hres
  have hgive : ∀ gs, Moves g2 0 gs → gs.tree = fs.tree →
      wp (iunlockput dp) (fun _ ks => Q (-1) ks) E gs := by
    intro gs hg ht
    have hm := hm2.stay (one_nonneg dp) hg
    have hgl : gs.live dp := hg.live (Int.le_refl 0) hl2
    have hsafe := hm.safe (s := dp) h (one_nonneg dp) (by simp) fun h0 => by
      rw [ht] at h0
      exact ⟨by rw [← ht]; exact hm.ready.kind_ne_none hgl, h0⟩
    refine hm.ready.wp_iunlockput_safe hsafe hE fun ks hk htk => ?_
    have hends := hm.ends.trans hk.ends
    rw [add_neg_cancel] at hends
    exact hfail ks hends (htk.trans ht)
  have hgive2 := hgive g2 (Moves.refl hm2.ready) h2.tree
  simp only [wp_ite, wp_bind, wp_pure]
  refine ⟨fun _ => hgive2, fun hname => ?_⟩
  rw [namecmp_eq_zero, namecmp_eq_zero] at hname
  refine (Touch.refl hm2.ready).dirlookup (fun _ => Int.le_refl 0) hl2 hv2
    (fun e gs _ => hE e gs) n ?_ ?_
  · intro _ _
    rw [wp_bind]
    exact hgive2
  intro k x ip g3 he hfirst h3 hi3 hl3 _
  rw [zero_add] at h3
  rw [h2.tree, ← hd] at he hfirst
  have hdir : fs.tree.kind d = some .dir := hdot.owner d k _ he
  have hk : 2 ≤ k := by
    by_contra hlt
    obtain rfl | rfl : k = 0 ∨ k = 1 := by omega
    · rw [hdot.self d hdir, Option.some.injEq, Prod.mk.injEq] at he
      exact hname (.inl he.2.symm)
    · obtain ⟨u, hu⟩ := hdot.parent d hdir
      rw [hu, Option.some.injEq, Prod.mk.injEq] at he
      exact hname (.inr he.2.symm)
  rw [wp_bind]
  refine h3.ilock (fun e gs _ => hE e gs) fun g4 h4 hv4 hl4 hi4 _ => ?_
  rw [hi3] at hi4
  have hm4 := h4.moves_one hm2.ready hv4
  have ht4 : g4.tree = fs.tree := h4.tree.trans h2.tree
  have hdl4 : g4.live dp := hm4.live (one_nonneg ip dp) hl2
  have hd4 : (g4.itable dp).inum = d := (hm4.keeps dp hl2).trans hd.symm
  have hty : (g4.itable ip).d.type = some .dir ↔ fs.tree.kind x = some .dir := by
    rw [← hm4.ready.kind_dir hl4, hi4, ht4]
  rw [wp_bind, wp_get, wp_ite]
  refine ⟨fun _ => hE _ _, fun hpos => ?_⟩
  have hpos' : 1 ≤ fs.tree.nlink x := by
    rw [← hm4.ready.nlink hl4, hi4, ht4] at hpos
    omega
  have hm := hm2.trans hm4 (one_nonneg dp)
  have hsucc : (fs.tree.kind x = some .dir → ∀ j, 2 ≤ j → fs.tree.ent x j = none) → _ :=
    fun hempty => Ready.wp_unlinkEntry hm ht4 hdot hnn hmax hdl4 hl4 hd4 hi4 hk he hempty hty hpos' hE
      fun gs hg hr => hQ init n d k x gs hg hinit hres hk he hfirst hempty hr
  rw [wp_ite]
  refine ⟨fun htype => ?_, fun htype => ?_⟩
  · rw [wp_bind]
    refine hm4.ready.wp_isdirempty hl4 hE ?_ fun hempty => ?_
    · -- the directory has links: both references are given back
      simp only [Bool.false_eq_true, if_false, wp_bind, wp_pure]
      have hR : ∀ u, 0 ≤ (one dp + one ip) u := fun u => by
        have := one_nonneg dp u
        have := one_nonneg ip u
        simp only [Pi.add_apply]
        omega
      have hsafe := hm.safe (s := ip) h hR (by
          have := one_nonneg dp ip
          simp only [Pi.add_apply, one_self]
          omega) fun h0 => by
        rw [hi4, ht4] at h0
        omega
      refine hm4.ready.wp_iunlockput_safe hsafe hE fun g5 h5 ht5 => ?_
      have hm5 := hm4.trans h5 (one_nonneg ip)
      rw [add_neg_cancel] at hm5
      exact hgive g5 hm5 (ht5.trans ht4)
    · rw [hi4, ht4] at hempty
      exact hsucc fun _ => hempty
  · exact hsucc fun hdir => absurd (hty.mpr hdir) htype

end Links

end Xv6Audit.FileSys
