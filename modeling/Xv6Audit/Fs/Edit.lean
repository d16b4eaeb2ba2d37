import Xv6Audit.Fs.Names

/-! Changes to the tree, one at a time: a link count stored, an entry made, an inode taken
or freed. -/
namespace Xv6Audit.FileSys
open Function

open Prog Disk LinkTree
open Audit (strncpyBytes)

structure Moves (fs : Fs) (R : Fin NINODE → Int) (gs : Fs) : Prop where
  ready : Ready gs
  sb : gs.sb = fs.sb
  refs : ∀ t, (gs.itable t).ref = (fs.itable t).ref + R t
  keeps : Keeps fs gs

section Tree
variable {fs gs : Fs} {i : Nat}

theorem content_congr {data : Nat → Block} {D D' : Nat → Dinode} {k : Nat}
    (ht : (D' i).type = (D i).type) (ha : (D' i).addrs = (D i).addrs) :
    content data D' i k = content data D i k := by
  have hrefs : ∀ p, refs data D' (i, p) = refs data D (i, p) := by
    intro p
    unfold refs
    rw [ht]
    cases p <;> simp only [blockAt, ha]
  unfold content
  simp only [hrefs]

theorem entry_same {d k : Nat} (hdata : gs.data = fs.data)
    (ht : (gs.dinode d).type = (fs.dinode d).type) (hs : (gs.dinode d).size = (fs.dinode d).size)
    (ha : (gs.dinode d).addrs = (fs.dinode d).addrs) : gs.entry d k = fs.entry d k := by
  refine entry_congr ht ?_ fun _ j _ => ?_
  · unfold Fs.nents
    rw [hs]
  · rw [hdata]
    exact content_congr ht ha

theorem entry_not_dir {d k : Nat} (h : (fs.dinode d).type ≠ some .dir) : fs.entry d k = none :=
  if_neg fun hc => h hc.1

section
variable (hdata : gs.data = fs.data) (ho : ∀ j, j ≠ i → gs.dinode j = fs.dinode j)
include hdata ho

theorem sameBut_tree :
    fs.tree.SameBut i gs.tree := by
  refine ⟨fun j hj => ?_, fun j hj => ?_, fun j hj => funext fun k => ?_⟩
  · simp only [Fs.tree, ho j hj]
  · simp only [Fs.tree, ho j hj]
  · exact entry_same hdata (by rw [ho j hj]) (by rw [ho j hj]) (by rw [ho j hj])

theorem tree_setNlink {v : Int} (hn : (gs.dinode i).nlink = v)
    (ht : (gs.dinode i).type = (fs.dinode i).type) (hty : (fs.dinode i).type ≠ none)
    (hs : (gs.dinode i).size = (fs.dinode i).size) (ha : (gs.dinode i).addrs = (fs.dinode i).addrs) :
    gs.tree = fs.tree.setNlink i v := by
  refine (sameBut_tree hdata ho).ext (.setNlink (.refl fs.tree i) v) ?_ ?_ (funext fun k => ?_)
  · simp only [Fs.tree, Tree.setNlink, ht]
  · simp [Fs.tree, Tree.setNlink, ht, hty, hn]
  · exact entry_same hdata ht hs ha

theorem tree_reset {c : Option InodeType} (ht : (gs.dinode i).type = c)
    (hn : c ≠ none → (gs.dinode i).nlink = 0) (hs : c ≠ none → (gs.dinode i).size = 0) :
    gs.tree = fs.tree.reset i (c.map kindOf) := by
  refine (sameBut_tree hdata ho).ext (.reset fs.tree i _) ?_ ?_ (funext fun k => ?_)
  · simp [Fs.tree, Tree.reset, ht]
  · by_cases hc : c = none
    · simp [Fs.tree, Tree.reset, ht, hc]
    · simp [Fs.tree, Tree.reset, ht, hc, hn hc]
  · rw [Tree.reset_ent, if_pos rfl]
    by_cases hc : c = none
    · exact entry_not_dir (by rw [ht, hc]; simp)
    · refine if_neg fun hcond => ?_
      have := hcond.2.1
      unfold Fs.nents at this
      rw [hs hc] at this
      simp at this

theorem tree_leaf (ht : (gs.dinode i).type = (fs.dinode i).type)
    (hn : (gs.dinode i).nlink = (fs.dinode i).nlink) (hleaf : (fs.dinode i).type ≠ some .dir) :
    gs.tree = fs.tree := by
  refine (sameBut_tree hdata ho).ext (.refl fs.tree i) ?_ ?_ (funext fun k => ?_)
  · simp only [Fs.tree, ht]
  · simp only [Fs.tree, ht, hn]
  · exact (entry_not_dir (by rw [ht]; exact hleaf)).trans (entry_not_dir hleaf).symm

end

end Tree

section Edit
variable {base fs gs : Fs} {R : Fin NINODE → Int} {s : Fin NINODE} {E : String → Fs → Prop}

theorem Touch.moves (h : Touch base R fs) (hb : Ready base) (hR : ∀ t, 0 ≤ R t)
    (hv : ∀ t, 0 < R t → (fs.itable t).valid = true) : Moves base R fs := by
  refine ⟨⟨h.wf, fun t ht => ?_, fun t => ?_, fun i hk hn => ?_⟩, h.sb, h.refs,
    fun t ht => (h.kept t ht).1⟩
  · by_cases hbt : base.live t
    · exact (h.kept t hbt).2
    · refine hv t ?_
      have := h.refs t
      unfold Fs.live at *
      omega
  · have h1 := h.refs t
    have h2 := hb.nonneg t
    have h3 := hR t
    omega
  · rw [h.tree] at hk hn
    obtain ⟨t, ht, hi⟩ := hb.orphan i hk hn
    exact ⟨t, h.live hR ht, (h.kept t ht).1.trans hi⟩

theorem Touch.moves_zero (h : Touch base 0 fs) (hb : Ready base) : Moves base 0 fs :=
  h.moves hb (fun _ => Int.le_refl _) fun _ h0 => absurd h0 (by simp)

theorem Touch.moves_one (h : Touch base (one s) fs) (hb : Ready base)
    (hv : (fs.itable s).valid = true) : Moves base (one s) fs := by
  refine h.moves hb (one_nonneg s) fun t ht => ?_
  have hts : t = s := by
    by_contra hne
    rw [one_other hne] at ht
    omega
  exact hts ▸ hv

theorem Moves.refl (h : Ready fs) : Moves fs 0 fs :=
  ⟨h, rfl, fun _ => (Int.add_zero _).symm, fun _ _ => rfl⟩

theorem Moves.trans {R' : Fin NINODE → Int} {ks : Fs} (h : Moves fs R gs) (h' : Moves gs R' ks)
    (hR : ∀ t, 0 ≤ R t) : Moves fs (R + R') ks := by
  refine ⟨h'.ready, h'.sb.trans h.sb, fun t => ?_, fun t ht => ?_⟩
  · rw [h'.refs t, h.refs t]
    simp [Int.add_assoc]
  · have hgl : gs.live t := by
      have h1 := h.refs t
      have h2 := hR t
      unfold Fs.live at *
      omega
    exact (h'.keeps t hgl).trans (h.keeps t ht)

theorem Moves.safe (hm : Moves base R fs) (hb : Ready base) (hR : ∀ t, 0 ≤ R t) (hs : 0 < R s)
    (hn : fs.tree.nlink (fs.itable s).inum = 0 → base.tree.kind (fs.itable s).inum ≠ none ∧
      base.tree.nlink (fs.itable s).inum = 0) :
    ¬ ((fs.itable s).ref = 1 ∧ fs.tree.nlink (fs.itable s).inum = 0) := by
  rintro ⟨href, h0⟩
  obtain ⟨hk, h0'⟩ := hn h0
  obtain ⟨t, ht, hti⟩ := hb.orphan _ hk h0'
  have h1 := hm.refs t
  have h2 := hR t
  have htl : fs.live t := by
    unfold Fs.live at *
    omega
  have hl : fs.live s := by
    unfold Fs.live
    omega
  obtain rfl : t = s := hm.ready.wf.table.uniq t s htl hl ((hm.keeps t ht).trans hti)
  unfold Fs.live at ht
  omega

theorem SameTable.keeps (h : SameTable s fs gs) : Keeps fs gs := fun t _ => h.inum t

section
variable (h : Ready fs)
include h

theorem Ready.same (hw : WellFormed gs) (hs : SameTable s fs gs) (hk : gs.tree.kind = fs.tree.kind)
    (hn : gs.tree.nlink = fs.tree.nlink) : Moves fs 0 gs := by
  refine ⟨⟨hw, fun t ht => ?_, fun t => ?_, fun i hki hni => ?_⟩, hs.sb, fun t => ?_, hs.keeps⟩
  · rw [hs.valid]
    exact h.valid t ((hs.live t).mp ht)
  · rw [hs.ref]
    exact h.nonneg t
  · rw [hk] at hki
    rw [hn] at hni
    obtain ⟨t, ht, hi⟩ := h.orphan i hki hni
    exact ⟨t, (hs.live t).mpr ht, (hs.inum t).trans hi⟩
  · rw [hs.ref]
    simp

theorem Ready.cached (hl : fs.live s) :
    (fs.itable s).d = fs.dinode (fs.itable s).inum ∧ (fs.itable s).d.type ≠ none :=
  h.wf.table.cached s hl (h.valid s hl)

theorem Ready.kind_ne_none (hl : fs.live s) :
    fs.tree.kind (fs.itable s).inum ≠ none := by
  obtain ⟨hd, hty⟩ := h.cached hl
  rw [hd] at hty
  exact fun hk => hty (kind_none.mp hk)

theorem Ready.nlink (hl : fs.live s) :
    fs.tree.nlink (fs.itable s).inum = (fs.itable s).d.nlink := by
  obtain ⟨hd, hty⟩ := h.cached hl
  rw [tree_nlink (hd ▸ hty), ← hd]

theorem Ready.kind_dir (hl : fs.live s) :
    fs.tree.kind (fs.itable s).inum = some .dir ↔ (fs.itable s).d.type = some .dir := by
  rw [FileSys.kind_dir, (h.cached hl).1]

theorem Ready.moves (hw : WellFormed gs) (hsb : gs.sb = fs.sb)
    (hother : ∀ t, t ≠ s → gs.itable t = fs.itable t)
    (hinum : (gs.itable s).inum = (fs.itable s).inum)
    (href : (gs.itable s).ref = (fs.itable s).ref + R s) (hR : ∀ t, t ≠ s → R t = 0)
    (hpos : 0 ≤ (gs.itable s).ref) (hv : gs.live s → (gs.itable s).valid = true)
    (hself : gs.tree.kind (fs.itable s).inum ≠ none → gs.tree.nlink (fs.itable s).inum = 0 →
      gs.live s) (htree : fs.tree.SameBut (fs.itable s).inum gs.tree) : Moves fs R gs := by
  have hlive : ∀ t, t ≠ s → (gs.live t ↔ fs.live t) := fun t ht => by
    unfold Fs.live
    rw [hother t ht]
  refine ⟨⟨hw, fun t ht => ?_, fun t => ?_, fun i hk hn => ?_⟩, hsb, fun t => ?_, fun t _ => ?_⟩
  · by_cases hts : t = s
    · exact hts ▸ hv (hts ▸ ht)
    · rw [hother t hts]
      exact h.valid t ((hlive t hts).mp ht)
  · by_cases hts : t = s
    · exact hts ▸ hpos
    · rw [hother t hts]
      exact h.nonneg t
  · by_cases hi : i = (fs.itable s).inum
    · exact ⟨s, hself (hi ▸ hk) (hi ▸ hn), hinum.trans hi.symm⟩
    · rw [htree.kind i hi] at hk
      rw [htree.nlink i hi] at hn
      obtain ⟨t, ht, hti⟩ := h.orphan i hk hn
      have hts : t ≠ s := fun he => hi (he ▸ hti.symm)
      exact ⟨t, (hlive t hts).mpr ht, by rw [hother t hts]; exact hti⟩
  · by_cases hts : t = s
    · exact hts ▸ href
    · rw [hother t hts, hR t hts, Int.add_zero]
  · by_cases hts : t = s
    · exact hts ▸ hinum
    · rw [hother t hts]

end

variable {Q : Unit → Fs → Prop}

namespace Ready

section
variable (h : Ready fs)
include h

theorem wp_ilock (hE : ∀ e gs, E e gs)
    (hQ : ∀ gs, Moves fs 0 gs → gs.live s → gs.tree = fs.tree → Q () gs) : wp (ilock s) Q E fs :=
  (Touch.refl h).ilock (fun e gs _ => hE e gs) fun gs hg _ hl _ _ => hQ gs (hg.moves_zero h) hl hg.tree

theorem wp_iunlock (hE : ∀ e gs, E e gs)
    (hQ : ∀ gs, Moves fs 0 gs → gs.live s → gs.tree = fs.tree → Q () gs) : wp (iunlock s) Q E fs :=
  (Touch.refl h).iunlock (fun e gs _ => hE e gs) fun gs hg hl _ _ _ =>
    hQ gs (hg.moves_zero h) hl hg.tree

theorem wp_iput (hl : fs.live s) (hE : ∀ e gs, E e gs)
    (hkeep : ¬ ((fs.itable s).ref = 1 ∧ fs.tree.nlink (fs.itable s).inum = 0) →
      ∀ gs, Moves fs (-one s) gs → gs.tree = fs.tree → Q () gs)
    (hfree : (fs.itable s).ref = 1 → fs.tree.nlink (fs.itable s).inum = 0 →
      ∀ gs, Moves fs (-one s) gs → gs.tree = fs.tree.reset (fs.itable s).inum none → Q () gs) :
    wp (iput s) Q E fs := by
  have hout : ∀ t, t ≠ s → (-one s) t = 0 := fun t ht => by simp [one_other ht]
  have href : (fs.itable s).ref + (-one s) s = (fs.itable s).ref - 1 := by
    rw [Pi.neg_apply, one_self, Int.sub_eq_add_neg]
  refine FileSys.wp_iput h.wf hl (fun _ _ _ => hE _ _) (fun hn hw => ?_) ?_
  · obtain ⟨gs, hgs⟩ : ∃ gs, gs = fs.setInode s { fs.itable s with ref := (fs.itable s).ref - 1 } :=
      ⟨_, rfl⟩
    rw [← hgs] at hw ⊢
    have hself : gs.itable s = { fs.itable s with ref := (fs.itable s).ref - 1 } := by
      simp [hgs, Fs.setInode]
    have htree : gs.tree = fs.tree := by
      rw [hgs]
      rfl
    have hcond : ¬ ((fs.itable s).ref = 1 ∧ fs.tree.nlink (fs.itable s).inum = 0) :=
      fun hc => hn ⟨hc.1, h.valid s hl, (h.nlink hl).symm.trans hc.2⟩
    unfold Fs.live at hl
    refine hkeep hcond gs (h.moves hw (by rw [hgs]; rfl) (fun t ht => by simp [hgs, Fs.setInode, ht])
      (by rw [hself]) (by rw [hself, href]) hout ?_ (fun _ => ?_) (fun _ h0 => ?_)
      (htree ▸ .refl ..)) htree
    · rw [hself]
      change 0 ≤ (fs.itable s).ref - 1
      omega
    · rw [hself]
      exact h.valid s hl
    · -- an inode whose last reference this was has links, or it would have been freed
      have hne : (fs.itable s).ref ≠ 1 := fun h1 => hcond ⟨h1, htree ▸ h0⟩
      unfold Fs.live
      rw [hself]
      change 0 < (fs.itable s).ref - 1
      omega
  · intro href1 _ hn gs hw hsb hdata hother hzero _ hinum hty hdin
    refine hfree href1 ((h.nlink hl).trans hn) gs (h.moves hw hsb hother hinum ?_ hout
      (Int.le_of_eq hzero.symm) (fun hlt => ?_) (fun hk => ?_) (sameBut_tree hdata hdin))
      (tree_reset (c := none) hdata hdin hty (by simp) (by simp))
    · rw [href, hzero, href1]
      rfl
    · exact absurd hlt (by rw [Fs.live, hzero]; decide)
    · exact absurd (kind_none.mpr hty) hk

theorem wp_iunlockput (hE : ∀ e gs, E e gs)
    (hkeep : ¬ ((fs.itable s).ref = 1 ∧ fs.tree.nlink (fs.itable s).inum = 0) →
      ∀ gs, Moves fs (-one s) gs → gs.tree = fs.tree → Q () gs)
    (hfree : (fs.itable s).ref = 1 → fs.tree.nlink (fs.itable s).inum = 0 →
      ∀ gs, Moves fs (-one s) gs → gs.tree = fs.tree.reset (fs.itable s).inum none → Q () gs) :
    wp (iunlockput s) Q E fs := by
  simp only [FileSys.iunlockput, wp_bind]
  refine h.wp_iunlock hE fun gs hg hl htree => ?_
  have hmoves : ∀ ks, Moves gs (-one s) ks → Moves fs (-one s) ks := by
    intro ks hk
    have := hg.trans hk fun _ => Int.le_refl 0
    rwa [zero_add] at this
  have href : (gs.itable s).ref = (fs.itable s).ref := by simpa using hg.refs s
  have hfl : fs.live s := by
    unfold Fs.live at *
    omega
  have hi := hg.keeps s hfl
  refine hg.ready.wp_iput hl hE (fun hc ks hk ht => ?_) fun h1 h0 ks hk ht => ?_
  · rw [hi, htree, href] at hc
    exact hkeep hc ks (hmoves ks hk) (ht.trans htree)
  · rw [hi, htree] at h0 ht
    exact hfree (by omega) h0 ks (hmoves ks hk) ht

theorem wp_store (hl : fs.live s) (d : Dinode) (ht : d.type = (fs.itable s).d.type)
    (hs : d.size = (fs.itable s).d.size) (ha : d.addrs = (fs.itable s).d.addrs)
    (hQ : ∀ gs, Moves fs 0 gs → gs.tree = fs.tree.setNlink (fs.itable s).inum d.nlink → Q () gs) :
    wp (iupdate s) Q E (fs.setD s d) := by
  obtain ⟨hd, hty⟩ := h.cached hl
  refine h.wf.wp_store hl (h.valid s hl) d ht hs ha fun gs hg hsame hdata hself hother => ?_
  refine hQ gs (h.moves hg hsame.sb hsame.others (hsame.inum s) ?_ (fun _ _ => rfl) ?_ (fun _ => ?_)
    (fun _ _ => (hsame.live s).mpr hl) (sameBut_tree hdata hother)) ?_
  · rw [hsame.ref]
    exact (Int.add_zero _).symm
  · rw [hsame.ref]
    exact h.nonneg s
  · rw [hsame.valid]
    exact h.valid s hl
  · refine tree_setNlink hdata hother (by rw [hself]) ?_ (hd ▸ hty) ?_ ?_
    · rw [hself, ht, hd]
    · rw [hself, hs, hd]
    · rw [hself, ha, hd]

theorem wp_setNlink (hl : fs.live s) (f : Int → Int)
    (hQ : ∀ gs, Moves fs 0 gs → gs.tree = fs.tree.setNlink (fs.itable s).inum
      (short (f (fs.tree.nlink (fs.itable s).inum))) → Q () gs) : wp (setNlink s f) Q E fs := by
  simp only [setNlink, wp_bind, wp_modify]
  refine h.wp_store hl { (fs.itable s).d with nlink := short (f (fs.itable s).d.nlink) } rfl rfl rfl
    fun gs hg ht => hQ gs hg ?_
  rw [ht, h.nlink hl]

theorem wp_iput_safe (hl : fs.live s)
    (hsafe : ¬ ((fs.itable s).ref = 1 ∧ fs.tree.nlink (fs.itable s).inum = 0)) (hE : ∀ e gs, E e gs)
    (hQ : ∀ gs, Moves fs (-one s) gs → gs.tree = fs.tree → Q () gs) : wp (iput s) Q E fs :=
  h.wp_iput hl hE (fun _ => hQ) fun h1 h0 => absurd ⟨h1, h0⟩ hsafe

theorem wp_iunlockput_safe
    (hsafe : ¬ ((fs.itable s).ref = 1 ∧ fs.tree.nlink (fs.itable s).inum = 0)) (hE : ∀ e gs, E e gs)
    (hQ : ∀ gs, Moves fs (-one s) gs → gs.tree = fs.tree → Q () gs) : wp (iunlockput s) Q E fs :=
  h.wp_iunlockput hE (fun _ => hQ) fun h1 h0 => absurd ⟨h1, h0⟩ hsafe

end

end Ready

/-! Directory entries. -/

theorem strncpyBytes_length (l : List UInt8) (n : Nat) : (strncpyBytes l n).length = n := by
  induction n generalizing l with
  | zero => cases l <;> rfl
  | succ n ih => cases l <;> simp [strncpyBytes, ih]

theorem strncpyBytes_cut (l : List UInt8) (n : Nat) :
    ((strncpyBytes l n).take n).takeWhile (· != 0) = (l.take n).takeWhile (· != 0) := by
  induction n generalizing l with
  | zero => simp
  | succ n ih =>
    cases l with
    | nil => simp [strncpyBytes]
    | cons c l =>
      by_cases hc : c = 0
      · simp [strncpyBytes, hc]
      · simp [strncpyBytes, hc, ih]

theorem cname_strncpy (name : Name) : cname (strncpyBytes name DIRSIZ) = cname name :=
  strncpyBytes_cut name DIRSIZ

namespace Ready

theorem wp_emptyDirent (h : Ready fs) (hl : fs.live s)
    (hdir : fs.tree.kind (fs.itable s).inum = some .dir) (hE : ∀ e gs, E e gs)
    {Q : Nat → Fs → Prop}
    (hQ : ∀ k, (∀ j, j < k → fs.entry (fs.itable s).inum j ≠ none) →
      fs.entry (fs.itable s).inum k = none →
      (k < fs.nents (fs.itable s).inum ∨ (fs.itable s).d.size = DESIZE * k) →
      Q (DESIZE * k) fs) : wp (emptyDirent s) Q E fs := by
  have hd := FileSys.kind_dir.mp hdir
  simp only [emptyDirent, wp_bind, wp_get]
  have hscan := wp_scan (E := E) (Q := fun found t =>
      Q (found.getD (DESIZE * (((fs.itable s).d.size + DESIZE - 1) / DESIZE))) t) h.wf hl
    (h.valid s hl) 0 (fun _ => hE "dirlink read" fs)
    (c := fun off de => pure (if de.inum = 0 then some off else none))
    (fun k => fs.entry (fs.itable s).inum k ≠ none) ?_ ?_
  · exact hscan
  · intro hmiss hsize
    have hsz := hsize (Nat.zero_le _)
    have hceil : ((fs.itable s).d.size + DESIZE - 1) / DESIZE = fs.nents (fs.itable s).inum := by
      unfold DESIZE at *
      omega
    rw [Option.getD_none, hceil]
    refine hQ _ (fun j hj => hmiss j (Nat.zero_le j) hj) (if_neg fun hc => ?_) (.inr hsz)
    exact absurd hc.2.1 (Nat.lt_irrefl _)
  · intro k _ hk hprev
    have hent := entry_of_dirent hd hk
    rw [wp_pure]
    by_cases h0 : (fs.dirent (fs.itable s).inum k).inum = 0
    · rw [if_pos h0]
      rw [if_pos h0] at hent
      exact hQ k (fun j hj => hprev j (Nat.zero_le j) hj) hent (.inl hk)
    · rw [if_neg h0]
      rw [if_neg h0] at hent
      exact ⟨rfl, by rw [hent]; simp⟩

theorem wp_dirlink (h : Ready fs) (hl : fs.live s) (hE : ∀ e gs, E e gs) (name : Name) {x : Nat}
    (hx : x < 65536) (h0 : x ≠ 0) {Q : Bool → Fs → Prop}
    (hfail : ∀ gs, Moves fs 0 gs → gs.tree = fs.tree → Q false gs)
    (hQ : ∀ k gs, Moves fs 0 gs → fs.tree.kind (fs.itable s).inum = some .dir →
      (∀ j, j < k → fs.tree.ent (fs.itable s).inum j ≠ none) →
      fs.tree.ent (fs.itable s).inum k = none →
      (∀ j y, fs.tree.ent (fs.itable s).inum j ≠ some (y, cname name)) →
      gs.tree = fs.tree.setEnt (fs.itable s).inum k (some (x, cname name)) → Q true gs) :
    wp (dirlink s name x) Q E fs := by
  have hR : ∀ t : Fin NINODE, (0 : Int) ≤ (0 : Fin NINODE → Int) t := fun _ => Int.le_refl 0
  simp only [dirlink, wp_bind]
  refine (Touch.refl h).dirlookup hR hl (h.valid s hl) (fun e gs _ => hE e gs) name ?_ ?_
  · intro hdir hnew
    simp only [wp_bind]
    refine h.wp_emptyDirent hl hdir hE fun k hfirst hfree hk => ?_
    refine wp_writeDirent h.wf hl (h.valid s hl) ((h.kind_dir hl).mp hdir) hx
      (strncpyBytes_length _ _) hk ?_ ?_
    · intro gs hg hs ht
      exact hfail gs (h.same hg hs (by rw [ht]) (by rw [ht])) ht
    · intro gs hg hs ht
      simp only [h0, if_false, cname_strncpy] at ht
      exact hQ k gs (h.same hg hs (by rw [ht]; rfl) (by rw [ht]; rfl)) hdir hfirst hfree hnew ht
  · intro k y t gs _ _ hg _ _ _
    rw [zero_add] at hg
    rw [wp_bind]
    refine hg.iput (one_nonneg t) (by simp) h (fun e gs _ => hE e gs) fun ks hk _ => ?_
    rw [sub_self] at hk
    exact hfail ks (hk.moves_zero h) hk.tree

theorem wp_isdirempty (h : Ready fs) (hl : fs.live s) (hE : ∀ e gs, E e gs)
    {Q : Bool → Fs → Prop} (hfalse : Q false fs)
    (htrue : (∀ k, 2 ≤ k → fs.tree.ent (fs.itable s).inum k = none) → Q true fs) :
    wp (isdirempty s) Q E fs := by
  simp only [isdirempty, wp_bind, wp_get]
  have hscan := wp_scan (E := E) (Q := fun (found : Option Unit) t => Q (found == none) t) h.wf hl
    (h.valid s hl) 2 (fun _ => hE "isdirempty: readi" fs)
    (c := fun _ de => pure (if de.inum ≠ 0 then some () else none))
    (fun k => (fs.dirent (fs.itable s).inum k).inum = 0) ?_ ?_
  · exact hscan
  · intro hmiss _
    refine htrue fun k hk => if_neg fun hc => ?_
    exact hc.2.2 (hmiss k hk hc.2.1)
  · intro k _ _ _
    rw [wp_pure]
    by_cases h0 : (fs.dirent (fs.itable s).inum k).inum = 0
    · rw [if_neg (fun hne => hne h0)]
      exact ⟨rfl, h0⟩
    · rw [if_pos h0]
      exact hfalse

end Ready

/-! New inodes. -/

structure Fresh (fs : Fs) (type : InodeType) (x : Nat) (s : Fin NINODE) (gs : Fs) : Prop where
  wf : WellFormed gs
  sb : gs.sb = fs.sb
  others : ∀ t, t ≠ s → gs.itable t = fs.itable t
  inum : (gs.itable s).inum = x
  ref : (gs.itable s).ref = 1
  idle : (fs.itable s).ref = 0
  dinode : gs.dinode = update fs.dinode x (Dinode.fresh type)
  data : gs.data = fs.data

theorem Ready.wp_ialloc (h : Ready fs) (type : InodeType) (hE : ∀ e gs, E e gs)
    {Q : Option (Fin NINODE) → Fs → Prop} (hnone : Q none fs)
    (hsome : ∀ x s gs, fs.freeInum = some x → Fresh fs type x s gs → Q (some s) gs) :
    wp (ialloc type) Q E fs := by
  simp only [FileSys.ialloc, wp_bind, wp_get]
  cases hf : fs.freeInum with
  | none => exact hnone
  | some x =>
    simp only [wp_bind, wp_set]
    have hfree := (freeInum_spec hf).2.2
    have hg := (h.wf.ialloc type hfree).logs (fs.iblock x)
    refine wp_iget hg x (fun _ => hE _ _) fun s ip hw hi href _ hlive _ => ?_
    have hidle : (fs.itable s).ref = 0 := by
      have hdead : ¬ fs.live s := by
        intro hl
        obtain ⟨hd, hty⟩ := h.cached hl
        have hx : (fs.itable s).inum = x := by
          rw [hlive hl] at hi
          exact hi
        rw [hd, hx] at hty
        exact hty hfree
      have := h.nonneg s
      unfold Fs.live at hdead
      omega
    have hself : (((fs.setDinode x (Dinode.fresh type)).logs (fs.iblock x)).setInode s ip).itable s
        = ip := by simp [Fs.setInode]
    refine hsome x s _ hf ⟨hw, rfl, fun t ht => update_of_ne ht _ _, ?_, ?_, hidle, rfl,
      rfl⟩
    · rw [hself]
      exact hi
    · rw [hself, href]
      change (fs.itable s).ref + 1 = 1
      omega

theorem Fresh.wp_ilock {type : InodeType} {x : Nat} (hf : Fresh fs type x s gs) (h : Ready fs)
    (hE : ∀ e gs, E e gs)
    (hQ : ∀ ks, Moves fs (one s) ks → ks.live s → (ks.itable s).inum = x →
      ks.tree = fs.tree.reset x (some (kindOf type)) → Q () ks) : wp (ilock s) Q E gs := by
  refine FileSys.wp_ilock hf.wf (fun e gs _ => hE e gs) fun ip hw _ hip _ => ?_
  obtain ⟨ks, hks⟩ : ∃ ks, ks = gs.setInode s ip := ⟨_, rfl⟩
  rw [← hks] at hw ⊢
  have hself : ks.itable s = ip := by simp [hks, Fs.setInode]
  have hother : ∀ t, t ≠ s → ks.itable t = fs.itable t := by
    intro t ht
    rw [← hf.others t ht, hks]
    exact update_of_ne ht _ _
  have hdin : ks.dinode = update fs.dinode x (Dinode.fresh type) := by
    rw [hks]
    exact hf.dinode
  have hinum : (ks.itable s).inum = x := by
    rw [hself, hip]
    exact hf.inum
  have href : (ks.itable s).ref = 1 := by
    rw [hself, hip]
    exact hf.ref
  have hls : ks.live s := by
    unfold Fs.live
    omega
  have htree : ks.tree = fs.tree.reset x (some (kindOf type)) := by
    refine tree_reset (c := some type) (by rw [hks]; exact hf.data) (fun j hj => ?_) ?_ ?_ ?_
    · rw [hdin]
      exact update_of_ne hj _ _
    · rw [hdin]
      simp [Dinode.fresh]
    · rw [hdin]
      simp [Dinode.fresh]
    · rw [hdin]
      simp [Dinode.fresh]
  have hdead : ¬ fs.live s := by
    have := hf.idle
    unfold Fs.live
    omega
  refine hQ ks ⟨⟨hw, fun t ht => ?_, fun t => ?_, fun i hk hn => ?_⟩, ?_, fun t => ?_, fun t ht => ?_⟩
    hls hinum htree
  · by_cases hts : t = s
    · subst t
      rw [hself, hip]
    · unfold Fs.live at ht
      rw [hother t hts] at ht ⊢
      exact h.valid t ht
  · by_cases hts : t = s
    · subst t
      omega
    · rw [hother t hts]
      exact h.nonneg t
  · by_cases hi : i = x
    · exact ⟨s, hls, hinum.trans hi.symm⟩
    · rw [htree] at hk hn
      simp only [Tree.reset, update_of_ne hi] at hk hn
      obtain ⟨t, ht, hti⟩ := h.orphan i hk hn
      have hts : t ≠ s := by
        rintro rfl
        exact hdead ht
      refine ⟨t, ?_, by rw [hother t hts]; exact hti⟩
      unfold Fs.live
      rw [hother t hts]
      exact ht
  · rw [hks]
    exact hf.sb
  · by_cases hts : t = s
    · subst t
      rw [href, hf.idle, one_self]
      rfl
    · rw [hother t hts, one_other hts, Int.add_zero]
  · have hts : t ≠ s := by
      rintro rfl
      exact hdead ht
    rw [hother t hts]

end Edit

end Xv6Audit.FileSys
