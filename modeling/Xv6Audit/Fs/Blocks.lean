import Xv6Audit.Fs.Content
import Xv6Audit.Fs.Trunc

/-! The inode table keeps the allocation exact, and so does every run of calls. -/
namespace Xv6Audit.FileSys
open Function

open Prog Disk

attribute [local irreducible] FileSys.itrunc

section Table
variable {s : Fin NINODE} {fs : Fs} {E : String → Fs → Prop}

theorem WellFormed.setInode (h : WellFormed fs) (ip : Inode)
    (huniq : 0 < ip.ref → ∀ t, t ≠ s → fs.live t → (fs.itable t).inum ≠ ip.inum)
    (hcached : 0 < ip.ref → ip.valid = true → ip.d = fs.dinode ip.inum ∧ ip.d.type ≠ none) :
    WellFormed (fs.setInode s ip) := by
  have hself : (fs.setInode s ip).itable s = ip := by simp [Fs.setInode]
  have hother : ∀ t, t ≠ s → (fs.setInode s ip).itable t = fs.itable t :=
    fun t ht => update_of_ne ht _ _
  have hlive : ∀ t, t ≠ s → (fs.setInode s ip).live t → fs.live t := by
    intro t ht hl
    unfold Fs.live at hl
    rwa [hother t ht] at hl
  have hlives : (fs.setInode s ip).live s → 0 < ip.ref := by
    intro hl
    unfold Fs.live at hl
    rwa [hself] at hl
  refine ⟨h.sb, h.exact, h.full, ?_, ?_⟩
  · intro t u ht hu he
    by_cases hts : t = s
    · by_cases hus : u = s
      · rw [hts, hus]
      · subst t
        rw [hself, hother u hus] at he
        exact absurd he.symm (huniq (hlives ht) u hus (hlive u hus hu))
    · by_cases hus : u = s
      · subst u
        rw [hself, hother t hts] at he
        exact absurd he (huniq (hlives hu) t hts (hlive t hts ht))
      · rw [hother t hts, hother u hus] at he
        exact h.table.uniq t u (hlive t hts ht) (hlive u hus hu) he
  · intro t ht hv
    by_cases hts : t = s
    · subst t
      rw [hself] at hv ⊢
      exact hcached (hlives ht) hv
    · rw [hother t hts] at hv ⊢
      exact h.table.cached t (hlive t hts ht) hv

theorem WellFormed.retouch (h : WellFormed fs) (hl : fs.live s) (ref : Int) (locked : Bool) :
    WellFormed (fs.setInode s { fs.itable s with ref := ref, locked := locked }) :=
  h.setInode _ (fun _ t hts ht he => hts (h.table.uniq t s ht hl he))
    fun _ hv => h.table.cached s hl hv

theorem WellFormed.logs (h : WellFormed fs) (b : Nat) : WellFormed (fs.logs b) :=
  ⟨h.sb, h.exact, h.full, h.table.uniq, h.table.cached⟩

variable {inum : Nat} {Q : Unit → Fs → Prop}

theorem find_spec (h : fs.find inum = some s) :
    fs.live s ∧ (fs.itable s).inum = inum := by
  simpa [Fs.live] using List.find?_some h

theorem find_none (h : fs.find inum = none) (t : Fin NINODE) (ht : fs.live t) :
    (fs.itable t).inum ≠ inum := by
  have hn := List.find?_eq_none.mp h t (List.mem_finRange t)
  unfold Fs.live at ht
  simp only [decide_eq_true_eq, not_and] at hn
  exact hn ht

theorem wp_iget (h : WellFormed fs) (inum : Nat) {Q : Fin NINODE → Fs → Prop}
    (hpanic : fs.emptySlot = none → E "iget: no inodes" fs)
    (hQ : ∀ s ip, WellFormed (fs.setInode s ip) → ip.inum = inum →
      ip.ref = (fs.itable s).ref + 1 → 0 < ip.ref →
      (fs.live s → ip = { fs.itable s with ref := (fs.itable s).ref + 1 }) →
      (¬ fs.live s → ip.valid = false) → Q s (fs.setInode s ip)) : wp (iget inum) Q E fs := by
  simp only [iget, wp_bind, wp_get]
  cases hf : fs.find inum with
  | some s =>
    obtain ⟨hl, hi⟩ := find_spec hf
    have hpos : 0 < (fs.itable s).ref + 1 := by
      unfold Fs.live at hl
      omega
    exact hQ s _ (h.retouch hl _ _) hi rfl hpos (fun _ => rfl) fun hn => absurd hl hn
  | none =>
    cases he : fs.emptySlot with
    | none => exact hpanic he
    | some s =>
      have h0 : (fs.itable s).ref = 0 := by simpa using List.find?_some he
      have hdead : ¬ fs.live s := by
        unfold Fs.live
        omega
      refine hQ s _ ?_ rfl (by rw [h0]; rfl) Int.one_pos (fun hl => absurd hl hdead) fun _ => rfl
      exact h.setInode _ (fun _ t _ ht => find_none hf t ht) fun _ hv => by simp at hv

theorem refs_update_empty {data : Nat → Block} {D : Nat → Dinode} {i : Nat} {d : Dinode}
    (h0 : (D i).type = none ∨ (D i).addrs = fun _ => 0)
    (h1 : d.type = none ∨ d.addrs = fun _ => 0) :
    refs data (update D i d) = refs data D := by
  have hempty : ∀ e : Dinode, e.type = none ∨ (e.addrs = fun _ => 0) → ∀ p,
      (if e.type = none then 0 else blockAt data e p) = 0 := by
    rintro e he p
    by_cases ht : e.type = none
    · rw [if_pos ht]
    · have ha := he.resolve_left ht
      rw [if_neg ht]
      cases p <;> simp [blockAt, ha]
  funext q
  obtain ⟨j, p⟩ := q
  by_cases hj : j = i
  · subst j
    simp only [refs, update_self]
    rw [hempty d h1, hempty (D i) h0]
  · exact refs_congr p (update_of_ne hj _ _) fun _ => rfl

section
variable (h : WellFormed fs)
include h

theorem WellFormed.ialloc (type : InodeType) (hfree : (fs.dinode inum).type = none) :
    WellFormed (fs.setDinode inum (Dinode.fresh type)) := by
  have hrefs : refs fs.data (fs.setDinode inum (Dinode.fresh type)).dinode =
      refs fs.data fs.dinode := refs_update_empty (.inl hfree) (.inr rfl)
  refine ⟨h.sb, ?_, ?_, h.table.uniq, ?_⟩
  · rw [show (fs.setDinode inum (Dinode.fresh type)).data = fs.data from rfl, hrefs]
    exact h.exact
  · intro i hty
    unfold Covers
    rw [show (fs.setDinode inum (Dinode.fresh type)).data = fs.data from rfl, hrefs]
    by_cases hi : i = inum
    · subst i
      intro k hk
      simp [Fs.setDinode, Dinode.fresh] at hk
    · simp only [Fs.setDinode, update_of_ne hi] at hty ⊢
      exact h.full i hty
  · intro t hl hv
    obtain ⟨hd, hty⟩ := h.table.cached t hl hv
    have hne : (fs.itable t).inum ≠ inum := by
      rintro rfl
      rw [hd] at hty
      exact hty hfree
    exact ⟨hd.trans (update_of_ne hne _ _).symm, hty⟩

theorem WellFormed.ifree (hl : fs.live s)
    (haddrs : (fs.dinode (fs.itable s).inum).addrs = fun _ => 0) (d : Dinode) (ip : Inode)
    (hd : d.type = none) (hip : ip.ref ≤ 0) :
    WellFormed ((fs.setDinode (fs.itable s).inum d).setInode s ip) := by
  obtain ⟨i, hi⟩ : ∃ i, i = (fs.itable s).inum := ⟨_, rfl⟩
  rw [← hi] at haddrs ⊢
  have hrefs : refs fs.data (update fs.dinode i d) = refs fs.data fs.dinode :=
    refs_update_empty (.inr haddrs) (.inl hd)
  have hother : ∀ t, t ≠ s → update fs.itable s ip t = fs.itable t :=
    fun t ht => update_of_ne ht _ _
  have hdead : ∀ t, ((fs.setDinode i d).setInode s ip).live t → t ≠ s ∧ fs.live t := by
    intro t ht
    unfold Fs.live Fs.setInode Fs.setDinode at ht
    by_cases hts : t = s
    · subst t
      simp only [update_self] at ht
      omega
    · simp only [hother t hts] at ht
      exact ⟨hts, ht⟩
  refine ⟨h.sb, ?_, ?_, ?_, ?_⟩
  · exact hrefs ▸ h.exact
  · intro j hty
    have hty' : (update fs.dinode i d j).type ≠ none := hty
    have hji : j ≠ i := by
      rintro rfl
      rw [update_self] at hty'
      exact hty' hd
    change Covers fs.data (update fs.dinode i d) j (update fs.dinode i d j).size
    unfold Covers
    rw [update_of_ne hji] at hty' ⊢
    rw [hrefs]
    exact h.full j hty'
  · intro t u ht hu he
    obtain ⟨hts, htl⟩ := hdead t ht
    obtain ⟨hus, hul⟩ := hdead u hu
    simp only [Fs.setInode, Fs.setDinode, hother t hts, hother u hus] at he
    exact h.table.uniq t u htl hul he
  · intro t ht hv
    obtain ⟨hts, htl⟩ := hdead t ht
    simp only [Fs.setInode, Fs.setDinode, hother t hts] at hv ⊢
    obtain ⟨hd', hty⟩ := h.table.cached t htl hv
    have hne : (fs.itable t).inum ≠ i := by
      rw [hi]
      exact fun he => hts (h.table.uniq t s htl hl he)
    rw [update_of_ne hne]
    exact ⟨hd', hty⟩

theorem wp_ilock (hpanic : ∀ e gs, e ≠ "freeing free block" ∧
      (e = "ilock: no type" → (fs.dinode (fs.itable s).inum).type = none) → E e gs)
    (hQ : ∀ ip, WellFormed (fs.setInode s ip) → fs.live s →
      ip = { fs.itable s with
        locked := true, valid := true, d := fs.dinode (fs.itable s).inum } →
      ip.d.type ≠ none → Q () (fs.setInode s ip)) : wp (ilock s) Q E fs := by
  simp only [ilock, acquireSleep, wp_bind, wp_get, wp_ite, wp_throw, wp_set, wp_pure]
  have hother : ∀ e gs, e ≠ "freeing free block" ∧ e ≠ "ilock: no type" → E e gs :=
    fun e gs he => hpanic e gs ⟨he.1, (absurd · he.2)⟩
  refine ⟨fun _ => hother _ _ (by decide), fun hge => ⟨fun _ => hother _ _ (by decide), fun _ => ?_⟩⟩
  have hl : fs.live s := by
    unfold Fs.live
    omega
  have hself : (fs.setInode s { fs.itable s with locked := true }).itable s =
      { fs.itable s with locked := true } := by simp [Fs.setInode]
  have htwice : ∀ ip, (fs.setInode s { fs.itable s with locked := true }).setInode s ip =
      fs.setInode s ip := by
    intro ip
    simp [Fs.setInode]
  have huniq : ∀ t, t ≠ s → fs.live t → (fs.itable t).inum ≠ (fs.itable s).inum :=
    fun t ht htl he => ht (h.table.uniq t s htl hl he)
  rw [hself]
  refine ⟨fun hv => ?_, fun _ => ⟨fun hno => hpanic _ _ ⟨by decide, fun _ => hno⟩, fun hty => ?_⟩⟩
  · obtain ⟨hd, hty⟩ := h.table.cached s hl hv
    refine hQ _ (h.setInode _ (fun _ => huniq) fun _ _ => ⟨hd, hty⟩) hl ?_ hty
    rw [← hd, ← hv]
  · rw [htwice]
    exact hQ _ (h.setInode _ (fun _ => huniq) fun _ _ => ⟨rfl, hty⟩) hl rfl hty

theorem wp_iunlock (hpanic : (fs.itable s).locked = false ∨ (fs.itable s).ref < 1 → E "iunlock" fs)
    (hQ : fs.live s → WellFormed (fs.setInode s { fs.itable s with locked := false }) →
      Q () (fs.setInode s { fs.itable s with locked := false })) : wp (iunlock s) Q E fs := by
  simp only [iunlock, releaseSleep, wp_bind, wp_get, wp_ite, wp_throw, wp_modify]
  refine ⟨hpanic, fun hok => ?_⟩
  have hl : fs.live s := by
    unfold Fs.live
    omega
  exact hQ hl (h.retouch hl _ _)

theorem wp_iput (hl : fs.live s)
    (hpanic : (fs.itable s).ref = 1 → (fs.itable s).valid = true → (fs.itable s).locked = true →
      E "asleep" fs)
    (hkeep : ¬ ((fs.itable s).ref = 1 ∧ (fs.itable s).valid = true ∧ (fs.itable s).d.nlink = 0) →
      WellFormed (fs.setInode s { fs.itable s with ref := (fs.itable s).ref - 1 }) →
      Q () (fs.setInode s { fs.itable s with ref := (fs.itable s).ref - 1 }))
    (hfree : (fs.itable s).ref = 1 → (fs.itable s).valid = true → (fs.itable s).d.nlink = 0 →
      ∀ gs, WellFormed gs → gs.sb = fs.sb → gs.data = fs.data →
        (∀ t, t ≠ s → gs.itable t = fs.itable t) → (gs.itable s).ref = 0 →
        (gs.itable s).locked = false → (gs.itable s).inum = (fs.itable s).inum →
        (gs.dinode (fs.itable s).inum).type = none →
        (∀ i, i ≠ (fs.itable s).inum → gs.dinode i = fs.dinode i) → Q () gs) :
    wp (iput s) Q E fs := by
  simp only [iput, wp_bind, wp_get, wp_ite, wp_modify]
  refine ⟨fun hc => ?_, fun hc => hkeep hc (h.retouch hl _ _)⟩
  obtain ⟨href, hv, hn⟩ := hc
  simp only [acquireSleep, wp_bind, wp_get, wp_ite, wp_throw, wp_set]
  refine ⟨hpanic href hv, fun _ => ?_⟩
  obtain ⟨gs, hgs⟩ : ∃ gs, gs = fs.setInode s { fs.itable s with locked := true } := ⟨_, rfl⟩
  have hent : gs.itable s = { fs.itable s with locked := true } := by
    rw [hgs]
    simp [Fs.setInode]
  have hg : WellFormed gs := hgs ▸ h.retouch hl _ _
  have hgl : gs.live s := by
    unfold Fs.live
    rw [hent]
    exact hl
  rw [← hgs]
  refine wp_itrunc hg hgl (by rw [hent]; exact hv) ?_
  intro ks hk hsame hd hdata hdin
  have hkent : ks.itable s = { gs.itable s with d := (ks.itable s).d } := hsame.entry
  have hkl : ks.live s := by
    unfold Fs.live
    rw [hkent]
    exact hgl
  have hkv : (ks.itable s).valid = true := by
    rw [hkent, hent]
    exact hv
  have hki : (ks.itable s).inum = (fs.itable s).inum := by rw [hkent, hent]
  have haddrs : (ks.dinode (ks.itable s).inum).addrs = fun _ => 0 := by
    rw [← (hk.table.cached s hkl hkv).1, hd]
  -- the rest of `iput` writes the freed inode and gives up the entry
  have hkref : (ks.itable s).ref = 1 := by
    rw [hkent, hent]
    exact href
  have hdone := (hk.ifree hkl haddrs { (ks.itable s).d with type := none }
    { ks.itable s with
      d := { (ks.itable s).d with type := none }
      valid := false
      locked := false
      ref := (ks.itable s).ref - 1 } rfl (by simp [hkref])).logs (ks.iblock (ks.itable s).inum)
  have hQ := hfree href hv hn _ hdone (by rw [hgs] at hsame; exact hsame.sb)
    (by rw [hgs] at hdata; exact hdata) ?_ ?_ ?_ ?_ ?_ ?_
  · simpa [releaseSleep, iupdate, Fs.setD, Fs.setInode, Fs.setDinode, Fs.logs, Fs.iblock] using hQ
  · intro t ht
    have hgt : gs.itable t = fs.itable t := by
      rw [hgs]
      exact update_of_ne ht _ _
    exact (update_of_ne ht _ _).trans ((hsame.others t ht).trans hgt)
  · simp [Fs.logs, Fs.setInode, hkref]
  · simp [Fs.logs, Fs.setInode]
  · simp [Fs.logs, Fs.setInode, hki]
  · simp [Fs.logs, Fs.setInode, Fs.setDinode, hki]
  · intro i hi
    have hgi : (gs.itable s).inum = (fs.itable s).inum := by rw [hent]
    have hne : i ≠ (ks.itable s).inum := by rw [hki]; exact hi
    have hdi := hdin i (by rw [hgi]; exact hi)
    rw [hgs] at hdi
    exact (update_of_ne hne _ _).trans hdi

end

theorem freeInum_spec (h : fs.freeInum = some inum) :
    0 < inum ∧ inum < fs.sb.ninodes ∧ (fs.dinode inum).type = none := by
  have hmem := List.mem_of_find?_eq_some h
  have hp := List.find?_some h
  simp only [decide_eq_true_eq] at hp
  exact ⟨hp.1, List.mem_range.mp hmem, hp.2⟩

end Table

/-! Runs of calls, by callers that follow the comments in `fs.c`. -/

inductive FsCall where
  | writei (s : Fin NINODE) (src : Nat → Option UInt8) (off n : UInt32)
  | readi (s : Fin NINODE) (ok : Nat → Bool) (off n : UInt32)
  | itrunc (s : Fin NINODE)
  | iput (s : Fin NINODE)
  | ialloc (type : InodeType)
  | iget (inum : Nat)
  | ilock (s : Fin NINODE)
  | iunlock (s : Fin NINODE)
  | setNlink (s : Fin NINODE) (nlink : Int)

def FsCall.prog : FsCall → FsProg Unit
  | .writei s src off n => do let _ ← FileSys.writei s src off.toNat n.toNat
  | .readi s ok off n => do let _ ← FileSys.readi s ok off.toNat n.toNat
  | .itrunc s => FileSys.itrunc s
  | .iput s => FileSys.iput s
  | .ialloc type => do let _ ← FileSys.ialloc type
  | .iget inum => do let _ ← FileSys.iget inum
  | .ilock s => FileSys.ilock s
  | .iunlock s => FileSys.iunlock s
  | .setNlink s nlink => do
    modify fun fs => fs.setD s { (fs.itable s).d with nlink := nlink }
    iupdate s

def Fs.held (fs : Fs) (s : Fin NINODE) : Prop :=
  fs.live s ∧ (fs.itable s).locked = true ∧ (fs.itable s).valid = true

/-- The call follows the rules for callers: contents and fields only under the inode's lock,
`iput` only of a reference that is held. -/
def Allowed (fs : Fs) : FsCall → Prop
  | .writei s _ _ _ => fs.held s
  | .readi s _ _ _ => fs.held s
  | .itrunc s => fs.held s
  | .iput s => fs.live s
  | .setNlink s _ => fs.held s
  | .ialloc _ => True
  | .iget _ => True
  | .ilock _ => True
  | .iunlock _ => True

instance (fs : Fs) (s : Fin NINODE) : Decidable (fs.live s) := inferInstanceAs (Decidable (_ < _))

instance (fs : Fs) (s : Fin NINODE) : Decidable (fs.held s) := inferInstanceAs (Decidable (_ ∧ _))

instance (fs : Fs) : (c : FsCall) → Decidable (Allowed fs c)
  | .writei s _ _ _ => inferInstanceAs (Decidable (fs.held s))
  | .readi s _ _ _ => inferInstanceAs (Decidable (fs.held s))
  | .itrunc s => inferInstanceAs (Decidable (fs.held s))
  | .iput s => inferInstanceAs (Decidable (fs.live s))
  | .setNlink s _ => inferInstanceAs (Decidable (fs.held s))
  | .ialloc _ => inferInstanceAs (Decidable True)
  | .iget _ => inferInstanceAs (Decidable True)
  | .ilock _ => inferInstanceAs (Decidable True)
  | .iunlock _ => inferInstanceAs (Decidable True)

def step (fs : Fs) (c : FsCall) : Option Fs :=
  match c.prog fs with
  | (.ok _, gs) => some gs
  | (.error _, _) => none

def notFreeingFree : String → Fs → Prop := fun e _ => e ≠ "freeing free block"

theorem WellFormed.call {fs : Fs} (h : WellFormed fs) {c : FsCall} (hc : Allowed fs c) :
    wp c.prog (fun _ gs => WellFormed gs) notFreeingFree fs := by
  cases c with
  | writei s src off n =>
    rw [FsCall.prog, wp_bind]
    exact wp_writei h hc.1 hc.2.2 src _ _ n.toNat_lt h fun _ gs hg _ => hg
  | readi s ok off n =>
    have hcur := h.cur_eq hc.1 hc.2.2
    have hcov := h.full (fs.itable s).inum
    rw [← hcur, cur_self] at hcov
    rw [FsCall.prog, wp_bind]
    exact wp_readi (h.work hc.1 hc.2.2) (hcov (h.work hc.1 hc.2.2).typed) ok _ _ fun _ _ => h
  | itrunc s => exact wp_itrunc h hc.1 hc.2.2 fun gs hg _ _ _ _ => hg
  | iput s =>
    exact wp_iput h hc (by simp [notFreeingFree]) (fun _ hg => hg) fun _ _ _ gs hg _ _ _ _ _ _ _ _ => hg
  | ialloc type =>
    simp only [FsCall.prog, FileSys.ialloc, wp_bind, wp_get]
    cases hf : fs.freeInum with
    | none => exact h
    | some inum =>
      simp only [wp_bind, wp_set]
      have hg := (h.ialloc type (freeInum_spec hf).2.2).logs (fs.iblock inum)
      exact wp_iget hg inum (by simp [notFreeingFree]) fun _ _ hk _ _ _ _ _ => hk
  | iget inum =>
    rw [FsCall.prog, wp_bind]
    exact wp_iget h inum (by simp [notFreeingFree]) fun _ _ hk _ _ _ _ _ => hk
  | ilock s => exact wp_ilock h (fun _ _ he => he.1) fun _ hk _ _ _ => hk
  | iunlock s => exact wp_iunlock h (by simp [notFreeingFree]) fun _ hk => hk
  | setNlink s nlink =>
    have hw := h.work hc.1 hc.2.2
    have hcur := h.cur_eq hc.1 hc.2.2
    simp only [FsCall.prog, wp_bind, wp_modify]
    refine wp_setD_iupdate hw { (fs.itable s).d with nlink := nlink } rfl rfl ?_ ?_
      fun gs hg _ _ _ _ => hg
    · have hcov := h.full (fs.itable s).inum
      rw [← hcur, cur_self] at hcov
      exact hcov hw.typed
    · intro i _ hty
      rw [hcur]
      exact h.full i hty

theorem WellFormed.run {fs gs : Fs} {calls : List FsCall} (h : WellFormed fs)
    (hal : Run.Along step Allowed fs calls) (hrun : Run.exec step fs calls = some gs) :
    WellFormed gs := by
  refine Run.exec_inv ?_ h hal hrun
  intro fs gs c hf hc hs
  have hw := hf.call hc
  unfold step at hs
  rcases hr : c.prog fs with ⟨r, ks⟩
  rw [hr] at hs
  cases r with
  | ok u =>
    obtain rfl : ks = gs := by simpa using hs
    exact wp_of_run hw hr
  | error e => simp at hs

/-- From every well-formed file system, every run of allowed calls reaches well-formed file
systems only, and no call made there panics in `bfree`. -/
theorem allocation_stays_exact (fs gs : Fs) (calls : List FsCall) (h : WellFormed fs)
    (hal : Run.Along step Allowed fs calls) (hrun : Run.exec step fs calls = some gs) :
    WellFormed gs ∧ ∀ c, Allowed gs c → (c.prog gs).1 ≠ .error "freeing free block" := by
  have hg := h.run hal hrun
  refine ⟨hg, fun c hc he => ?_⟩
  have hw := hg.call hc
  rcases hr : c.prog gs with ⟨r, ks⟩
  rw [hr] at he
  obtain rfl : r = .error "freeing free block" := he
  exact wp_of_stop hw hr rfl

def blankFs : Fs where
  sb := ⟨64, 18, 8, 32, 45⟩
  bitmap := fun b => decide (b < 46)
  data := fun _ => Block.zero
  dinode := fun _ => ⟨none, 0, 0, 0, 0, fun _ => 0⟩
  itable := fun _ => ⟨0, 0, false, false, ⟨none, 0, 0, 0, 0, fun _ => 0⟩⟩
  logged := []

theorem blankFs_wellFormed : WellFormed blankFs where
  sb := ⟨by decide, by decide⟩
  exact := by
    have href : ∀ q, refs blankFs.data blankFs.dinode q = 0 := fun _ => rfl
    refine ⟨?_, fun p hp => absurd (href p) hp, fun p _ hp => absurd (href p) hp, ?_⟩
    · intro b hb
      have hb' : b < 46 := hb
      simpa [blankFs] using hb'
    · intro b hlo _
      have hlo' : 46 ≤ b := hlo
      simp only [href]
      refine ⟨fun hb => ?_, fun ⟨_, hb⟩ => by omega⟩
      have hb' : b < 46 := by simpa [blankFs] using hb
      omega
  full := fun _ hty => absurd rfl hty
  table := by
    have hidle : ∀ s, ¬ blankFs.live s := by decide
    exact ⟨fun s _ hs => absurd hs (hidle s), fun s hs => absurd hs (hidle s)⟩

def tornWrite : List FsCall :=
  [.ialloc .file, .ilock 0, .writei 0 (fun i => if i < 2 then some 7 else none) 0 3, .iunlock 0,
    .iput 0]

section
attribute [local irreducible] Run.exec Run.Along

theorem tornWrite_exact : ∃ fs, Run.exec step blankFs tornWrite = some fs ∧
    Run.Along step Allowed blankFs tornWrite ∧ WellFormed fs ∧
    ∀ c, Allowed fs c → (c.prog fs).1 ≠ .error "freeing free block" := by
  have hsome : (Run.exec step blankFs tornWrite).isSome = true := by decide +kernel
  have hal : Run.Along step Allowed blankFs tornWrite := by decide +kernel
  obtain ⟨fs, hfs⟩ := Option.isSome_iff_exists.mp hsome
  exact ⟨fs, hfs, hal, allocation_stays_exact _ fs _ blankFs_wellFormed hal hfs⟩

end

end Xv6Audit.FileSys
