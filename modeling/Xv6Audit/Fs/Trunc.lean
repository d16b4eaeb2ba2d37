import Xv6Audit.Fs.Exact

/-! Truncation gives back every block of an inode. -/
namespace Xv6Audit.FileSys
open Function

open Prog Disk

section Trunc
variable {s : Fin NINODE} {fs : Fs} {E : String → Fs → Prop}

variable {Q : Unit → Fs → Prop}

theorem wp_bfree {b : Nat} (hb : fs.bitmap b = true)
    (hQ : Q () ((fs.setBit b false).logs (fs.bblock b))) : wp (bfree b) Q E fs := by
  simpa only [bfree, wp_bind, wp_get, hb, Bool.true_eq_false, if_false, wp_set] using hQ

structure Shrinks (s : Fin NINODE) (fs gs : Fs) : Prop where
  sb : gs.sb = fs.sb
  data : gs.data = fs.data
  dinode : gs.dinode = fs.dinode
  others : ∀ t, t ≠ s → gs.itable t = fs.itable t
  entry : gs.itable s =
    { fs.itable s with d := { (fs.itable s).d with addrs := (gs.itable s).d.addrs } }

theorem Shrinks.refl (s : Fin NINODE) (fs : Fs) : Shrinks s fs fs :=
  ⟨rfl, rfl, rfl, fun _ _ => rfl, rfl⟩

theorem Shrinks.trans {gs hs : Fs} (h : Shrinks s fs gs) (h' : Shrinks s gs hs) :
    Shrinks s fs hs := by
  refine ⟨h'.sb.trans h.sb, h'.data.trans h.data, h'.dinode.trans h.dinode,
    fun t ht => (h'.others t ht).trans (h.others t ht), ?_⟩
  rw [h'.entry, h.entry]

def Fs.dropAddr (fs : Fs) (s : Fin NINODE) (k : Fin NADDRS) : Fs :=
  ((fs.setBit ((fs.itable s).d.addrs k) false).logs (fs.bblock ((fs.itable s).d.addrs k))).setAddr
    s k 0

theorem dropAddr_itable (k : Fin NADDRS) : (fs.dropAddr s k).itable s = { fs.itable s with
    d := { (fs.itable s).d with addrs := update (fs.itable s).d.addrs k 0 } } := by
  simp [Fs.dropAddr, Fs.setAddr, Fs.setD, Fs.setInode, Fs.logs, Fs.setBit]

theorem dropAddr_shrinks (k : Fin NADDRS) : Shrinks s fs (fs.dropAddr s k) :=
  ⟨rfl, rfl, rfl, fun _ ht => update_of_ne ht _ _, by rw [dropAddr_itable]⟩

theorem dropAddr_refs (h : Work fs s) (k : Fin NADDRS) (i : Nat) (p : Pos) :
    refs (fs.dropAddr s k).data ((fs.dropAddr s k).cur s) (i, p) =
      if i = (fs.itable s).inum ∧ (p = .addr k ∨ k = INDIRECT ∧ ∃ j, p = .entry j) then 0
      else refs fs.data (fs.cur s) (i, p) := by
  have hdata : (fs.dropAddr s k).data = fs.data := rfl
  have hinum : ((fs.dropAddr s k).itable s).inum = (fs.itable s).inum := by rw [dropAddr_itable]
  by_cases hi : i = (fs.itable s).inum
  · subst i
    have hnew : refs (fs.dropAddr s k).data ((fs.dropAddr s k).cur s) ((fs.itable s).inum, p) =
        blockAt fs.data
          { (fs.itable s).d with addrs := update (fs.itable s).d.addrs k 0 } p := by
      rw [← hinum, refs_self (by rw [dropAddr_itable]; exact h.typed), dropAddr_itable, hdata]
    rw [hnew, refs_self h.typed]
    cases p with
    | addr l =>
      by_cases hl : l = k
      · simp [blockAt, hl]
      · simp [blockAt, hl]
    | entry j =>
      by_cases hk : k = INDIRECT
      · simp [blockAt, hk]
      · simp [blockAt, hk, update_of_ne (Ne.symm hk)]
  · rw [if_neg (fun hh => hi hh.1)]
    refine refs_congr p ?_ fun _ => rfl
    rw [cur_other (by rw [hinum]; exact hi), cur_other hi]
    rfl

theorem Work.dropAddr (h : Work fs s) {k : Fin NADDRS} (hki : k ≠ INDIRECT)
    (hk : (fs.itable s).d.addrs k ≠ 0) : Work (fs.dropAddr s k) s := by
  refine h.next rfl rfl (fun t ht => update_of_ne ht _ _) (dropAddr_itable k) h.typed ?_
  have hself := refs_self h.typed fs.data (.addr k)
  have hrefs : refs (fs.dropAddr s k).data ((fs.dropAddr s k).cur s) =
      update (refs fs.data (fs.cur s)) ((fs.itable s).inum, .addr k) 0 := by
    funext ⟨i, p⟩
    rw [dropAddr_refs h k i p]
    by_cases hq : i = (fs.itable s).inum ∧ p = .addr k
    · rw [hq.1, hq.2]
      simp
    · rw [update_of_ne (by simpa using hq), if_neg]
      rintro ⟨hi, hp | ⟨hki', _⟩⟩
      · exact hq ⟨hi, hp⟩
      · exact hki hki'
  rw [hrefs]
  have hrel := h.exact.release h.sb.nmeta (p := ((fs.itable s).inum, .addr k))
    (by rw [hself]; exact hk)
  rw [hself] at hrel
  exact hrel

theorem wp_truncDirect (h : Work fs s) {k : Fin NADDRS} (hki : k ≠ INDIRECT)
    (hQ : ∀ gs, Work gs s → Shrinks s fs gs → (gs.itable s).d.addrs k = 0 →
      (∀ l, (fs.itable s).d.addrs l = 0 → (gs.itable s).d.addrs l = 0) → Q () gs) :
    wp (truncDirect s k) Q E fs := by
  simp only [truncDirect, wp_bind, wp_get, wp_ite, wp_pure, wp_modify]
  refine ⟨fun hk => hQ fs h (Shrinks.refl s fs) hk fun _ hl => hl, fun hk => ?_⟩
  refine wp_bfree ?_ ?_
  · have hused := h.exact.used_ref (p := ((fs.itable s).inum, .addr k))
      (by rw [refs_self h.typed]; exact hk)
    rwa [refs_self h.typed] at hused
  · refine hQ (fs.dropAddr s k) (h.dropAddr hki hk) (dropAddr_shrinks k) ?_ ?_
    · simp [dropAddr_itable]
    · intro l hl
      by_cases hlk : l = k
      · simp [dropAddr_itable, hlk]
      · simp [dropAddr_itable, hlk, hl]

def entriesLeft (r : Nat × Pos → Nat) (i j : Nat) (q : Nat × Pos) : Nat :=
  if q.1 = i ∧ ∃ l, q.2 = .entry l ∧ l.val < j then 0 else r q

theorem entriesLeft_zero (r : Nat × Pos → Nat) (i : Nat) : entriesLeft r i 0 = r := by
  funext q
  simp [entriesLeft]

theorem entriesLeft_succ (r : Nat × Pos → Nat) (i : Nat) (j : Fin NINDIRECT) :
    entriesLeft r i (j.val + 1) = update (entriesLeft r i j.val) (i, .entry j) 0 := by
  funext ⟨i', p⟩
  by_cases hq : (i', p) = (i, Pos.entry j)
  · cases hq
    simp [entriesLeft]
  · rw [update_of_ne hq]
    unfold entriesLeft
    congr 1
    apply propext
    constructor
    · rintro ⟨hi, l, hp, hl⟩
      refine ⟨hi, l, hp, ?_⟩
      have hne : l ≠ j := by
        rintro rfl
        exact hq (by rw [← hi, ← hp])
      have hv : l.val ≠ j.val := fun he => hne (Fin.ext he)
      omega
    · rintro ⟨hi, l, hp, hl⟩
      exact ⟨hi, l, hp, by omega⟩

theorem entriesLeft_at (h : (fs.itable s).d.type ≠ none) (h0 : (fs.itable s).d.addrs INDIRECT ≠ 0)
    (j : Fin NINDIRECT) : entriesLeft (refs fs.data (fs.cur s)) (fs.itable s).inum j.val
      ((fs.itable s).inum, .entry j) = (fs.data ((fs.itable s).d.addrs INDIRECT)).word j := by
  have hnot : ¬ ((fs.itable s).inum = (fs.itable s).inum ∧ ∃ l : Fin NINDIRECT,
      Pos.entry j = Pos.entry l ∧ l.val < j.val) := by
    rintro ⟨-, l, he, hl⟩
    cases he
    omega
  rw [entriesLeft, if_neg hnot, refs_self h]
  simp [blockAt, h0]

structure Freeing (fs gs : Fs) (i j : Nat) (r : Nat × Pos → Nat) : Prop where
  same : gs = { fs with bitmap := gs.bitmap, logged := gs.logged }
  exact : Alloc.Exact fs.sb.nmeta fs.sb.size gs.bitmap (entriesLeft r i j)

section
attribute [local irreducible] forUpto

theorem wp_freeEntries (h : Work fs s) (h0 : (fs.itable s).d.addrs INDIRECT ≠ 0) :
    wp (forUpto NINDIRECT fun j =>
        if (fs.data ((fs.itable s).d.addrs INDIRECT)).word j = 0 then pure ()
        else bfree ((fs.data ((fs.itable s).d.addrs INDIRECT)).word j))
      (fun _ gs => Freeing fs gs (fs.itable s).inum NINDIRECT (refs fs.data (fs.cur s))) E fs := by
  refine wp_forUpto
    (fun j gs => Freeing fs gs (fs.itable s).inum j (refs fs.data (fs.cur s))) ?_ ?_
  · exact ⟨rfl, by rw [entriesLeft_zero]; exact h.exact⟩
  · intro j hj gs hg
    have hat := entriesLeft_at h.typed h0 ⟨j, hj⟩
    have hsucc := entriesLeft_succ (refs fs.data (fs.cur s)) (fs.itable s).inum ⟨j, hj⟩
    rw [wp_ite]
    refine ⟨fun hz => ⟨hg.same, ?_⟩, fun hnz => ?_⟩
    · rw [hz] at hat
      rw [hsucc, ← hat, update_eq_self]
      exact hg.exact
    · have hne : entriesLeft (refs fs.data (fs.cur s)) (fs.itable s).inum j
          ((fs.itable s).inum, .entry ⟨j, hj⟩) ≠ 0 := by
        rw [hat]
        exact hnz
      have hused := hg.exact.used_ref hne
      rw [hat] at hused
      refine wp_bfree hused ⟨?_, ?_⟩
      · rw [hg.same]
        rfl
      · have hrel := hg.exact.release h.sb.nmeta hne
        rw [hat, ← hsucc] at hrel
        exact hrel

theorem wp_truncIndirect (h : Work fs s)
    (hQ : ∀ gs, Work gs s → Shrinks s fs gs → (gs.itable s).d.addrs INDIRECT = 0 →
      (∀ l, (fs.itable s).d.addrs l = 0 → (gs.itable s).d.addrs l = 0) → Q () gs) :
    wp (truncIndirect s) Q E fs := by
  simp only [truncIndirect, wp_bind, wp_get, wp_ite, wp_pure, wp_modify]
  refine ⟨fun h0 => hQ fs h (Shrinks.refl s fs) h0 fun _ hl => hl, fun h0 => ?_⟩
  refine wp_post (wp_freeEntries h h0) fun _ gs hg => ?_
  have hnot : ∀ p : Pos, (∀ j, p ≠ .entry j) →
      entriesLeft (refs fs.data (fs.cur s)) (fs.itable s).inum NINDIRECT
        ((fs.itable s).inum, p) = blockAt fs.data (fs.itable s).d p := by
    intro p hp
    rw [entriesLeft, if_neg (by rintro ⟨-, l, he, -⟩; exact hp l he), refs_self h.typed]
  have hind : entriesLeft (refs fs.data (fs.cur s)) (fs.itable s).inum NINDIRECT
      ((fs.itable s).inum, .addr INDIRECT) = (fs.itable s).d.addrs INDIRECT :=
    hnot _ (by simp)
  have hused := hg.exact.used_ref (p := ((fs.itable s).inum, .addr INDIRECT))
    (by rw [hind]; exact h0)
  rw [hind] at hused
  refine wp_bfree hused ?_
  -- the state differs from the one before the loop in bits and log only
  have hgs := hg.same
  have hit : gs.itable = fs.itable := by rw [hgs]
  obtain ⟨hs, hhs⟩ : ∃ hs, hs = ((gs.setBit ((fs.itable s).d.addrs INDIRECT) false).logs
      (gs.bblock ((fs.itable s).d.addrs INDIRECT))).setAddr s INDIRECT 0 := ⟨_, rfl⟩
  have hshr : Shrinks s fs hs := by
    rw [hhs, hgs]
    refine ⟨rfl, rfl, rfl, fun _ ht => update_of_ne ht _ _, ?_⟩
    simp [Fs.setAddr, Fs.setD, Fs.setInode, Fs.logs, Fs.setBit]
  have hent : hs.itable s = (fs.dropAddr s INDIRECT).itable s := by
    rw [hhs, dropAddr_itable, Fs.setAddr, setD_itable]
    simp only [Fs.logs, Fs.setBit, hit]
  have hrefs : refs hs.data (hs.cur s) = update
      (entriesLeft (refs fs.data (fs.cur s)) (fs.itable s).inum NINDIRECT)
      ((fs.itable s).inum, .addr INDIRECT) 0 := by
    have hcur : hs.cur s = (fs.dropAddr s INDIRECT).cur s := by
      unfold Fs.cur
      rw [hent, hshr.dinode]
      rfl
    rw [hcur, hshr.data]
    funext q
    obtain ⟨i, p⟩ := q
    have hdrop := dropAddr_refs h INDIRECT i p
    have hdata : (fs.dropAddr s INDIRECT).data = fs.data := rfl
    rw [hdata] at hdrop
    rw [hdrop]
    cases p with
    | addr k =>
      by_cases hq : i = (fs.itable s).inum ∧ k = INDIRECT
      · rw [hq.1, hq.2]
        simp
      · rw [update_of_ne (by simpa using hq), if_neg (by simpa using hq), entriesLeft,
          if_neg (by simp)]
    | entry j =>
      rw [update_of_ne (by simp)]
      by_cases hi : i = (fs.itable s).inum
      · rw [if_pos ⟨hi, .inr ⟨rfl, j, rfl⟩⟩, entriesLeft, if_pos ⟨hi, j, rfl, j.isLt⟩]
      · rw [if_neg (fun hh => hi hh.1), entriesLeft, if_neg (fun hh => hi hh.1)]
  rw [← hhs]
  refine hQ hs ?_ hshr ?_ ?_
  · refine h.next hshr.sb hshr.dinode hshr.others (hent.trans (dropAddr_itable INDIRECT)) h.typed ?_
    rw [hrefs]
    have hrel := hg.exact.release h.sb.nmeta (p := ((fs.itable s).inum, .addr INDIRECT))
      (by rw [hind]; exact h0)
    rw [hind] at hrel
    rw [hhs]
    exact hrel
  · simp [hent, dropAddr_itable]
  · intro l hl
    by_cases hlk : l = INDIRECT
    · simp [hent, dropAddr_itable, hlk]
    · simp [hent, dropAddr_itable, hlk, hl]

theorem wp_itrunc (h : WellFormed fs) (hl : fs.live s) (hv : (fs.itable s).valid = true)
    (hQ : ∀ gs, WellFormed gs → SameTable s fs gs →
      (gs.itable s).d = { (fs.itable s).d with size := 0, addrs := fun _ => 0 } →
      gs.data = fs.data → (∀ i, i ≠ (fs.itable s).inum → gs.dinode i = fs.dinode i) →
      Q () gs) : wp (itrunc s) Q E fs := by
  have hcur := h.cur_eq hl hv
  simp only [itrunc, wp_bind]
  refine wp_post (Q := fun _ gs => Work gs s ∧ Shrinks s fs gs ∧
    ∀ l : Fin NADDRS, l.val < NDIRECT → (gs.itable s).d.addrs l = 0) ?_ ?_
  · refine wp_forUpto (fun k gs => Work gs s ∧ Shrinks s fs gs ∧
      ∀ l : Fin NADDRS, l.val < k → (gs.itable s).d.addrs l = 0) ?_ ?_
    · exact ⟨h.work hl hv, Shrinks.refl s fs, fun _ hlt => absurd hlt (Nat.not_lt_zero _)⟩
    · rintro k hk gs ⟨hg, hshr, hzero⟩
      have hkv : (Fin.ofNat NADDRS k).val = k := Nat.mod_eq_of_lt (Nat.lt_succ_of_lt hk)
      have hki : Fin.ofNat NADDRS k ≠ INDIRECT := by
        intro he
        have hval : k = 12 := by rw [← hkv, he]; rfl
        have hlt : k < 12 := hk
        omega
      refine wp_truncDirect hg hki fun ks hk' hshr' hkz hkeep => ⟨hk', hshr.trans hshr', ?_⟩
      intro l hlk
      by_cases he : l.val = k
      · have : l = Fin.ofNat NADDRS k := Fin.ext (by rw [hkv]; exact he)
        rw [this]
        exact hkz
      · exact hkeep l (hzero l (by omega))
  · rintro _ gs ⟨hg, hshr, hzero⟩
    refine wp_truncIndirect hg fun ks hk hshr' hind hkeep => ?_
    rw [wp_modify]
    have hall : ∀ l, (ks.itable s).d.addrs l = 0 := by
      intro l
      by_cases hlt : l.val < NDIRECT
      · exact hkeep l (hzero l hlt)
      · have : l = INDIRECT := by
          apply Fin.ext
          have h1 := l.isLt
          have h2 : ¬ l.val < 12 := hlt
          have h3 : l.val < 13 := h1
          have h4 : INDIRECT.val = 12 := rfl
          omega
        rw [this]
        exact hind
    have hshr2 := hshr.trans hshr'
    have hinum : (ks.itable s).inum = (fs.itable s).inum := by rw [hshr2.entry]
    refine wp_setD_iupdate hk { (ks.itable s).d with size := 0 } rfl rfl
      (fun k hlt => absurd hlt (Nat.not_lt_zero _)) ?_ ?_
    · intro i hi hty k hlt
      rw [hshr2.dinode] at hty hlt
      obtain ⟨p, hp, hne⟩ := h.full i hty k hlt
      refine ⟨p, hp, ?_⟩
      have hsame : refs ks.data (ks.cur s) (i, p) = refs fs.data fs.dinode (i, p) :=
        refs_congr p (by rw [cur_other hi, hshr2.dinode]) fun _ => by rw [hshr2.data]
      rw [hsame]
      exact hne
    · intro ls hw hit hdin hdata hsb
      refine hQ ls hw ⟨hsb.trans hshr2.sb, ?_, ?_⟩ ?_ (hdata.trans hshr2.data) ?_
      · intro t ht
        rw [hit]
        exact (update_of_ne ht _ _).trans (hshr2.others t ht)
      · rw [hit, setD_itable, hshr2.entry]
      · have haddrs : (ks.itable s).d.addrs = fun _ => 0 := funext hall
        rw [hit, setD_itable]
        simp only [haddrs]
        rw [hshr2.entry]
      · intro i hi
        rw [hdin, setD_cur _ (by rw [hinum]; exact hi), cur_other (by rw [hinum]; exact hi),
          hshr2.dinode]

end
end Trunc

end Xv6Audit.FileSys
