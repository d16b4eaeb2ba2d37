import Xv6Audit.Lib.Alloc
import Xv6Audit.Lib.Run
import Xv6Audit.Fs.Inode

/-! Block allocation: the free map against the blocks that inodes name. -/
namespace Xv6Audit.FileSys
open Function

open Prog Disk

inductive Pos where
  | addr (k : Fin NADDRS)
  | entry (j : Fin NINDIRECT)
deriving DecidableEq

def blockAt (data : Nat → Block) (d : Dinode) : Pos → Nat
  | .addr k => d.addrs k
  | .entry j => if d.addrs INDIRECT = 0 then 0 else (data (d.addrs INDIRECT)).word j

def refs (data : Nat → Block) (D : Nat → Dinode) (q : Nat × Pos) : Nat :=
  if (D q.1).type = none then 0 else blockAt data (D q.1) q.2

def posOf (k : Nat) : Option Pos :=
  if h : k < NDIRECT then some (.addr (directIdx k h))
  else if h : k - NDIRECT < NINDIRECT then some (.entry ⟨k - NDIRECT, h⟩)
  else none

def Covers (data : Nat → Block) (D : Nat → Dinode) (i m : Nat) : Prop :=
  ∀ k, k * BSIZE < m → ∃ p, posOf k = some p ∧ refs data D (i, p) ≠ 0

def Full (data : Nat → Block) (D : Nat → Dinode) : Prop :=
  ∀ i, (D i).type ≠ none → Covers data D i (D i).size

structure Super.Ok (sb : Super) : Prop where
  nmeta : 0 < sb.nmeta
  size : sb.size < U32

def Fs.live (fs : Fs) (s : Fin NINODE) : Prop := 0 < (fs.itable s).ref

structure TableOk (fs : Fs) : Prop where
  uniq : ∀ s t, fs.live s → fs.live t → (fs.itable s).inum = (fs.itable t).inum → s = t
  cached : ∀ s, fs.live s → (fs.itable s).valid = true →
    (fs.itable s).d = fs.dinode (fs.itable s).inum ∧ (fs.itable s).d.type ≠ none

/-- The set bits are the metadata and the blocks named by allocated inodes, all of them
behind the metadata and named once; no file has a hole; the table agrees with the disk. -/
structure WellFormed (fs : Fs) : Prop where
  sb : fs.sb.Ok
  exact : Alloc.Exact fs.sb.nmeta fs.sb.size fs.bitmap (refs fs.data fs.dinode)
  full : Full fs.data fs.dinode
  table : TableOk fs

/-! While inode `s` is being worked on, its entry is ahead of the disk. -/

def Fs.cur (fs : Fs) (s : Fin NINODE) : Nat → Dinode :=
  update fs.dinode (fs.itable s).inum (fs.itable s).d

structure Work (fs : Fs) (s : Fin NINODE) : Prop where
  sb : fs.sb.Ok
  live : fs.live s
  valid : (fs.itable s).valid = true
  typed : (fs.itable s).d.type ≠ none
  uniq : ∀ t u, fs.live t → fs.live u → (fs.itable t).inum = (fs.itable u).inum → t = u
  others : ∀ t, t ≠ s → fs.live t → (fs.itable t).valid = true →
    (fs.itable t).d = fs.dinode (fs.itable t).inum ∧ (fs.itable t).d.type ≠ none
  exact : Alloc.Exact fs.sb.nmeta fs.sb.size fs.bitmap (refs fs.data (fs.cur s))

variable {i : Nat} {d : Dinode}

section Cur
variable {fs : Fs} {s : Fin NINODE}

@[simp] theorem cur_self : fs.cur s (fs.itable s).inum = (fs.itable s).d := by
  simp [Fs.cur]

theorem cur_other (h : i ≠ (fs.itable s).inum) : fs.cur s i = fs.dinode i := by
  simp [Fs.cur, h]

theorem refs_self (h : (fs.itable s).d.type ≠ none) (data : Nat → Block) (p : Pos) :
    refs data (fs.cur s) ((fs.itable s).inum, p) = blockAt data (fs.itable s).d p := by
  simp [refs, h]

theorem WellFormed.cur_eq (h : WellFormed fs) (hl : fs.live s) (hv : (fs.itable s).valid = true) :
    fs.cur s = fs.dinode := by
  unfold Fs.cur
  rw [(h.table.cached s hl hv).1, update_eq_self]

theorem WellFormed.work (h : WellFormed fs) (hl : fs.live s)
    (hv : (fs.itable s).valid = true) : Work fs s :=
  ⟨h.sb, hl, hv, (h.table.cached s hl hv).2, h.table.uniq, fun t _ => h.table.cached t,
    by rw [h.cur_eq hl hv]; exact h.exact⟩

end Cur

theorem Work.next {fs gs : Fs} {s : Fin NINODE} (h : Work fs s) (hsb : gs.sb = fs.sb)
    (hd : gs.dinode = fs.dinode) (ho : ∀ t, t ≠ s → gs.itable t = fs.itable t)
    (hs : gs.itable s = { fs.itable s with d := d }) (ht : d.type ≠ none)
    (he : Alloc.Exact fs.sb.nmeta fs.sb.size gs.bitmap (refs gs.data (gs.cur s))) : Work gs s := by
  have hkeep : ∀ t, (gs.live t ↔ fs.live t) ∧ (gs.itable t).inum = (fs.itable t).inum := by
    intro t
    unfold Fs.live
    by_cases hts : t = s
    · subst t
      rw [hs]
      exact ⟨Iff.rfl, rfl⟩
    · rw [ho t hts]
      exact ⟨Iff.rfl, rfl⟩
  refine ⟨hsb ▸ h.sb, (hkeep s).1.mpr h.live, ?_, ?_, ?_, ?_, hsb ▸ he⟩
  · rw [hs]
    exact h.valid
  · rw [hs]
    exact ht
  · intro t u htl hul he
    rw [(hkeep t).2, (hkeep u).2] at he
    exact h.uniq t u ((hkeep t).1.mp htl) ((hkeep u).1.mp hul) he
  · intro t hts hl hv
    rw [ho t hts] at hv ⊢
    rw [hd]
    exact h.others t hts ((hkeep t).1.mp hl) hv

structure Extends (s : Fin NINODE) (fs gs : Fs) : Prop where
  sb : gs.sb = fs.sb
  dinode : gs.dinode = fs.dinode
  others : ∀ t, t ≠ s → gs.itable t = fs.itable t
  entry : gs.itable s =
    { fs.itable s with d := { (fs.itable s).d with addrs := (gs.itable s).d.addrs } }
  refs : ∀ q, refs fs.data (fs.cur s) q ≠ 0 →
    refs gs.data (gs.cur s) q = refs fs.data (fs.cur s) q

section Extends
variable {s : Fin NINODE} {fs gs hs : Fs}

theorem Extends.refl (s : Fin NINODE) (fs : Fs) : Extends s fs fs :=
  ⟨rfl, rfl, fun _ _ => rfl, rfl, fun _ _ => rfl⟩

section
variable (h : Extends s fs gs)
include h

theorem Extends.trans (h' : Extends s gs hs) : Extends s fs hs := by
  refine ⟨h'.sb.trans h.sb, h'.dinode.trans h.dinode,
    fun t ht => (h'.others t ht).trans (h.others t ht), ?_, ?_⟩
  · rw [h'.entry, h.entry]
  · intro q hq
    have h1 := h.refs q hq
    rw [← h1]
    exact h'.refs q (by rw [h1]; exact hq)

theorem Extends.logs (b : Nat) : Extends s fs (gs.logs b) :=
  ⟨h.sb, h.dinode, h.others, h.entry, h.refs⟩

theorem Extends.inum : (gs.itable s).inum = (fs.itable s).inum := by
  rw [h.entry]

theorem Extends.size : (gs.itable s).d.size = (fs.itable s).d.size := by
  rw [h.entry]

theorem Extends.type : (gs.itable s).d.type = (fs.itable s).d.type := by
  rw [h.entry]

theorem Extends.covers {m : Nat} (hc : Covers fs.data (fs.cur s) i m) :
    Covers gs.data (gs.cur s) i m := by
  intro k hk
  obtain ⟨p, hp, hne⟩ := hc k hk
  exact ⟨p, hp, by rw [h.refs _ hne]; exact hne⟩

end

end Extends

structure Grows (s : Fin NINODE) (fs gs : Fs) : Prop extends Extends s fs gs where
  keep : ∀ b, b ≠ 0 → fs.bitmap b = true → b ≠ (gs.itable s).d.addrs INDIRECT →
    gs.data b = fs.data b
  used : ∀ b, fs.bitmap b = true → gs.bitmap b = true

section Grows
variable {s : Fin NINODE} {fs gs hs : Fs}

theorem Grows.refl (s : Fin NINODE) (fs : Fs) : Grows s fs fs :=
  ⟨Extends.refl s fs, fun _ _ _ _ => rfl, fun _ h => h⟩

theorem Grows.indirect (h : Grows s fs gs) (ht : (fs.itable s).d.type ≠ none)
    (h0 : (fs.itable s).d.addrs INDIRECT ≠ 0) :
    (gs.itable s).d.addrs INDIRECT = (fs.itable s).d.addrs INDIRECT := by
  have hq := h.refs ((fs.itable s).inum, .addr INDIRECT)
  rw [refs_self ht] at hq
  rw [← h.inum, refs_self (by rwa [h.type])] at hq
  exact hq h0

theorem Grows.trans (h : Grows s fs gs) (h' : Grows s gs hs)
    (ht : (fs.itable s).d.type ≠ none) : Grows s fs hs := by
  refine ⟨h.toExtends.trans h'.toExtends, ?_, fun b hb => h'.used b (h.used b hb)⟩
  intro b h0 hb hne
  rw [h'.keep b h0 (h.used b hb) hne]
  by_cases hi : (gs.itable s).d.addrs INDIRECT = 0
  · exact h.keep b h0 hb (by rw [hi]; exact h0)
  · rw [h'.indirect (by rw [h.type]; exact ht) hi] at hne
    exact h.keep b h0 hb hne

end Grows

/-! One allocation. -/

theorem refs_congr {data data' : Nat → Block} {D D' : Nat → Dinode} (p : Pos) (hD : D' i = D i)
    (hdata : (D i).type ≠ none → data' ((D i).addrs INDIRECT) = data ((D i).addrs INDIRECT)) :
    refs data' D' (i, p) = refs data D (i, p) := by
  unfold refs
  rw [hD]
  by_cases ht : (D i).type = none
  · rw [if_pos ht, if_pos ht]
  · rw [if_neg ht, if_neg ht]
    cases p with
    | addr k => rfl
    | entry j => simp only [blockAt, hdata ht]

section Alloc
variable {s : Fin NINODE} {fs : Fs}

variable {b bn : Nat} {k : Fin NADDRS} {Q : Nat → Fs → Prop} {p : Pos}

theorem Work.indirect_ne (h : Work fs s) (ht : (fs.cur s i).type ≠ none) (hb : fs.bitmap b = false)
    (hlt : b < fs.sb.size) : (fs.cur s i).addrs INDIRECT ≠ b := by
  have hne := h.exact.ne_free hb hlt (i, .addr INDIRECT)
  simpa only [refs, ht, if_false, blockAt] using hne

def Fs.growAddr (fs : Fs) (s : Fin NINODE) (k : Fin NADDRS) (b : Nat) : Fs :=
  (fs.take b).setAddr s k b

theorem growAddr_itable (k : Fin NADDRS) (b : Nat) : (fs.growAddr s k b).itable s =
    { fs.itable s with d :=
      { (fs.itable s).d with addrs := update (fs.itable s).d.addrs k b } } := by
  simp [Fs.growAddr, Fs.setAddr, Fs.setD, Fs.setInode, Fs.take, Fs.logs, Fs.setData, Fs.setBit]

theorem growAddr_cur (k : Fin NADDRS) (b : Nat) (hi : i ≠ (fs.itable s).inum) :
    (fs.growAddr s k b).cur s i = fs.cur s i := by
  rw [cur_other (by rw [growAddr_itable]; exact hi), cur_other hi]
  rfl

theorem growAddr_refs (h : Work fs s) (hk : (fs.itable s).d.addrs k = 0) (hb : fs.bitmap b = false)
    (hlt : b < fs.sb.size) :
    refs (fs.growAddr s k b).data ((fs.growAddr s k b).cur s) =
      update (refs fs.data (fs.cur s)) ((fs.itable s).inum, .addr k) b := by
  have hdata : ∀ c, c ≠ b → (fs.growAddr s k b).data c = fs.data c :=
    fun c hc => update_of_ne hc _ _
  have hzero : (fs.growAddr s k b).data b = Block.zero := update_self ..
  have hinum : ((fs.growAddr s k b).itable s).inum = (fs.itable s).inum := by rw [growAddr_itable]
  funext ⟨i, p⟩
  by_cases hi : i = (fs.itable s).inum
  · subst i
    have hnew : refs (fs.growAddr s k b).data ((fs.growAddr s k b).cur s)
        ((fs.itable s).inum, p) = blockAt (fs.growAddr s k b).data
          { (fs.itable s).d with addrs := update (fs.itable s).d.addrs k b } p := by
      rw [← hinum, refs_self (by rw [growAddr_itable]; exact h.typed), growAddr_itable]
    rw [hnew]
    cases p with
    | addr l =>
      by_cases hl : l = k
      · subst l
        simp [blockAt]
      · rw [update_of_ne (by simpa using hl), refs_self h.typed]
        simp [blockAt, hl]
    | entry j =>
      rw [update_of_ne (by simp), refs_self h.typed]
      by_cases hik : k = INDIRECT
      · -- a fresh indirect block names nothing
        subst k
        simp [blockAt, hk, hzero]
      · have hne : (fs.itable s).d.addrs INDIRECT ≠ b := by
          simpa using h.indirect_ne (i := (fs.itable s).inum) (by simpa using h.typed) hb hlt
        simp only [blockAt, update_of_ne (Ne.symm hik), hdata _ hne]
  · rw [update_of_ne (by simp [hi])]
    refine refs_congr p (growAddr_cur k b hi) fun ht => hdata _ ?_
    exact h.indirect_ne ht hb hlt

theorem Work.growAddr (h : Work fs s) (hk : (fs.itable s).d.addrs k = 0) (hb : fs.bitmap b = false)
    (hlt : b < fs.sb.size) : Work (fs.growAddr s k b) s := by
  refine h.next rfl rfl (fun t ht => update_of_ne ht _ _) (growAddr_itable k b) h.typed ?_
  rw [growAddr_refs h hk hb hlt]
  exact h.exact.assign h.sb.nmeta (by rw [refs_self h.typed]; exact hk) hb hlt

theorem Work.growAddr_grows (h : Work fs s) (hk : (fs.itable s).d.addrs k = 0)
    (hb : fs.bitmap b = false) (hlt : b < fs.sb.size) : Grows s fs (fs.growAddr s k b) := by
  have hne : ∀ c, fs.bitmap c = true → c ≠ b := by
    rintro c hc rfl
    simp [hc] at hb
  refine ⟨⟨rfl, rfl, fun t ht => update_of_ne ht _ _, ?_, ?_⟩, ?_, ?_⟩
  · rw [growAddr_itable]
  · intro q hq
    have hqk : q ≠ ((fs.itable s).inum, .addr k) := by
      rintro rfl
      rw [refs_self h.typed] at hq
      exact hq hk
    rw [growAddr_refs h hk hb hlt, update_of_ne hqk]
  · intro c _ hc _
    exact update_of_ne (hne c hc) _ _
  · intro c hc
    exact (update_of_ne (hne c hc) _ _).trans hc

def Fs.growEntry (fs : Fs) (addr j b : Nat) : Fs :=
  ((fs.take b).setData addr ((fs.data addr).setWord j b)).logs addr

theorem growEntry_data (addr j b c : Nat) : (fs.growEntry addr j b).data c =
    if c = addr then (fs.data addr).setWord j b else if c = b then Block.zero else fs.data c := by
  simp only [Fs.growEntry, Fs.logs, Fs.setData, Fs.take, Fs.setBit, update_apply]

theorem Work.indirect_inj (h : Work fs s) (h0 : (fs.itable s).d.addrs INDIRECT ≠ 0)
    (ht : (fs.cur s i).type ≠ none)
    (he : (fs.cur s i).addrs INDIRECT = (fs.itable s).d.addrs INDIRECT) :
    i = (fs.itable s).inum := by
  have hi : refs fs.data (fs.cur s) (i, .addr INDIRECT) = (fs.cur s i).addrs INDIRECT := by
    simp only [refs, ht, if_false, blockAt]
  have hs := refs_self h.typed fs.data (.addr INDIRECT)
  have hq := h.exact.inj (i, .addr INDIRECT) ((fs.itable s).inum, .addr INDIRECT)
    (by rw [hi, he]; exact h0) (by rw [hi, hs, he]; rfl)
  exact congrArg Prod.fst hq

theorem growEntry_refs (h : Work fs s) (j : Fin NINDIRECT) (h0 : (fs.itable s).d.addrs INDIRECT ≠ 0)
    (hb : fs.bitmap b = false) (hlt : b < fs.sb.size) :
    refs (fs.growEntry ((fs.itable s).d.addrs INDIRECT) j b).data (fs.cur s) =
      update (refs fs.data (fs.cur s)) ((fs.itable s).inum, .entry j) b := by
  have hb32 : b < 4294967296 := Nat.lt_trans hlt h.sb.size
  funext ⟨i, p⟩
  by_cases hi : i = (fs.itable s).inum
  · subst i
    rw [refs_self h.typed]
    cases p with
    | addr k =>
      rw [update_of_ne (by simp), refs_self h.typed]
      rfl
    | entry l =>
      simp only [blockAt, h0, if_false, growEntry_data, if_true]
      rw [Block.word_setWord _ _ _ _ j.isLt hb32]
      by_cases hl : l = j
      · simp [hl]
      · rw [if_neg (fun he => hl (Fin.ext he)), update_of_ne (by simpa using hl),
          refs_self h.typed]
        simp [blockAt, h0]
  · rw [update_of_ne (by simp [hi])]
    refine refs_congr p rfl fun ht => ?_
    rw [growEntry_data, if_neg (fun he => hi (h.indirect_inj h0 ht he)),
      if_neg (h.indirect_ne ht hb hlt)]

theorem Work.growEntry (h : Work fs s) (j : Fin NINDIRECT) (h0 : (fs.itable s).d.addrs INDIRECT ≠ 0)
    (hj : (fs.data ((fs.itable s).d.addrs INDIRECT)).word j = 0) (hb : fs.bitmap b = false)
    (hlt : b < fs.sb.size) :
    Work (fs.growEntry ((fs.itable s).d.addrs INDIRECT) j b) s := by
  refine h.next rfl rfl (fun _ _ => rfl) rfl h.typed ?_
  have hcur : (fs.growEntry ((fs.itable s).d.addrs INDIRECT) j b).cur s = fs.cur s := rfl
  rw [hcur, growEntry_refs h j h0 hb hlt]
  exact h.exact.assign h.sb.nmeta (by rw [refs_self h.typed]; simp [blockAt, h0, hj]) hb hlt

theorem Work.growEntry_grows (h : Work fs s) (j : Fin NINDIRECT)
    (h0 : (fs.itable s).d.addrs INDIRECT ≠ 0)
    (hj : (fs.data ((fs.itable s).d.addrs INDIRECT)).word j = 0) (hb : fs.bitmap b = false)
    (hlt : b < fs.sb.size) :
    Grows s fs (fs.growEntry ((fs.itable s).d.addrs INDIRECT) j b) := by
  have hne : ∀ c, fs.bitmap c = true → c ≠ b := by
    rintro c hc rfl
    simp [hc] at hb
  refine ⟨⟨rfl, rfl, fun _ _ => rfl, rfl, ?_⟩, ?_, ?_⟩
  · intro q hq
    have hqj : q ≠ ((fs.itable s).inum, .entry j) := by
      rintro rfl
      rw [refs_self h.typed] at hq
      simp [blockAt, h0, hj] at hq
    have hcur : (fs.growEntry ((fs.itable s).d.addrs INDIRECT) j b).cur s = fs.cur s := rfl
    rw [hcur, growEntry_refs h j h0 hb hlt, update_of_ne hqj]
  · intro c _ hc hind
    have hind' : c ≠ (fs.itable s).d.addrs INDIRECT := hind
    rw [growEntry_data, if_neg hind', if_neg (hne c hc)]
  · intro c hc
    exact (update_of_ne (hne c hc) _ _).trans hc

/-! The routines. -/

variable {E : String → Fs → Prop}

theorem wp_balloc (hnone : Q 0 fs)
    (hsome : ∀ b, b < fs.sb.size → fs.bitmap b = false → Q b (fs.take b)) :
    wp balloc Q E fs := by
  simp only [balloc, wp_bind, wp_get]
  cases hf : fs.freeBlock with
  | none => exact hnone
  | some b =>
    have hmem := List.mem_of_find?_eq_some hf
    have hbit := List.find?_some hf
    exact hsome b (List.mem_range.mp hmem) (by simpa using hbit)

section
variable (h : Work fs s)
include h

theorem Work.free_ne_zero (hb : fs.bitmap b = false) : b ≠ 0 := by
  have h1 := h.exact.lo_le_free hb
  have h2 := h.sb.nmeta
  omega

theorem wp_addrBlock (k : Fin NADDRS) (hfull : Q 0 fs)
    (hQ : ∀ gs, Work gs s → Grows s fs gs → (gs.itable s).d.addrs k ≠ 0 →
      Q ((gs.itable s).d.addrs k) gs) : wp (addrBlock s k) Q E fs := by
  simp only [addrBlock, wp_bind, wp_get, wp_ite, wp_pure]
  refine ⟨fun hk => wp_balloc ⟨fun _ => hfull, fun h0 => absurd rfl h0⟩ ?_,
    fun hk => hQ fs h (Grows.refl s fs) hk⟩
  intro b hlt hb
  refine ⟨fun h0 => absurd h0 (h.free_ne_zero hb), fun h0 => ?_⟩
  have hgs := hQ (fs.growAddr s k b) (h.growAddr hk hb hlt) (h.growAddr_grows hk hb hlt)
  rw [growAddr_itable] at hgs
  simp only [update_self] at hgs
  exact hgs h0

theorem wp_entryBlock (j : Fin NINDIRECT) (h0 : (fs.itable s).d.addrs INDIRECT ≠ 0) (hfull : Q 0 fs)
    (hQ : ∀ gs, Work gs s → Grows s fs gs → blockAt gs.data (gs.itable s).d (.entry j) ≠ 0 →
      Q (blockAt gs.data (gs.itable s).d (.entry j)) gs) :
    wp (entryBlock ((fs.itable s).d.addrs INDIRECT) j) Q E fs := by
  simp only [entryBlock, wp_bind, wp_get, wp_ite, wp_pure]
  have hat : blockAt fs.data (fs.itable s).d (.entry j) =
      (fs.data ((fs.itable s).d.addrs INDIRECT)).word j := by simp [blockAt, h0]
  refine ⟨fun hj => wp_balloc ⟨fun _ => hfull, fun h0 => absurd rfl h0⟩ ?_,
    fun hj => ?_⟩
  · intro b hlt hb
    refine ⟨fun hb0 => absurd hb0 (h.free_ne_zero hb), fun hb0 => ?_⟩
    have hgs := hQ _ (h.growEntry j h0 hj hb hlt) (h.growEntry_grows j h0 hj hb hlt)
    have hnew := congrFun (growEntry_refs h j h0 hb hlt) ((fs.itable s).inum, .entry j)
    rw [refs_self h.typed, update_self] at hnew
    have hne : (fs.itable s).d.addrs INDIRECT ≠ b := by
      simpa using h.indirect_ne (i := (fs.itable s).inum) (by simpa using h.typed) hb hlt
    have hsame : (fs.take b).data ((fs.itable s).d.addrs INDIRECT) =
        fs.data ((fs.itable s).d.addrs INDIRECT) := update_of_ne hne _ _
    rw [wp_modify, hsame]
    have hit : (fs.growEntry ((fs.itable s).d.addrs INDIRECT) j b).itable s = fs.itable s := rfl
    rw [hit, hnew] at hgs
    exact hgs hb0
  · rw [← hat] at hj ⊢
    exact hQ fs h (Grows.refl s fs) hj

/-- `bmap` answers with the block at the place of `bn`, or 0 with the disk full; either way
the inode only grows. -/
theorem wp_bmap (hp : posOf bn = some p) (hfull : ∀ gs, Work gs s → Grows s fs gs → Q 0 gs)
    (hQ : ∀ gs, Work gs s → Grows s fs gs → blockAt gs.data (gs.itable s).d p ≠ 0 →
      Q (blockAt gs.data (gs.itable s).d p) gs) : wp (bmap s bn) Q E fs := by
  unfold bmap
  unfold posOf at hp
  by_cases h1 : bn < NDIRECT
  · rw [dif_pos h1] at hp ⊢
    obtain rfl := Option.some.inj hp
    exact wp_addrBlock h _ (hfull fs h (Grows.refl s fs)) hQ
  · rw [dif_neg h1] at hp ⊢
    by_cases h2 : bn - NDIRECT < NINDIRECT
    · rw [dif_pos h2] at hp
      rw [if_pos h2, wp_bind]
      obtain rfl := Option.some.inj hp
      refine wp_addrBlock h INDIRECT ?_ ?_
      · rw [if_pos rfl]
        exact hfull fs h (Grows.refl s fs)
      · intro gs hg hgrow h0
        rw [if_neg h0]
        refine wp_entryBlock hg ⟨bn - NDIRECT, h2⟩ h0 (hfull gs hg hgrow) ?_
        intro ks hk hgrow' hne
        exact hQ ks hk (hgrow.trans hgrow' h.typed) hne
    · rw [dif_neg h2] at hp
      cases hp

theorem wp_bmap_present (hp : posOf bn = some p)
    (hne : refs fs.data (fs.cur s) ((fs.itable s).inum, p) ≠ 0)
    (hQ : Q (blockAt fs.data (fs.itable s).d p) fs) : wp (bmap s bn) Q E fs := by
  rw [refs_self h.typed] at hne
  unfold bmap
  unfold posOf at hp
  by_cases h1 : bn < NDIRECT
  · rw [dif_pos h1] at hp ⊢
    obtain rfl := Option.some.inj hp
    simp only [blockAt] at hne hQ
    simpa only [addrBlock, wp_bind, wp_get, hne, if_false, wp_pure] using hQ
  · rw [dif_neg h1] at hp ⊢
    by_cases h2 : bn - NDIRECT < NINDIRECT
    · rw [dif_pos h2] at hp
      rw [if_pos h2, wp_bind]
      obtain rfl := Option.some.inj hp
      by_cases h0 : (fs.itable s).d.addrs INDIRECT = 0
      · simp [blockAt, h0] at hne
      · simp only [blockAt, h0, if_false] at hne hQ
        simpa only [addrBlock, entryBlock, wp_bind, wp_get, h0, hne, if_false, wp_pure] using hQ
    · rw [dif_neg h2] at hp
      cases hp

/-! Contents. -/

theorem setData_refs (hp : p ≠ .addr INDIRECT) (hne : blockAt fs.data (fs.itable s).d p ≠ 0)
    (v : Block) :
    refs (fs.setData (blockAt fs.data (fs.itable s).d p) v).data (fs.cur s) =
      refs fs.data (fs.cur s) := by
  have hself := refs_self h.typed fs.data p
  funext ⟨i, q⟩
  refine refs_congr q rfl fun ht => update_of_ne ?_ _ _
  intro he
  have hi : refs fs.data (fs.cur s) (i, .addr INDIRECT) = (fs.cur s i).addrs INDIRECT := by
    simp only [refs, ht, if_false, blockAt]
  have hq := h.exact.inj ((fs.itable s).inum, p) (i, .addr INDIRECT) (by rw [hself]; exact hne)
    (by rw [hself, hi, he])
  exact hp (congrArg Prod.snd hq)

theorem Work.setData (hp : p ≠ .addr INDIRECT) (hne : blockAt fs.data (fs.itable s).d p ≠ 0)
    (v : Block) : Work (fs.setData (blockAt fs.data (fs.itable s).d p) v) s := by
  refine h.next rfl rfl (fun _ _ => rfl) rfl h.typed ?_
  have hcur : (fs.setData (blockAt fs.data (fs.itable s).d p) v).cur s = fs.cur s := rfl
  rw [hcur, setData_refs h hp hne]
  exact h.exact

theorem Work.logs (b : Nat) : Work (fs.logs b) s :=
  h.next rfl rfl (fun _ _ => rfl) rfl h.typed h.exact

end

theorem posOf_ne_indirect (hp : posOf bn = some p) : p ≠ .addr INDIRECT := by
  unfold posOf at hp
  by_cases h1 : bn < NDIRECT
  · rw [dif_pos h1] at hp
    obtain rfl := Option.some.inj hp
    intro he
    have hval : bn = 12 := congrArg Fin.val (Pos.addr.inj he)
    have hlt : bn < 12 := h1
    omega
  · rw [dif_neg h1] at hp
    by_cases h2 : bn - NDIRECT < NINDIRECT
    · rw [dif_pos h2] at hp
      obtain rfl := Option.some.inj hp
      simp
    · rw [dif_neg h2] at hp
      cases hp

theorem posOf_isSome (h : bn < MAXFILE) : ∃ p, posOf bn = some p := by
  unfold posOf
  by_cases h1 : bn < NDIRECT
  · exact ⟨_, dif_pos h1⟩
  · rw [dif_neg h1]
    have h2 : bn - NDIRECT < NINDIRECT := by
      unfold MAXFILE at h
      omega
    exact ⟨_, dif_pos h2⟩

theorem Work.wellFormed (h : Work fs s) (hd : fs.dinode (fs.itable s).inum = (fs.itable s).d)
    (hfull : Full fs.data fs.dinode) : WellFormed fs := by
  have hcur : fs.cur s = fs.dinode := by
    unfold Fs.cur
    rw [← hd, update_eq_self]
  refine ⟨h.sb, hcur ▸ h.exact, hfull, h.uniq, ?_⟩
  intro t hl hv
  by_cases ht : t = s
  · subst t
    exact ⟨hd.symm, h.typed⟩
  · exact h.others t ht hl hv

variable {Q : Unit → Fs → Prop}

theorem wp_iupdate (h : Work fs s) (hfull : Full fs.data (fs.cur s))
    (hQ : ∀ gs, WellFormed gs → gs.itable = fs.itable → gs.dinode = fs.cur s →
      gs.data = fs.data → gs.sb = fs.sb → Q () gs) : wp (iupdate s) Q E fs := by
  simp only [iupdate, wp_modify]
  have hw : Work ((fs.setDinode (fs.itable s).inum (fs.itable s).d).logs
      (fs.iblock (fs.itable s).inum)) s := by
    refine ⟨h.sb, h.live, h.valid, h.typed, h.uniq, ?_, ?_⟩
    · intro t ht hl hv
      obtain ⟨hd, hty⟩ := h.others t ht hl hv
      have hne : (fs.itable t).inum ≠ (fs.itable s).inum := fun he => ht (h.uniq t s hl h.live he)
      exact ⟨hd.trans (cur_other hne).symm, hty⟩
    · have hcur : Fs.cur ((fs.setDinode (fs.itable s).inum (fs.itable s).d).logs
          (fs.iblock (fs.itable s).inum)) s = fs.cur s := by
        simp [Fs.cur, Fs.logs, Fs.setDinode]
      rw [hcur]
      exact h.exact
  have hself := @cur_self fs s
  exact hQ _ (hw.wellFormed hself hfull) rfl rfl rfl rfl

theorem setD_itable (d : Dinode) : (fs.setD s d).itable s = { fs.itable s with d := d } := by
  simp [Fs.setD, Fs.setInode]

theorem setD_cur (d : Dinode) (hi : i ≠ (fs.itable s).inum) :
    (fs.setD s d).cur s i = fs.cur s i := by
  rw [cur_other (by rw [setD_itable]; exact hi), cur_other hi]
  rfl

theorem setD_cur_self (d : Dinode) : (fs.setD s d).cur s (fs.itable s).inum = d := by
  have hself := @cur_self (fs.setD s d) s
  rwa [setD_itable] at hself

theorem setD_refs (ht : d.type = (fs.itable s).d.type) (ha : d.addrs = (fs.itable s).d.addrs) :
    refs fs.data ((fs.setD s d).cur s) = refs fs.data (fs.cur s) := by
  funext ⟨i, p⟩
  by_cases hi : i = (fs.itable s).inum
  · subst i
    simp only [refs, setD_cur_self, cur_self, ht]
    cases p <;> simp only [blockAt, ha]
  · exact refs_congr p (setD_cur d hi) fun _ => rfl

theorem Work.setD (h : Work fs s) (ht : d.type = (fs.itable s).d.type)
    (ha : d.addrs = (fs.itable s).d.addrs) : Work (fs.setD s d) s := by
  refine h.next rfl rfl (fun t hts => update_of_ne hts _ _) (setD_itable d)
    (by rw [ht]; exact h.typed) ?_
  have hd : (fs.setD s d).data = fs.data := rfl
  rw [hd, setD_refs ht ha]
  exact h.exact

theorem wp_setD_iupdate (h : Work fs s) (d : Dinode) (ht : d.type = (fs.itable s).d.type)
    (ha : d.addrs = (fs.itable s).d.addrs)
    (hself : Covers fs.data (fs.cur s) (fs.itable s).inum d.size)
    (hothers : ∀ i, i ≠ (fs.itable s).inum → (fs.dinode i).type ≠ none →
      Covers fs.data (fs.cur s) i (fs.dinode i).size)
    (hQ : ∀ gs, WellFormed gs → gs.itable = (fs.setD s d).itable →
      gs.dinode = (fs.setD s d).cur s → gs.data = fs.data → gs.sb = fs.sb → Q () gs) :
    wp (iupdate s) Q E (fs.setD s d) := by
  refine wp_iupdate (h.setD ht ha) ?_ fun gs hw hit hdin hdata hsb => hQ gs hw hit hdin hdata hsb
  intro i hty
  unfold Covers
  rw [show (fs.setD s d).data = fs.data from rfl, setD_refs ht ha]
  by_cases hi : i = (fs.itable s).inum
  · subst i
    rw [setD_cur_self]
    exact hself
  · rw [setD_cur _ hi, cur_other hi] at hty ⊢
    exact hothers i hi hty

structure SameTable (s : Fin NINODE) (fs gs : Fs) : Prop where
  sb : gs.sb = fs.sb
  others : ∀ t, t ≠ s → gs.itable t = fs.itable t
  entry : gs.itable s = { fs.itable s with d := (gs.itable s).d }

theorem WellFormed.wp_store (h : WellFormed fs) (hl : fs.live s) (hv : (fs.itable s).valid = true)
    (d : Dinode) (ht : d.type = (fs.itable s).d.type) (hs : d.size = (fs.itable s).d.size)
    (ha : d.addrs = (fs.itable s).d.addrs)
    (hQ : ∀ gs, WellFormed gs → SameTable s fs gs → gs.data = fs.data →
      gs.dinode (fs.itable s).inum = d →
      (∀ j, j ≠ (fs.itable s).inum → gs.dinode j = fs.dinode j) → Q () gs) :
    wp (iupdate s) Q E (fs.setD s d) := by
  have hcur := h.cur_eq hl hv
  have hcov := h.full (fs.itable s).inum
  rw [← hcur, cur_self] at hcov
  refine wp_setD_iupdate (h.work hl hv) d ht ha ?_ (fun i _ hti => ?_) fun gs hg hit hdin hdata hsb =>
    hQ gs hg ⟨hsb, fun t hts => ?_, ?_⟩ hdata ?_ fun j hj => ?_
  · rw [hs]
    exact hcov (h.table.cached s hl hv).2
  · rw [hcur]
    exact h.full i hti
  · rw [hit]
    exact update_of_ne hts _ _
  · rw [hit, setD_itable]
  · rw [hdin, setD_cur_self]
  · rw [hdin, setD_cur _ hj, hcur]

end Alloc

end Xv6Audit.FileSys
