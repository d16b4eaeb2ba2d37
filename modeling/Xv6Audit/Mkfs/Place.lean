import Xv6Audit.Mkfs.Format

/-! `iappend` against the kernel's own block allocation: with the inode appended to loaded in
a table entry, a half-built image is a file system the kernel could be working on, and every
block `iappend` adds is one that `bmap` could have added. -/
namespace Xv6Audit.Mkfs
open Function

open Prog Disk FileSys

def slot0 : Fin NINODE := ⟨0, by decide⟩

def Mk.view (st : Mk) (i : Nat) (din : Dinode) : Fs where
  sb := sb
  bitmap := fun b => decide (b < st.freeblock)
  data := st.sect
  dinode := dinodes sb st.sect
  itable := fun s =>
    if s = slot0 then ⟨i, 1, true, true, din⟩ else ⟨0, 0, false, false, unusedDinode⟩
  logged := []

def Mk.places (st : Mk) (i : Nat) (din : Dinode) : Nat × Pos → Nat :=
  refs st.sect (update (dinodes sb st.sect) i din)

section View
variable {st : Mk} {i : Nat} {din : Dinode}

@[simp] theorem view_self : (st.view i din).itable slot0 = ⟨i, 1, true, true, din⟩ := rfl

theorem places_eq : st.places i din = refs (st.view i din).data ((st.view i din).cur slot0) := rfl

theorem places_self (h : din.type ≠ none) (p : Pos) :
    st.places i din (i, p) = blockAt st.sect din p :=
  @refs_self (st.view i din) slot0 h st.sect p

end View

structure Same (fs gs : Fs) : Prop where
  sb : gs.sb = fs.sb
  bitmap : gs.bitmap = fs.bitmap
  data : gs.data = fs.data
  dinode : gs.dinode = fs.dinode
  itable : gs.itable = fs.itable

section Same
variable {fs gs hs : Fs} {s : Fin NINODE}

theorem Same.cur (h : Same fs gs) : gs.cur s = fs.cur s := by
  unfold Fs.cur
  rw [h.dinode, h.itable]

theorem Same.refs (h : Same fs gs) : refs gs.data (gs.cur s) = refs fs.data (fs.cur s) := by
  rw [h.data, h.cur]

theorem Same.work (h : Same fs gs) (hw : Work fs s) : Work gs s := by
  have hlive : ∀ t, gs.live t ↔ fs.live t := fun t => by
    unfold Fs.live
    rw [h.itable]
  refine ⟨h.sb ▸ hw.sb, (hlive s).mpr hw.live, ?_, ?_, ?_, ?_, ?_⟩
  · rw [h.itable]
    exact hw.valid
  · rw [h.itable]
    exact hw.typed
  · intro t u ht hu
    rw [h.itable]
    exact hw.uniq t u ((hlive t).mp ht) ((hlive u).mp hu)
  · intro t hts ht
    rw [h.itable, h.dinode]
    exact hw.others t hts ((hlive t).mp ht)
  · rw [h.sb, h.bitmap, h.data, h.cur]
    exact hw.exact

theorem Same.grows (h : Same gs hs) (hg : Grows s fs gs) : Grows s fs hs := by
  refine ⟨⟨h.sb.trans hg.sb, h.dinode.trans hg.dinode, ?_, ?_, ?_⟩, ?_, ?_⟩
  · rw [h.itable]
    exact hg.others
  · rw [h.itable]
    exact hg.entry
  · rw [h.data, h.cur]
    exact hg.refs
  · rw [h.data, h.itable]
    exact hg.keep
  · rw [h.bitmap]
    exact hg.used

end Same

/-! Sectors. -/

theorem seek_eq {sec : Nat} (h : sec ≤ FSSIZE) : seek sec = sec := by
  unfold seek FSSIZE BSIZE U32 at *
  omega

section Sectors
variable {st : Mk} {E : Stop → Mk → Prop}

theorem wp_rsect {sec : Nat} (hn : st.nsect = FSSIZE) (hs : sec < FSSIZE)
    {Q : Block → Mk → Prop} (hQ : Q (st.sect sec) st) : wp (rsect sec) Q E st := by
  simp only [rsect, wp_bind, wp_get, wp_ite, wp_pure, wp_throw, seek_eq (Nat.le_of_lt hs), hn]
  exact ⟨fun _ => hQ, fun hge => absurd hs hge⟩

theorem wp_rsect_end (hn : st.nsect = FSSIZE) {Q : Block → Mk → Prop}
    (hE : ∀ e, E e st) : wp (rsect FSSIZE) Q E st := by
  simp only [rsect, wp_bind, wp_get, wp_ite, wp_pure, wp_throw, seek_eq (Nat.le_refl _), hn]
  exact ⟨fun hlt => absurd hlt (Nat.lt_irrefl _), fun _ => hE _⟩

theorem wp_wsect {sec : Nat} (hs : sec ≤ FSSIZE) (buf : Block) {Q : Unit → Mk → Prop}
    (hQ : Q () (st.write sec buf)) : wp (wsect sec buf) Q E st := by
  simpa only [wsect, wp_modify, seek_eq hs] using hQ

theorem write_sect_self (b : Nat) (buf : Block) : (st.write b buf).sect b = buf :=
  update_self ..

theorem write_sect_ne {b c : Nat} (h : c ≠ b) (buf : Block) :
    (st.write b buf).sect c = st.sect c :=
  update_of_ne h _ _

theorem write_nsect (hn : st.nsect = FSSIZE) {b : Nat} (hb : b < FSSIZE) (buf : Block) :
    (st.write b buf).nsect = FSSIZE := by
  simp only [Mk.write, hn]
  omega

end Sectors

theorem iblock_lt {i : Nat} : i / IPB + sb.inodestart < sb.bmapstart ↔ i < 208 := by
  have h1 : sb.inodestart = 32 := rfl
  have h2 : sb.bmapstart = 45 := rfl
  have h3 : IPB = 16 := rfl
  rw [h1, h2, h3]
  omega

theorem dinodes_congr {sect sect' : Nat → Block} (h : ∀ b, b < nmeta → sect' b = sect b) :
    dinodes sb sect' = dinodes sb sect := by
  funext i
  unfold dinodes
  by_cases hi : i / IPB + sb.inodestart < sb.bmapstart
  · rw [if_pos hi, if_pos hi, h _ (Nat.lt_trans hi (by decide))]
  · rw [if_neg hi, if_neg hi]

structure Kept (st st' : Mk) : Prop where
  freeinode : st'.freeinode = st.freeinode
  inodeWrites : st'.inodeWrites = st.inodeWrites
  sect : ∀ b, b < nmeta → st'.sect b = st.sect b

theorem Kept.refl (st : Mk) : Kept st st := ⟨rfl, rfl, fun _ _ => rfl⟩

variable {st' : Mk}

theorem Kept.trans {st st'' : Mk} (h : Kept st st') (h' : Kept st' st'') : Kept st st'' :=
  ⟨h'.freeinode.trans h.freeinode, h'.inodeWrites.trans h.inodeWrites,
    fun b hb => (h'.sect b hb).trans (h.sect b hb)⟩

theorem Kept.write {st : Mk} {b : Nat} (hb : nmeta ≤ b) (buf : Block) : Kept st (st.write b buf) :=
  ⟨rfl, rfl, fun _ hc => write_sect_ne (by omega) buf⟩

structure Working (st : Mk) (i : Nat) (din : Dinode) : Prop where
  nsect : st.nsect = FSSIZE
  le : st.freeblock ≤ FSSIZE
  fresh : ∀ b, st.freeblock ≤ b → b < FSSIZE → st.sect b = Block.zero
  work : Work (st.view i din) slot0

section Working
variable {st : Mk} {i : Nat} {din : Dinode}

theorem Working.typed (h : Working st i din) : din.type ≠ none := h.work.typed

theorem sb_nmeta : sb.nmeta = nmeta := by decide

theorem Working.exact (h : Working st i din) :
    Alloc.Exact nmeta FSSIZE (fun b => decide (b < st.freeblock)) (st.places i din) := by
  have he := h.work.exact
  have hsb : (st.view i din).sb = sb := rfl
  rwa [hsb, sb_nmeta] at he

theorem Working.range (h : Working st i din) {q : Nat × Pos} (hq : st.places i din q ≠ 0) :
    nmeta ≤ st.places i din q ∧ st.places i din q < FSSIZE := h.exact.range q hq

theorem Working.used (h : Working st i din) {q : Nat × Pos} (hq : st.places i din q ≠ 0) :
    st.places i din q < st.freeblock := of_decide_eq_true (h.exact.used_ref hq)

theorem Working.free (_ : Working st i din) : (st.view i din).bitmap st.freeblock = false :=
  decide_eq_false (Nat.lt_irrefl _)

theorem Working.nmeta_le (h : Working st i din) : nmeta ≤ st.freeblock :=
  h.exact.lo_le_free h.free

end Working

structure Grew (st : Mk) (i : Nat) (din : Dinode) (p : Pos) (st' : Mk) (din' : Dinode) : Prop where
  inv : Working st' i din'
  grows : Grows slot0 (st.view i din) (st'.view i din')
  places : st'.places i din' = update (st.places i din) (i, p) st.freeblock
  count : st'.freeblock = st.freeblock + 1
  kept : Kept st st'

def Mk.next (st : Mk) : Mk := { st with freeblock := st.freeblock + 1 }

section Grew
variable {st : Mk} {i : Nat} {din : Dinode}

theorem next_bitmap (b : Nat) : update (fun b => decide (b < st.freeblock)) st.freeblock true b =
    decide (b < st.freeblock + 1) := by
  by_cases hb : b = st.freeblock
  · simp [hb]
  · rw [update_of_ne hb]
    exact decide_eq_decide.mpr (by omega)

theorem grew_addr (h : Working st i din) {k : Fin NADDRS} (hk : din.addrs k = 0)
    (hlt : st.freeblock < FSSIZE) : Grew st i din (.addr k) st.next
      { din with addrs := update din.addrs k st.freeblock } := by
  have hsame : Same ((st.view i din).growAddr slot0 k st.freeblock)
      (st.next.view i { din with addrs := update din.addrs k st.freeblock }) := by
    refine ⟨rfl, (funext next_bitmap).symm, ?_, rfl, ?_⟩
    · change st.sect = update st.sect st.freeblock Block.zero
      rw [← h.fresh _ (Nat.le_refl _) hlt, update_eq_self]
    · funext s
      by_cases hs : s = slot0
      · subst s
        rw [growAddr_itable]
        rfl
      · have : ((st.view i din).growAddr slot0 k st.freeblock).itable s = (st.view i din).itable s :=
          update_of_ne hs _ _
        rw [this]
        simp only [Mk.view, if_neg hs]
  refine ⟨⟨h.nsect, hlt, fun b hb => h.fresh b (Nat.le_of_succ_le hb),
    hsame.work (h.work.growAddr hk h.free hlt)⟩,
    hsame.grows (h.work.growAddr_grows hk h.free hlt), ?_, rfl, rfl, rfl, fun _ _ => rfl⟩
  rw [places_eq, hsame.refs]
  exact growAddr_refs h.work hk h.free hlt

theorem grew_entry (h : Working st i din) (j : Fin NINDIRECT) (h0 : din.addrs INDIRECT ≠ 0)
    (hj : (st.sect (din.addrs INDIRECT)).word j = 0) (hlt : st.freeblock < FSSIZE) :
    Grew st i din (.entry j) (st.next.write (din.addrs INDIRECT)
      ((st.sect (din.addrs INDIRECT)).setWord j st.freeblock)) din := by
  have hself : st.places i din (i, .addr INDIRECT) = din.addrs INDIRECT := places_self h.typed _
  have hr := h.range (q := (i, .addr INDIRECT)) (by rwa [hself])
  have hu := h.used (q := (i, .addr INDIRECT)) (by rwa [hself])
  rw [hself] at hr hu
  have hkept : Kept st (st.next.write (din.addrs INDIRECT)
      ((st.sect (din.addrs INDIRECT)).setWord j st.freeblock)) := by
    have hw : Kept st.next _ :=
      Kept.write hr.1 ((st.sect (din.addrs INDIRECT)).setWord j st.freeblock)
    exact ⟨hw.freeinode, hw.inodeWrites, hw.sect⟩
  have hsame : Same ((st.view i din).growEntry (din.addrs INDIRECT) j st.freeblock)
      ((st.next.write (din.addrs INDIRECT)
        ((st.sect (din.addrs INDIRECT)).setWord j st.freeblock)).view i din) := by
    refine ⟨rfl, (funext next_bitmap).symm, ?_, dinodes_congr hkept.sect, rfl⟩
    change update st.sect (din.addrs INDIRECT) _ =
      update (update st.sect st.freeblock Block.zero) (din.addrs INDIRECT) _
    rw [← h.fresh _ (Nat.le_refl _) hlt, update_eq_self]
    rfl
  refine ⟨⟨@write_nsect st.next h.nsect _ hr.2 _, hlt, fun b hb hlt' => ?_,
    hsame.work (h.work.growEntry j h0 hj h.free hlt)⟩,
    hsame.grows (h.work.growEntry_grows j h0 hj h.free hlt), ?_, rfl, hkept⟩
  · have hb' : st.freeblock ≤ b := Nat.le_of_succ_le hb
    rw [write_sect_ne (by omega)]
    exact h.fresh b hb' hlt'
  · rw [places_eq, hsame.refs]
    exact growEntry_refs h.work j h0 h.free hlt

end Grew

/-! One block of a file. -/

def newBlocks (R : Nat × Pos → Nat) (i fbn : Nat) (p : Pos) : Nat :=
  (if NDIRECT ≤ fbn ∧ R (i, .addr INDIRECT) = 0 then 1 else 0) + if R (i, p) = 0 then 1 else 0

structure Placed (st : Mk) (i : Nat) (din : Dinode) (fbn : Nat) (p : Pos) (st' : Mk)
    (din' : Dinode) : Prop where
  inv : Working st' i din'
  grows : Grows slot0 (st.view i din) (st'.view i din')
  there : blockAt st'.sect din' p ≠ 0
  places : ∀ q, q ≠ (i, p) → (NDIRECT ≤ fbn → q ≠ (i, .addr INDIRECT)) →
    st'.places i din' q = st.places i din q
  count : st'.freeblock = st.freeblock + newBlocks (st.places i din) i fbn p
  kept : Kept st st'

section Placed
variable {st : Mk} {i : Nat} {din : Dinode} {E : Stop → Mk → Prop}

variable {fbn : Nat} {p : Pos} {din' : Dinode}

theorem newBlocks_of_indirect {R : Nat × Pos → Nat} (p : Pos)
    (h : NDIRECT ≤ fbn → R (i, .addr INDIRECT) ≠ 0) :
    newBlocks R i fbn p = if R (i, p) = 0 then 1 else 0 := by
  rw [newBlocks, if_neg (fun hc => h hc.1 hc.2), Nat.zero_add]

section
variable (h : Working st i din)
include h

theorem Placed.refl (hind : NDIRECT ≤ fbn → st.places i din (i, .addr INDIRECT) ≠ 0)
    (hp : blockAt st.sect din p ≠ 0) : Placed st i din fbn p st din := by
  refine ⟨h, Grows.refl _ _, hp, fun _ _ _ => rfl, ?_, Kept.refl st⟩
  rw [newBlocks_of_indirect p hind, if_neg (by rwa [places_self h.typed]), Nat.add_zero]

theorem Grew.there (hg : Grew st i din p st' din') : blockAt st'.sect din' p ≠ 0 := by
  have hp := congrFun hg.places (i, p)
  rw [places_self hg.inv.typed, update_self] at hp
  have h1 := h.nmeta_le
  have h2 : 0 < nmeta := by decide
  omega

theorem Grew.then_newBlocks (hg : Grew st i din (.addr INDIRECT) st' din')
    (h0 : din.addrs INDIRECT = 0) (hfbn : NDIRECT ≤ fbn) (hq : (i, p) ≠ (i, Pos.addr INDIRECT)) :
    newBlocks (st.places i din) i fbn p = newBlocks (st'.places i din') i fbn p + 1 := by
  have hb := hg.there h
  rw [← places_self hg.inv.typed] at hb
  rw [newBlocks_of_indirect p fun _ => hb, newBlocks,
    if_pos ⟨hfbn, (places_self h.typed (.addr _)).trans h0⟩,
    hg.places, update_of_ne hq, Nat.add_comm]

theorem Grew.placed (hg : Grew st i din p st' din')
    (hind : NDIRECT ≤ fbn → st.places i din (i, .addr INDIRECT) ≠ 0)
    (hp : blockAt st.sect din p = 0) : Placed st i din fbn p st' din' := by
  refine ⟨hg.inv, hg.grows, hg.there h, fun q hq _ => ?_, ?_, hg.kept⟩
  · rw [hg.places, update_of_ne hq]
  · rw [newBlocks_of_indirect p hind, if_pos (by rwa [places_self h.typed]), hg.count]

theorem Grew.then_placed {st'' : Mk} {din'' : Dinode} (hg : Grew st i din (.addr INDIRECT) st' din')
    (h0 : din.addrs INDIRECT = 0) (hfbn : NDIRECT ≤ fbn) (hp : p ≠ .addr INDIRECT)
    (hpl : Placed st' i din' fbn p st'' din'') : Placed st i din fbn p st'' din'' := by
  have hq : (i, p) ≠ (i, Pos.addr INDIRECT) := fun he => hp (congrArg Prod.snd he)
  refine ⟨hpl.inv, hg.grows.trans hpl.grows h.typed, hpl.there, fun q hqp hqi => ?_, ?_,
    hg.kept.trans hpl.kept⟩
  · rw [hpl.places q hqp hqi, hg.places, update_of_ne (hqi hfbn)]
  · rw [hpl.count, hg.count, Grew.then_newBlocks h hg h0 hfbn hq]
    omega

theorem wp_entryBlock (hfbn : NDIRECT ≤ fbn) (j : Fin NINDIRECT) (h0 : din.addrs INDIRECT ≠ 0)
    {Q : Nat → Mk → Prop}
    (hQ : ∀ st', Placed st i din fbn (.entry j) st' din → Q (blockAt st'.sect din (.entry j)) st')
    (hend : FSSIZE < st.freeblock + newBlocks (st.places i din) i fbn (.entry j) →
      ∀ st', st'.nsect = FSSIZE → Q FSSIZE st') : wp (entryBlock din j) Q E st := by
  have hself : st.places i din (i, .addr INDIRECT) = din.addrs INDIRECT := places_self h.typed _
  have hind : NDIRECT ≤ fbn → st.places i din (i, .addr INDIRECT) ≠ 0 := by
    rw [hself]
    exact fun _ => h0
  have hr := h.range (hind hfbn)
  rw [hself] at hr
  have hat : blockAt st.sect din (.entry j) = (st.sect (din.addrs INDIRECT)).word j := by
    simp only [blockAt, h0, if_false]
  rw [entryBlock, wp_bind]
  refine wp_rsect h.nsect hr.2 ?_
  simp only [wp_ite, wp_bind, wp_pure, nextBlock, wp_get, wp_modify]
  refine ⟨fun hw => wp_wsect (Nat.le_of_lt hr.2) _ ?_, fun hw => ?_⟩
  · by_cases hlt : st.freeblock < FSSIZE
    · have hg := grew_entry h j h0 hw hlt
      have hb := congrFun hg.places (i, .entry j)
      rw [places_self hg.inv.typed, update_self] at hb
      have hq := hQ _ (hg.placed h hind (hat.trans hw))
      rwa [hb] at hq
    · have heq : st.freeblock = FSSIZE := Nat.le_antisymm h.le (Nat.le_of_not_lt hlt)
      rw [heq]
      refine hend ?_ _ ?_
      · rw [newBlocks_of_indirect _ hind, if_pos (by rw [places_self h.typed, hat, hw]), heq]
        exact Nat.lt_succ_self _
      · change max st.nsect (din.addrs INDIRECT + 1) = FSSIZE
        rw [h.nsect]
        exact Nat.max_eq_left hr.2
  · rw [← hat] at hw ⊢
    exact hQ _ (Placed.refl h hind hw)

theorem wp_blockFor (hp : posOf fbn = some p) {Q : Dinode × Nat → Mk → Prop}
    (hQ : ∀ st' din', Placed st i din fbn p st' din' → Q (din', blockAt st'.sect din' p) st')
    (hend : FSSIZE < st.freeblock + newBlocks (st.places i din) i fbn p →
      (∀ din' st', st'.nsect = FSSIZE → Q (din', FSSIZE) st') ∧ ∀ e st', E e st') :
    wp (blockFor din fbn) Q E st := by
  unfold blockFor
  unfold posOf at hp
  by_cases h1 : fbn < NDIRECT
  · rw [dif_pos h1] at hp ⊢
    obtain rfl := Option.some.inj hp
    have hind : NDIRECT ≤ fbn → st.places i din (i, .addr INDIRECT) ≠ 0 :=
      fun hle => absurd h1 (Nat.not_lt.mpr hle)
    simp only [addrBlock, nextBlock, wp_bind, wp_ite, wp_pure, wp_get, wp_modify]
    refine ⟨fun hk => ?_, fun hk => hQ st din (Placed.refl h hind hk)⟩
    by_cases hlt : st.freeblock < FSSIZE
    · exact hQ _ _ ((grew_addr h hk hlt).placed h hind hk)
    · have heq : st.freeblock = FSSIZE := Nat.le_antisymm h.le (Nat.le_of_not_lt hlt)
      rw [update_self, heq]
      refine (hend ?_).1 _ _ h.nsect
      rw [newBlocks_of_indirect _ hind, if_pos ((places_self h.typed (.addr _)).trans hk), heq]
      exact Nat.lt_succ_self _
  · rw [dif_neg h1] at hp ⊢
    have hfbn : NDIRECT ≤ fbn := Nat.le_of_not_lt h1
    by_cases h2 : fbn - NDIRECT < NINDIRECT
    · rw [dif_pos h2] at hp
      obtain rfl := Option.some.inj hp
      simp only [addrBlock, nextBlock, wp_bind, wp_ite, wp_pure, wp_get, wp_modify]
      refine ⟨fun hk => ?_, fun hk => ?_⟩
      · by_cases hlt : st.freeblock < FSSIZE
        · have hg := grew_addr h hk hlt
          refine wp_entryBlock hg.inv hfbn ⟨fbn - NDIRECT, h2⟩ (hg.there h)
            (fun st' hpl => hQ _ _ (hg.then_placed h hk hfbn (by simp) hpl)) fun hfull => ?_
          refine fun st' => (hend ?_).1 _ st'
          have hn := hg.then_newBlocks h hk hfbn (p := .entry ⟨fbn - NDIRECT, h2⟩) (by simp)
          rw [hg.count] at hfull
          omega
        · have heq : st.freeblock = FSSIZE := Nat.le_antisymm h.le (Nat.le_of_not_lt hlt)
          have hfull : FSSIZE < st.freeblock + newBlocks (st.places i din) i fbn
              (.entry ⟨fbn - NDIRECT, h2⟩) := by
            rw [newBlocks, if_pos ⟨hfbn, (places_self h.typed (.addr _)).trans hk⟩, heq]
            omega
          simp only [entryBlock, wp_bind, update_self, heq]
          refine wp_rsect_end ?_ fun e => (hend hfull).2 e _
          exact h.nsect
      · exact wp_entryBlock h hfbn ⟨fbn - NDIRECT, h2⟩ hk (fun st' hpl => hQ _ _ hpl)
          fun hfull => (hend hfull).1 _
    · rw [dif_neg h2] at hp
      cases hp

end

end Placed
end Xv6Audit.Mkfs
