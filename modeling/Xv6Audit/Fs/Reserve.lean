import Xv6Audit.Fs.FileBytes
import Xv6Audit.Log.Ops

/-! The blocks one `writei` gives to the log, against the share of the log that `begin_op`
reserves for an operation. -/
namespace Xv6Audit.FileSys

open Prog Disk

def Fs.ind (fs : Fs) (s : Fin NINODE) : Nat := (fs.itable s).d.addrs INDIRECT

structure Logs (s : Fin NINODE) (fs : Fs) (data : List Nat) (gs : Fs) : Prop where
  sb : gs.sb = fs.sb
  inum : (gs.itable s).inum = (fs.itable s).inum
  ind : fs.ind s ≠ 0 → gs.ind s = fs.ind s
  new : ∃ new, gs.logged = new ++ fs.logged ∧ ∀ b ∈ new,
    b = fs.sb.bmapstart ∨ b ∈ data ∨ gs.ind s ≠ 0 ∧ b = gs.ind s

section Logs
variable {s : Fin NINODE} {fs gs ks : Fs} {E : String → Fs → Prop} {xs ys : List Nat}

theorem Logs.refl (s : Fin NINODE) (fs : Fs) (data : List Nat) : Logs s fs data fs :=
  ⟨rfl, rfl, fun _ => rfl, [], rfl, fun b hb => by cases hb⟩

theorem Logs.mono (h : Logs s fs xs gs) (hsub : xs ⊆ ys) : Logs s fs ys gs := by
  obtain ⟨new, hnew, hmem⟩ := h.new
  refine ⟨h.sb, h.inum, h.ind, new, hnew, fun b hb => ?_⟩
  exact (hmem b hb).imp_right (Or.imp_left fun hx => hsub hx)

theorem Logs.trans (h : Logs s fs xs gs) (h' : Logs s gs ys ks) : Logs s fs (xs ++ ys) ks := by
  obtain ⟨new, hnew, hmem⟩ := h.new
  obtain ⟨new', hnew', hmem'⟩ := h'.new
  refine ⟨h'.sb.trans h.sb, h'.inum.trans h.inum, ?_, new' ++ new, ?_, ?_⟩
  · intro h0
    rw [h'.ind (by rw [h.ind h0]; exact h0), h.ind h0]
  · rw [hnew', hnew, List.append_assoc]
  · intro b hb
    obtain hb | hb := List.mem_append.mp hb
    · obtain he | he | he := hmem' b hb
      · exact .inl (he.trans (by rw [h.sb]))
      · exact .inr (.inl (List.mem_append_right _ he))
      · exact .inr (.inr he)
    · obtain he | he | he := hmem b hb
      · exact .inl he
      · exact .inr (.inl (List.mem_append_left _ he))
      · refine .inr (.inr ?_)
        rw [h'.ind he.1]
        exact he

theorem Logs.log (fs : Fs) (b : Nat) (v : Block) : Logs s fs [b] ((fs.setData b v).logs b) := by
  refine ⟨rfl, rfl, fun _ => rfl, [b], rfl, fun c hc => ?_⟩
  exact .inr (.inl hc)

theorem Logs.setData {b : Nat} {v : Block} (h : Logs s fs xs gs) : Logs s fs xs (gs.setData b v) :=
  ⟨h.sb, h.inum, h.ind, h.new⟩

theorem wp_balloc_logs (hsize : fs.sb.size ≤ BPB) :
    wp balloc (fun b gs => Logs s fs [b] gs ∧ gs.itable = fs.itable) E fs := by
  refine wp_balloc ⟨Logs.refl s fs _, rfl⟩ fun b hlt _ => ⟨?_, rfl⟩
  refine ⟨rfl, rfl, fun _ => rfl, [b, fs.bblock b], rfl, fun c hc => ?_⟩
  have hbm : fs.bblock b = fs.sb.bmapstart := by
    unfold Fs.bblock
    rw [Nat.div_eq_of_lt (by omega), Nat.zero_add]
  simp only [List.mem_cons, List.not_mem_nil, or_false] at hc
  obtain rfl | rfl := hc
  · exact .inr (.inl List.mem_cons_self)
  · exact .inl hbm

theorem setAddr_ind (fs : Fs) (s : Fin NINODE) (k : Fin NADDRS) (b : Nat) :
    (fs.setAddr s k b).ind s = if INDIRECT = k then b else fs.ind s := by
  simp [Fs.ind, Fs.setAddr, Fs.setD, Fs.setInode, Function.update_apply]

theorem setAddr_inum (fs : Fs) (s : Fin NINODE) (k : Fin NADDRS) (b : Nat) :
    ((fs.setAddr s k b).itable s).inum = (fs.itable s).inum := by
  simp [Fs.setAddr, Fs.setD, Fs.setInode]

theorem Logs.absorb {b : Nat} (h : Logs s fs [b] gs) (h0 : b ≠ 0) (hi : gs.ind s = b) :
    Logs s fs [] gs := by
  obtain ⟨new, hnew, hmem⟩ := h.new
  refine ⟨h.sb, h.inum, h.ind, new, hnew, fun c hc => ?_⟩
  obtain he | he | he := hmem c hc
  · exact .inl he
  · rw [List.mem_singleton.mp he, ← hi]
    exact .inr (.inr ⟨by rw [hi]; exact h0, rfl⟩)
  · exact .inr (.inr he)

theorem Logs.setAddr {k : Fin NADDRS} {b : Nat} (h : Logs s fs xs gs) (hit : gs.itable = fs.itable)
    (hk : (fs.itable s).d.addrs k = 0) : Logs s fs xs (gs.setAddr s k b) := by
  obtain ⟨new, hnew, hmem⟩ := h.new
  have hind : fs.ind s ≠ 0 → (gs.setAddr s k b).ind s = gs.ind s := by
    intro h0
    rw [setAddr_ind, if_neg]
    rintro rfl
    exact h0 hk
  have hsame : gs.ind s = fs.ind s := by rw [Fs.ind, Fs.ind, hit]
  refine ⟨h.sb, (setAddr_inum gs s k b).trans h.inum, fun h0 => (hind h0).trans hsame, new, hnew, ?_⟩
  intro c hc
  obtain he | he | he := hmem c hc
  · exact .inl he
  · exact .inr (.inl he)
  · rw [hind (hsame ▸ he.1)]
    exact .inr (.inr he)

section
variable (hsize : fs.sb.size ≤ BPB)
include hsize

theorem wp_addrBlock_logs (k : Fin NADDRS) :
    wp (addrBlock s k) (fun b gs => Logs s fs [b] gs ∧ (k = INDIRECT → b ≠ 0 → gs.ind s = b))
      E fs := by
  simp only [addrBlock, wp_bind, wp_get, wp_ite, wp_pure]
  refine ⟨fun hk => wp_post (@wp_balloc_logs s fs E hsize) ?_, fun _ => ⟨Logs.refl s fs _, ?_⟩⟩
  · rintro b gs ⟨hg, hit⟩
    refine ⟨fun h0 => ⟨h0 ▸ hg, fun _ h0 => absurd rfl h0⟩, fun h0 => ⟨hg.setAddr hit hk, ?_⟩⟩
    rintro rfl -
    rw [setAddr_ind, if_pos rfl]
  · rintro rfl h0
    rfl

theorem wp_entryBlock_logs (j : Nat) (h0 : fs.ind s ≠ 0) :
    wp (entryBlock (fs.ind s) j) (fun b gs => Logs s fs [b] gs) E fs := by
  simp only [entryBlock, wp_bind, wp_get, wp_ite, wp_pure]
  refine ⟨fun _ => wp_post (@wp_balloc_logs s fs E hsize) ?_, fun _ => Logs.refl s fs _⟩
  rintro b gs ⟨hg, hit⟩
  refine ⟨fun hb => hb ▸ hg, fun _ => ?_⟩
  have hsame : gs.ind s = fs.ind s := by rw [Fs.ind, Fs.ind, hit]
  obtain ⟨new, hnew, hmem⟩ := hg.new
  refine ⟨hg.sb, hg.inum, hg.ind, fs.ind s :: new, by rw [List.cons_append, ← hnew]; rfl, ?_⟩
  intro c hc
  obtain rfl | hc := List.mem_cons.mp hc
  · exact .inr (.inr ⟨hsame ▸ h0, hsame.symm⟩)
  · exact hmem c hc

theorem wp_bmap_logs {bn : Nat} (hbn : bn < MAXFILE) :
    wp (bmap s bn) (fun b gs => Logs s fs [b] gs) E fs := by
  unfold bmap
  by_cases h1 : bn < NDIRECT
  · rw [dif_pos h1]
    exact wp_post (wp_addrBlock_logs hsize _) fun _ _ hg => hg.1
  · have h2 : bn - NDIRECT < NINDIRECT := by
      unfold MAXFILE at hbn
      omega
    rw [dif_neg h1, if_pos h2, wp_bind]
    refine wp_post (wp_addrBlock_logs hsize INDIRECT) ?_
    rintro addr gs ⟨hg, hind⟩
    rw [wp_ite]
    refine ⟨fun h0 => h0 ▸ hg, fun h0 => ?_⟩
    obtain rfl := hind rfl h0
    refine wp_post (wp_entryBlock_logs (by rw [hg.sb]; exact hsize) _ h0) ?_
    intro b ks hk
    exact (hg.absorb h0 rfl).trans hk

theorem wp_writeLoop_logs (src : Nat → Option UInt8) {n : Nat} (fuel tot off : Nat)
    (hbound : off + (n - tot) ≤ MAXFILE * BSIZE) :
    wp (writeLoop s src n fuel tot off) (fun _ gs => ∃ data : List Nat,
      data.length ≤ (touched off (n - tot)).length ∧ Logs s fs data gs) E fs := by
  induction fuel generalizing fs tot off with
  | zero => exact ⟨[], Nat.zero_le _, Logs.refl s fs _⟩
  | succ fuel ih =>
    simp only [writeLoop, wp_ite, wp_bind, wp_pure, wp_get, wp_set, wp_modify]
    refine ⟨fun hlt => ?_, fun _ => ⟨[], Nat.zero_le _, Logs.refl s fs _⟩⟩
    have hbn : off / BSIZE < MAXFILE := by
      refine Nat.div_lt_of_lt_mul ?_
      rw [Nat.mul_comm]
      omega
    obtain ⟨m, hm⟩ : ∃ m, m = min (n - tot) (BSIZE - off % BSIZE) := ⟨_, rfl⟩
    have hm0 : 0 < m := by
      have : off % BSIZE < BSIZE := Nat.mod_lt _ (by decide)
      omega
    rw [← hm, touched_cons (m := m) (by omega) (by omega) hm0 (by omega), List.length_cons]
    refine wp_post (wp_bmap_logs hsize hbn) ?_
    intro b gs hg
    have hone : [b].length ≤ (touched (off + m) (n - tot - m)).length + 1 := Nat.le_add_left 1 _
    refine ⟨fun _ => ⟨[b], hone, hg⟩, fun _ => ⟨fun _ => ?_, fun _ => ⟨[b], hone, hg.setData⟩⟩⟩
    have hround := (hg.trans (Logs.log gs b (copyin src (gs.data b) (off % BSIZE) tot m).1)).mono
      (by simp : _ ⊆ [b])
    refine wp_post (ih (by rw [hround.sb]; exact hsize) (tot + m) (off + m) (by omega)) ?_
    rintro r ks ⟨data, hlen, hk⟩
    have hrest : n - (tot + m) = n - tot - m := by omega
    rw [hrest] at hlen
    exact ⟨b :: data, Nat.succ_le_succ hlen, hround.trans hk⟩

end

theorem touched_length {off n k : Nat} (h : n ≤ k * BSIZE) : (touched off n).length ≤ k + 1 := by
  unfold touched
  split
  · exact Nat.zero_le _
  · rw [List.length_range']
    have hend : (off + n - 1) / BSIZE ≤ off / BSIZE + k := by
      have hle : off + n - 1 < (off / BSIZE + k + 1) * BSIZE := by
        have := Nat.div_add_mod off BSIZE
        have : off % BSIZE < BSIZE := Nat.mod_lt _ (by decide)
        have hexp : (off / BSIZE + k + 1) * BSIZE = BSIZE * (off / BSIZE) + k * BSIZE + BSIZE := by ring
        omega
      have := (Nat.div_lt_iff_lt_mul (by decide)).mpr hle
      omega
    omega

theorem Logs.blocks {fs gs : Fs} {data : List Nat} (h : Logs s fs data gs) (d : Dinode) :
    ∃ new, ((((gs.setD s d).setDinode ((gs.setD s d).itable s).inum
      ((gs.setD s d).itable s).d)).logs ((gs.setD s d).iblock ((gs.setD s d).itable s).inum)).logged =
        new ++ fs.logged ∧ new.toFinset.card ≤ data.length + 3 := by
  obtain ⟨new, hnew, hmem⟩ := h.new
  refine ⟨(gs.setD s d).iblock ((gs.setD s d).itable s).inum :: new, ?_, ?_⟩
  · rw [List.cons_append, ← hnew]
    rfl
  · have hsub : (((gs.setD s d).iblock ((gs.setD s d).itable s).inum) :: new).toFinset ⊆
        ((gs.setD s d).iblock ((gs.setD s d).itable s).inum :: fs.sb.bmapstart :: gs.ind s ::
          data).toFinset := by
      intro b hb
      simp only [List.mem_toFinset, List.mem_cons] at hb ⊢
      obtain hb | hb := hb
      · exact .inl hb
      · obtain he | he | he := hmem b hb
        · exact .inr (.inl he)
        · exact .inr (.inr (.inr he))
        · exact .inr (.inr (.inl he.2))
    exact (Finset.card_le_card hsub).trans (List.toFinset_card_le _)

theorem wp_writei_logs (hsize : fs.sb.size ≤ BPB) (src : Nat → Option UInt8) {off n k : Nat}
    (hn : n ≤ k * BSIZE) (hn32 : n < U32) :
    wp (writei s src off n) (fun _ gs => ∃ new, gs.logged = new ++ fs.logged ∧
      new.toFinset.card ≤ k + 1 + 3) E fs := by
  simp only [writei, wp_bind, wp_get, wp_ite, wp_pure, wp_modify]
  have hnone : ∃ new, fs.logged = new ++ fs.logged ∧ new.toFinset.card ≤ k + 1 + 3 :=
    ⟨[], rfl, Nat.zero_le _⟩
  refine ⟨fun _ => hnone, fun hoff => ⟨fun _ => hnone, fun hmax => ?_⟩⟩
  have hsum : off + n ≤ MAXFILE * BSIZE := by
    unfold U32 at *
    omega
  refine wp_post (wp_writeLoop_logs hsize src n 0 off (by omega)) ?_
  rintro ⟨tot, off'⟩ gs ⟨data, hlen, hg⟩
  have hdata := hlen.trans (touched_length hn)
  rw [setD_size]
  simp only [iupdate, wp_modify]
  obtain ⟨new, hnew, hcard⟩ := hg.blocks { (gs.itable s).d with size := max (gs.itable s).d.size off' }
  exact ⟨new, hnew, by omega⟩

end Logs

/-- On a disk with one block of free map, the `writei` for one chunk of `filewrite` or
`kfilewrite` gives at most `MAXOPBLOCKS` distinct blocks to the log, however it ends. -/
theorem chunk_fits_reservation (fs : Fs) (hsize : fs.sb.size ≤ BPB) (s : Fin NINODE)
    (src : Nat → Option UInt8) (off n : UInt32)
    (hn : n.toNat ≤ (Log.MAXOPBLOCKS - 1 - 1 - 2) / 2 * BSIZE) :
    ∃ new, (writei s src off.toNat n.toNat fs).2.logged = new ++ fs.logged ∧
      new.toFinset.card ≤ Log.MAXOPBLOCKS := by
  have hlogs : wp (writei s src off.toNat n.toNat) _ (fun _ _ => False) fs :=
    wp_writei_logs hsize src hn n.toNat_lt
  obtain ⟨r, gs, hr, new, hnew, hcard⟩ | ⟨_, _, _, he⟩ := wp_cases hlogs
  · rw [hr]
    exact ⟨new, hnew, hcard.trans (by decide)⟩
  · exact he.elim

/-- Three blocks to a file of a new image. -/
theorem chunk_fits_reservation_blank : ∃ new,
    (writei 0 (fun _ => some 7) (0 : UInt32).toNat (3072 : UInt32).toNat blankFs).2.logged =
      new ++ blankFs.logged ∧ new.toFinset.card ≤ Log.MAXOPBLOCKS :=
  chunk_fits_reservation blankFs (by decide) 0 (fun _ => some 7) 0 3072 (by decide)

end Xv6Audit.FileSys
