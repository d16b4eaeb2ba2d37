import Xv6Audit.Mkfs.Place

/-! The loop of `iappend`: the bytes appended, and how many blocks they take. -/
namespace Xv6Audit.Mkfs

open Prog Disk FileSys

def blocksFor (size : Nat) : Nat :=
  (size + BSIZE - 1) / BSIZE + if NDIRECT * BSIZE < size then 1 else 0

structure Tight (R : Nat × Pos → Nat) (i size : Nat) : Prop where
  beyond : ∀ k p, posOf k = some p → size ≤ k * BSIZE → R (i, p) = 0
  indirect : size ≤ NDIRECT * BSIZE → R (i, .addr INDIRECT) = 0

variable {D : Nat → Dinode} {data : Nat → Block} {m off : Nat} {p : Pos}

theorem covers_ne_zero {i k : Nat} (h : Covers data D i m) (hp : posOf k = some p)
    (hk : k * BSIZE < m) :
    refs data D (i, p) ≠ 0 := by
  obtain ⟨q, hq, hne⟩ := h k hk
  obtain rfl := Option.some.inj (hp.symm.trans hq)
  exact hne

theorem refs_indirect {i : Nat} {j : Fin NINDIRECT} (h : refs data D (i, .entry j) ≠ 0) :
    refs data D (i, .addr INDIRECT) ≠ 0 := by
  unfold refs at *
  split at h
  · exact absurd rfl h
  · rename_i ht
    rw [if_neg ht]
    intro h0
    have h1 : (D i).addrs INDIRECT = 0 := h0
    simp [blockAt, h1] at h

theorem covers_indirect {i : Nat} (h : Covers data D i m) (hm : NDIRECT * BSIZE < m) :
    refs data D (i, .addr INDIRECT) ≠ 0 :=
  refs_indirect (covers_ne_zero h (p := .entry ⟨0, by decide⟩) rfl hm)

theorem covers_le {i : Nat} (h : Covers data D i m) : m ≤ MAXFILE * BSIZE := by
  by_contra hlt
  obtain ⟨p, hp, -⟩ := h MAXFILE (by omega)
  have hnone : posOf MAXFILE = none := rfl
  rw [hnone] at hp
  cases hp

theorem blocksFor_add {i n : Nat} (hc : Covers data D i off) (ht : Tight (refs data D) i off)
    (hp : posOf (off / BSIZE) = some p) (h0 : 0 < n) (hn : n ≤ (off / BSIZE + 1) * BSIZE - off) :
    blocksFor (off + n) = blocksFor off + newBlocks (refs data D) i (off / BSIZE) p := by
  have hceil : (off + n + BSIZE - 1) / BSIZE =
      (off + BSIZE - 1) / BSIZE + if refs data D (i, p) = 0 then 1 else 0 := by
    by_cases hoff : off ≤ off / BSIZE * BSIZE
    · rw [if_pos (ht.beyond _ _ hp hoff)]
      unfold BSIZE at *
      omega
    · rw [if_neg (covers_ne_zero hc hp (by omega))]
      unfold BSIZE at *
      omega
  have hind : (if NDIRECT * BSIZE < off + n then 1 else 0) = (if NDIRECT * BSIZE < off then 1 else 0) +
      if NDIRECT ≤ off / BSIZE ∧ refs data D (i, .addr INDIRECT) = 0 then 1 else 0 := by
    by_cases hlt : NDIRECT * BSIZE < off
    · rw [if_pos (by omega), if_pos hlt, if_neg fun hx => covers_indirect hc hlt hx.2]
    · rw [if_neg hlt, ht.indirect (by omega)]
      by_cases hle : NDIRECT ≤ off / BSIZE
      · have : NDIRECT * BSIZE < off + n := by
          unfold BSIZE at *
          omega
        rw [if_pos this, if_pos ⟨hle, rfl⟩]
      · have : ¬ NDIRECT * BSIZE < off + n := by
          unfold BSIZE at *
          omega
        rw [if_neg this, if_neg fun hx => hle hx.1]
  rw [blocksFor, blocksFor, hceil, hind, newBlocks]
  omega

theorem Tight.step {R R' : Nat × Pos → Nat} {i n : Nat} (ht : Tight R i off)
    (hp : posOf (off / BSIZE) = some p) (h0 : 0 < n)
    (hR : ∀ q, q ≠ (i, p) → (NDIRECT ≤ off / BSIZE → q ≠ (i, .addr INDIRECT)) → R' q = R q) :
    Tight R' i (off + n) := by
  refine ⟨fun k q hq hk => ?_, fun hle => ?_⟩
  · have hne : k ≠ off / BSIZE := by
      rintro rfl
      have := Nat.div_mul_le_self off BSIZE
      omega
    rw [hR]
    · exact ht.beyond k q hq (by omega)
    · rintro he
      obtain rfl : q = p := congrArg Prod.snd he
      exact hne (posOf_inj hq hp)
    · exact fun _ he => posOf_ne_indirect hq (congrArg Prod.snd he)
  · rw [hR]
    · exact ht.indirect (by omega)
    · exact fun he => posOf_ne_indirect hp (congrArg Prod.snd he).symm
    · intro hge
      unfold BSIZE at *
      omega

structure Appended (whole : List UInt8) (tot off : Nat) (st : Mk) (i : Nat) (din : Dinode)
    (st' : Mk) (r : Dinode × Nat) : Prop where
  inv : Working st' i r.1
  wrote : Wrote slot0 (fun j => whole[j]?) whole.length tot off (st.view i din)
    (whole.length, r.2) (st'.view i r.1)
  tight : Tight (st'.places i r.1) i r.2
  others : ∀ q : Nat × Pos, q.1 ≠ i → st'.places i r.1 q = st.places i din q
  count : st'.freeblock + blocksFor off = st.freeblock + blocksFor r.2
  kept : Kept st st'

section Loop
variable {st : Mk} {i : Nat} {din : Dinode}

theorem Working.write (h : Working st i din) (hp : p ≠ .addr INDIRECT)
    (hne : blockAt st.sect din p ≠ 0) (buf : Block) :
    Working (st.write (blockAt st.sect din p) buf) i din ∧
      (st.write (blockAt st.sect din p) buf).view i din =
        (st.view i din).setData (blockAt st.sect din p) buf ∧
      Kept st (st.write (blockAt st.sect din p) buf) := by
  have hself : st.places i din (i, p) = _ := places_self h.typed p
  rw [← hself] at hne ⊢
  have hr := h.range hne
  have hu := h.used hne
  have hkept : Kept st _ := Kept.write hr.1 buf
  have hview : (st.write (st.places i din (i, p)) buf).view i din =
      (st.view i din).setData (st.places i din (i, p)) buf := by
    simp only [Mk.view, dinodes_congr hkept.sect]
    rfl
  refine ⟨⟨write_nsect h.nsect hr.2 buf, h.le, fun b hb hlt => ?_, ?_⟩, hview, hkept⟩
  · rw [write_sect_ne (by have : st.freeblock ≤ b := hb; omega)]
    exact h.fresh b hb hlt
  · rw [hview, hself]
    rw [hself] at hne
    exact h.work.setData hp hne buf

variable {whole : List UInt8}

theorem take_get {tot : Nat} (j : Nat) (hj : j < ((whole.drop tot).take m).length) :
    whole[tot + j]? = some (((whole.drop tot).take m).get ⟨j, hj⟩) := by
  have h1 : j < m := by
    have := List.length_take_le m (whole.drop tot)
    omega
  rw [← List.getElem?_drop, ← List.getElem?_take_of_lt h1, List.getElem?_eq_getElem hj]
  rfl

theorem Appended.stop {tot : Nat} (h : Working st i din) (hsize : din.size ≤ off)
    (hc : Covers st.sect ((st.view i din).cur slot0) i off) (ht : Tight (st.places i din) i off)
    (htot : whole.length = tot) :
    Appended whole tot off st i din st (din, off) := by
  refine ⟨h, ?_, ht, fun _ _ => rfl, rfl, Kept.refl st⟩
  rw [htot]
  refine Wrote.stop h.work (Extends.refl _ _) _ (Nat.le_refl _) ?_ (fun hlt => by omega)
    fun _ _ _ _ => rfl
  rw [view_self, Nat.max_eq_right hsize]
  exact hc

structure Round (whole : List UInt8) (tot off m : Nat) (st : Mk) (i : Nat) (din : Dinode)
    (st' : Mk) (din' : Dinode) : Prop where
  inv : Working st' i din'
  covers : Covers st'.sect ((st'.view i din').cur slot0) i (off + m)
  tight : Tight (st'.places i din') i (off + m)
  count : st'.freeblock + blocksFor off = st.freeblock + blocksFor (off + m)
  rest : ∀ st'' r, Appended whole (tot + m) (off + m) st' i din' st'' r →
    Appended whole tot off st i din st'' r

theorem Placed.round {tot : Nat} {st1 : Mk} {din1 : Dinode} (h : Working st i din)
    (hc : Covers st.sect ((st.view i din).cur slot0) i off) (ht : Tight (st.places i din) i off)
    (hp : posOf (off / BSIZE) = some p) (hpl : Placed st i din (off / BSIZE) p st1 din1)
    (htot : tot < whole.length)
    (hm : m = min (whole.length - tot) ((off / BSIZE + 1) * BSIZE - off)) :
    Round whole tot off m st i din (st1.write (blockAt st1.sect din1 p)
      (bcopy ((whole.drop tot).take m) (st1.sect (blockAt st1.sect din1 p))
        (off - off / BSIZE * BSIZE))) din1 := by
  have hroom : (off / BSIZE + 1) * BSIZE - off = BSIZE - off % BSIZE := by
    unfold BSIZE
    omega
  have hmod : off - off / BSIZE * BSIZE = off % BSIZE := by
    unfold BSIZE
    omega
  have h0 : 0 < m := by
    have : off % BSIZE < BSIZE := Nat.mod_lt _ (by decide)
    omega
  have hni := posOf_ne_indirect hp
  obtain ⟨hinv, hview, hkept⟩ := hpl.inv.write hni hpl.there
    (bcopy ((whole.drop tot).take m) (st1.sect (blockAt st1.sect din1 p)) (off - off / BSIZE * BSIZE))
  have hlen : ((whole.drop tot).take m).length = m := by
    rw [List.length_take, List.length_drop]
    omega
  have hcopy := copyin_eq_bcopy (fun j => whole[j]?) ((whole.drop tot).take m)
    (st1.sect (blockAt st1.sect din1 p)) (off % BSIZE) tot take_get
  rw [hlen, ← hmod] at hcopy
  generalize bcopy ((whole.drop tot).take m) (st1.sect (blockAt st1.sect din1 p))
    (off - off / BSIZE * BSIZE) = buf at *
  have hplaces : (st1.write (blockAt st1.sect din1 p) buf).places i din1 = st1.places i din1 := by
    rw [places_eq, hview]
    exact setData_refs hpl.inv.work hni hpl.there buf
  have hR : ∀ q, q ≠ (i, p) → (NDIRECT ≤ off / BSIZE → q ≠ (i, .addr INDIRECT)) →
      (st1.write (blockAt st1.sect din1 p) buf).places i din1 q = st.places i din q := by
    intro q h1 h2
    rw [hplaces, hpl.places q h1 h2]
  have hcount : st1.freeblock + blocksFor off = st.freeblock + blocksFor (off + m) := by
    have hadd : blocksFor (off + m) =
        blocksFor off + newBlocks (st.places i din) i (off / BSIZE) p :=
      blocksFor_add hc ht hp h0 (by omega)
    rw [hpl.count, hadd]
    omega
  refine ⟨hinv, ?_, ht.step hp h0 hR, hcount, ?_⟩
  · have hoff := hpl.grows.toExtends.covers hc
    rw [← Nat.zero_max off] at hoff
    have hcov := covers_step hpl.inv.work hoff hp hpl.there m (by omega)
    rw [Nat.zero_max] at hcov
    have hext : Extends slot0 (st1.view i din1)
        ((st1.view i din1).setData (blockAt st1.sect din1 p) buf) :=
      hpl.inv.work.setData_extends hni hpl.there buf
    rw [← hview] at hext
    exact hext.covers hcov
  · intro st'' r hr
    refine ⟨hr.inv, ?_, hr.tight, fun q hq => ?_, ?_, (hpl.kept.trans hkept).trans hr.kept⟩
    · rw [hmod] at hcopy
      exact Wrote.step (c := (buf, true)) h.work hpl.inv.work hpl.grows hp hpl.there
        (by omega) htot hcopy.symm rfl hview hr.wrote
    · rw [hr.others q hq, hR q (fun he => hq (congrArg Prod.fst he))
        fun _ he => hq (congrArg Prod.fst he)]
    · have hrest := hr.count
      change st''.freeblock + blocksFor (off + m) = st1.freeblock + blocksFor r.2 at hrest
      omega

theorem blocksFor_mono {a b : Nat} (h : a ≤ b) : blocksFor a ≤ blocksFor b := by
  unfold blocksFor
  have hdiv : (a + BSIZE - 1) / BSIZE ≤ (b + BSIZE - 1) / BSIZE := Nat.div_le_div_right (by omega)
  split <;> split <;> omega

theorem wp_appendLoop (h : Working st i din) (whole : List UInt8) (fuel tot off : Nat)
    (hsize : din.size ≤ off) (hc : Covers st.sect ((st.view i din).cur slot0) i off)
    (ht : Tight (st.places i din) i off) (htot : tot ≤ whole.length)
    (hfuel : whole.length ≤ tot + fuel) :
    wp (appendLoop fuel din off (whole.drop tot))
      (fun r st' => Appended whole tot off st i din st' r)
      (fun _ _ => ¬ (off + (whole.length - tot) ≤ MAXFILE * BSIZE ∧
        st.freeblock + blocksFor (off + (whole.length - tot)) ≤ FSSIZE + blocksFor off)) st := by
  induction fuel generalizing st din tot off with
  | zero => exact Appended.stop h hsize hc ht (by omega)
  | succ fuel ih =>
    simp only [appendLoop, wp_ite, wp_bind, wp_throw, wp_pure, List.length_drop]
    refine ⟨fun hlt => ⟨fun hfbn => ?_, fun hfbn hfit => hfbn ?_⟩,
      fun hge => Appended.stop h hsize hc ht (by omega)⟩
    · obtain ⟨p, hp⟩ := posOf_isSome hfbn
      obtain ⟨m, hm⟩ : ∃ m, m = min (whole.length - tot) ((off / BSIZE + 1) * BSIZE - off) := ⟨_, rfl⟩
      have h0 : 0 < m := by
        have := Nat.lt_div_mul_add (a := off) (b := BSIZE) (by decide)
        rw [Nat.add_mul] at hm
        omega
      have hmono : blocksFor (off + m) ≤ blocksFor (off + (whole.length - tot)) :=
        blocksFor_mono (by omega)
      rw [← hm]
      refine wp_blockFor h hp (fun st1 din1 hpl => ?_) fun hfull => ?_
      · have hself : st1.places i din1 (i, p) = _ := places_self hpl.inv.typed p
        have hr := hpl.inv.range (q := (i, p)) (by rw [hself]; exact hpl.there)
        rw [hself] at hr
        refine wp_rsect hpl.inv.nsect hr.2 (wp_wsect (Nat.le_of_lt hr.2) _ ?_)
        have hround := hpl.round h hc ht hp (by omega) hm
        rw [List.drop_drop]
        have hd : din1.size = din.size := hpl.grows.size
        refine wp_mono (ih hround.inv (tot + m) (off + m) (by rw [hd]; omega) hround.covers hround.tight
          (by omega) (by omega)) (fun r st' => hround.rest st' r) fun _ _ hno hfit => hno ?_
        have hend : off + m + (whole.length - (tot + m)) = off + (whole.length - tot) := by omega
        have hcount := hround.count
        rw [hend]
        exact ⟨hfit.1, by omega⟩
      · -- the image is full
        have hover : ¬ (off + (whole.length - tot) ≤ MAXFILE * BSIZE ∧
            st.freeblock + blocksFor (off + (whole.length - tot)) ≤ FSSIZE + blocksFor off) := by
          intro hfit
          have hadd : blocksFor (off + m) =
              blocksFor off + newBlocks (st.places i din) i (off / BSIZE) p :=
            blocksFor_add hc ht hp h0 (by omega)
          omega
        exact ⟨fun din' st' hn => wp_rsect_end hn fun _ => hover, fun _ _ => hover⟩
    · have h1 := hfit.1
      unfold BSIZE at *
      omega

end Loop
end Xv6Audit.Mkfs
