import Mathlib.Algebra.BigOperators.Group.Finset.Basic
import Mathlib.Algebra.Order.BigOperators.Group.Finset
import Xv6Audit.Mkfs.Iappend

/-! A half-built image, and what each call of `main` adds to it. -/
namespace Xv6Audit.Mkfs
open Function

open Prog Disk FileSys

def Mk.dinode (st : Mk) : Nat → Dinode := dinodes sb st.sect

def Mk.refs (st : Mk) : Nat × Pos → Nat := FileSys.refs st.sect st.dinode

structure Image (st : Mk) (f : Nat → List UInt8) : Prop where
  nsect : st.nsect = FSSIZE
  inodes : 1 ≤ st.freeinode ∧ st.freeinode ≤ 208
  le : st.freeblock ≤ FSSIZE
  fresh : ∀ b, st.freeblock ≤ b → b < FSSIZE → st.sect b = Block.zero
  exact : Alloc.Exact nmeta FSSIZE (fun b => decide (b < st.freeblock)) st.refs
  typed : ∀ i, (st.dinode i).type ≠ none ↔ 1 ≤ i ∧ i < st.freeinode
  size : ∀ i, (st.dinode i).type ≠ none → (st.dinode i).size = (f i).length
  full : Full st.sect st.dinode
  tight : ∀ i, (st.dinode i).type ≠ none → Tight st.refs i (f i).length
  content : ∀ i, (st.dinode i).type ≠ none → ∀ k, k < (f i).length →
    (f i)[k]? = some (content st.sect st.dinode i k)
  count : st.freeblock = nmeta + ∑ i ∈ Finset.range st.freeinode, blocksFor (f i).length
  writes : ∀ b ∈ st.inodeWrites, b < sb.bmapstart
  superblock : st.sect 1 = superblock

structure Room (f : Nat → List UInt8) (n : Nat) : Prop where
  size : ∀ i, (f i).length ≤ MAXFILE * BSIZE
  total : nmeta + ∑ i ∈ Finset.range n, blocksFor (f i).length ≤ FSSIZE

theorem Room.mono {f g : Nat → List UInt8} {m n : Nat} (h : Room g n)
    (hf : ∀ i, (f i).length ≤ (g i).length) (hmn : m ≤ n) : Room f m := by
  refine ⟨fun i => (hf i).trans (h.size i), le_trans (Nat.add_le_add_left ?_ nmeta) h.total⟩
  calc ∑ i ∈ Finset.range m, blocksFor (f i).length
      ≤ ∑ i ∈ Finset.range n, blocksFor (f i).length :=
        Finset.sum_le_sum_of_subset (Finset.range_mono hmn)
    _ ≤ ∑ i ∈ Finset.range n, blocksFor (g i).length :=
        Finset.sum_le_sum fun i _ => blocksFor_mono (hf i)

/-! Stores to the metadata. -/

variable {D D' : Nat → Dinode} {data data' : Nat → Block} {d : Dinode}

theorem refs_of_meta (hdata : ∀ b, b = 0 ∨ nmeta ≤ b → data' b = data b)
    (hD : ∀ j, (D' j).type = (D j).type ∧ (D' j).addrs = (D j).addrs)
    (hr : ∀ q, refs data D q ≠ 0 → nmeta ≤ refs data D q) : refs data' D' = refs data D := by
  funext ⟨j, p⟩
  unfold FileSys.refs
  rw [(hD j).1]
  by_cases ht : (D j).type = none
  · rw [if_pos ht, if_pos ht]
  · rw [if_neg ht, if_neg ht]
    cases p with
    | addr k => exact congrFun (hD j).2 k
    | entry l =>
      simp only [blockAt, (hD j).2]
      by_cases h0 : (D j).addrs INDIRECT = 0
      · rw [if_pos h0, if_pos h0]
      · have hj := hr (j, .addr INDIRECT)
        simp only [FileSys.refs, ht, if_false, blockAt] at hj
        rw [if_neg h0, if_neg h0, hdata _ (.inr (hj h0))]

theorem content_of_meta (hdata : ∀ b, b = 0 ∨ nmeta ≤ b → data' b = data b)
    (hr : ∀ q, refs data D q ≠ 0 → nmeta ≤ refs data D q) (he : refs data' D' = refs data D)
    (i k : Nat) : content data' D' i k = content data D i k := by
  unfold FileSys.content
  rw [he]
  cases posOf (k / BSIZE) with
  | none => rfl
  | some p =>
    have hb : refs data D (i, p) = 0 ∨ nmeta ≤ refs data D (i, p) := by
      by_cases h0 : refs data D (i, p) = 0
      · exact .inl h0
      · exact .inr (hr _ h0)
    simp only [hdata _ hb]

theorem covers_of_refs {i m : Nat} (he : refs data' D' = refs data D) (h : Covers data D i m) :
    Covers data' D' i m := by
  intro k hk
  rw [he]
  exact h k hk

structure Stored (st : Mk) (i : Nat) (d : Dinode) (st' : Mk) : Prop where
  nsect : st'.nsect = st.nsect
  freeinode : st'.freeinode = st.freeinode
  freeblock : st'.freeblock = st.freeblock
  writes : st'.inodeWrites = iblock i :: st.inodeWrites
  dinode : st'.dinode = update st.dinode i d
  sect : ∀ b, b ≠ iblock i → st'.sect b = st.sect b

theorem iblock_range {i : Nat} (h : i < 208) : 32 ≤ iblock i ∧ iblock i < 45 := by
  have h1 : sb.inodestart = 32 := rfl
  have h2 : IPB = 16 := rfl
  unfold iblock
  rw [h1, h2]
  omega

theorem iblock_mod_inj {i j : Nat} (hb : iblock i = iblock j) (hm : i % IPB = j % IPB) : i = j := by
  have hi := Nat.div_add_mod i IPB
  have hj := Nat.div_add_mod j IPB
  have hd : i / IPB = j / IPB := Nat.add_right_cancel hb
  rw [← hi, ← hj, hd, hm]

section Inodes
variable {st : Mk} {i : Nat} {E : Stop → Mk → Prop}

theorem dinode_eq (h : i < 208) : st.dinode i = getDinode (st.sect (iblock i)) (i % IPB) := by
  unfold Mk.dinode dinodes
  rw [if_pos (iblock_lt.mpr h)]
  rfl

theorem wp_rinode (hn : st.nsect = FSSIZE) (hi : i < 208) {Q : Dinode → Mk → Prop}
    (hQ : Q (st.dinode i) st) : wp (rinode i) Q E st := by
  have hb := iblock_range hi
  rw [dinode_eq hi] at hQ
  rw [rinode, wp_bind]
  exact wp_rsect hn (Nat.lt_trans hb.2 (by decide)) hQ

theorem write_dinode (hi : i < 208) (hd : Fields d) :
    (st.write (iblock i) (putDinode (st.sect (iblock i)) (i % IPB) d)).dinode =
      update st.dinode i d := by
  have hmod : ∀ j, j % IPB < 16 := fun j => Nat.mod_lt _ (by decide)
  funext j
  by_cases hj : j < 208
  · rw [dinode_eq hj]
    by_cases hb : iblock j = iblock i
    · rw [hb, write_sect_self]
      by_cases hji : j = i
      · subst j
        rw [update_self, getDinode_put hd (hmod i)]
      · rw [update_of_ne hji, getDinode_put_other hd (hmod i)
          (fun hm => hji (iblock_mod_inj hb hm)), dinode_eq hj, hb]
    · rw [write_sect_ne hb, update_of_ne (fun he => hb (congrArg iblock he)), dinode_eq hj]
  · have hji : j ≠ i := by omega
    rw [update_of_ne hji]
    unfold Mk.dinode dinodes
    rw [if_neg (fun hlt => hj (iblock_lt.mp hlt)), if_neg (fun hlt => hj (iblock_lt.mp hlt))]

theorem wp_winode (hn : st.nsect = FSSIZE) (hi : i < 208) (hd : Fields d) {Q : Unit → Mk → Prop}
    (hQ : ∀ st', Stored st i d st' → Q () st') :
    wp (winode i d) Q E st := by
  have hb := iblock_range hi
  have hlt : iblock i < FSSIZE := Nat.lt_trans hb.2 (by decide)
  simp only [winode, wp_bind, wp_modify]
  refine wp_rsect hn hlt (wp_wsect (Nat.le_of_lt hlt) _ (hQ _ ?_))
  have hns := write_nsect hn hlt (putDinode (st.sect (iblock i)) (i % IPB) d)
  exact ⟨hns.trans hn.symm, rfl, rfl, rfl, write_dinode hi hd, fun b hb => write_sect_ne hb _⟩

theorem Stored.meta {st' : Mk} (h : Stored st i d st') (hi : i < 208) (b : Nat)
    (hb : b = 0 ∨ nmeta ≤ b) : st'.sect b = st.sect b := by
  have hr := iblock_range hi
  have hn : nmeta = 46 := rfl
  exact h.sect b (by omega)

end Inodes

/-! `iappend`. -/

section Append
variable {st : Mk} {f : Nat → List UInt8} {i : Nat}

theorem Image.lt (h : Image st f) (hi : (st.dinode i).type ≠ none) : i < 208 := by
  have h1 := (h.typed i).mp hi
  have h2 := h.inodes
  omega

theorem Image.cur (st : Mk) (i : Nat) : (st.view i (st.dinode i)).cur slot0 = st.dinode :=
  update_eq_self i st.dinode

theorem Image.places (st : Mk) (i : Nat) : st.places i (st.dinode i) = st.refs := by
  rw [places_eq, Image.cur]
  rfl

theorem sb_ok : sb.Ok := ⟨by decide, by decide⟩

theorem Image.working (h : Image st f) (hi : (st.dinode i).type ≠ none) :
    Working st i (st.dinode i) := by
  have hlive : ∀ t, (st.view i (st.dinode i)).live t → t = slot0 := by
    intro t ht
    by_contra hne
    simp [Fs.live, Mk.view, hne] at ht
  refine ⟨h.nsect, h.le, h.fresh, sb_ok, Int.one_pos, rfl, hi, ?_, ?_, ?_⟩
  · intro t u ht hu _
    rw [hlive t ht, hlive u hu]
  · intro t hts ht
    exact absurd (hlive t ht) hts
  · have hsb : (st.view i (st.dinode i)).sb = sb := rfl
    rw [Image.cur, hsb, sb_nmeta]
    exact h.exact

theorem Appended.fields {whole : List UInt8} {tot off : Nat} {st' : Mk} {din : Dinode}
    {r : Dinode × Nat} (ha : Appended whole tot off st i din st' r) (hd : Fields din) :
    r.1 = { din with addrs := r.1.addrs } ∧ Fields { r.1 with size := r.2 } := by
  have hkeep : r.1 = { din with addrs := r.1.addrs } := congrArg Inode.d ha.wrote.ext.entry
  have hle := covers_le ha.wrote.cov
  have hmax : MAXFILE * BSIZE < U32 := by decide
  refine ⟨hkeep, ?_, ?_, ?_, ?_, ?_⟩
  · rw [hkeep]
    exact hd.major
  · rw [hkeep]
    exact hd.minor
  · rw [hkeep]
    exact hd.nlink
  · change r.2 < U32
    omega
  · intro k
    change r.1.addrs k < U32
    have hself : st'.places i r.1 (i, .addr k) = r.1.addrs k := places_self ha.inv.typed _
    by_cases h0 : r.1.addrs k = 0
    · rw [h0]
      decide
    · have hr := ha.inv.range (q := (i, .addr k)) (by rwa [hself])
      rw [hself] at hr
      exact Nat.lt_trans hr.2 (by decide)

theorem sum_update_append (f : Nat → List UInt8) {n : Nat} (hi : i < n) (p : List UInt8) :
    (∑ j ∈ Finset.range n, blocksFor (update f i (f i ++ p) j).length) +
        blocksFor (f i).length =
      (∑ j ∈ Finset.range n, blocksFor (f j).length) + blocksFor ((f i).length + p.length) := by
  have hmem : i ∈ Finset.range n := Finset.mem_range.mpr hi
  have hrest : ∑ j ∈ (Finset.range n).erase i,
      blocksFor (update f i (f i ++ p) j).length =
        ∑ j ∈ (Finset.range n).erase i, blocksFor (f j).length := by
    refine Finset.sum_congr rfl fun j hj => ?_
    rw [update_of_ne (Finset.ne_of_mem_erase hj)]
  rw [← Finset.add_sum_erase _ _ hmem, ← Finset.add_sum_erase _ _ hmem, hrest,
    update_self, List.length_append]
  omega

theorem Appended.image {p : List UInt8} {st' st'' : Mk} {r : Dinode × Nat} (h : Image st f)
    (hi : (st.dinode i).type ≠ none) (ha : Appended p 0 (f i).length st i (st.dinode i) st' r)
    (hs : Stored st' i d st'') (hty : d.type = r.1.type) (hsize : d.size = r.2)
    (haddrs : d.addrs = r.1.addrs) :
    Image st'' (update f i (f i ++ p)) := by
  have hi208 := h.lt hi
  have hend : r.2 = (f i).length + p.length := ha.wrote.reached
  have hD : st'.dinode = st.dinode := dinodes_congr ha.kept.sect
  have htype : r.1.type = (st.dinode i).type := ha.wrote.ext.type
  have hmeta := hs.meta hi208
  -- the places and contents are those at the end of the loop
  have hcur : (st'.view i r.1).cur slot0 = update st'.dinode i r.1 := rfl
  have hsame : ∀ j, (st''.dinode j).type = (update st'.dinode i r.1 j).type ∧
      (st''.dinode j).addrs = (update st'.dinode i r.1 j).addrs := by
    intro j
    rw [hs.dinode]
    by_cases hj : j = i
    · subst j
      rw [update_self, update_self]
      exact ⟨hty, haddrs⟩
    · rw [update_of_ne hj, update_of_ne hj]
      exact ⟨rfl, rfl⟩
  have hrange : ∀ q, st'.places i r.1 q ≠ 0 → nmeta ≤ st'.places i r.1 q :=
    fun q hq => (ha.inv.range hq).1
  have hrefs : st''.refs = st'.places i r.1 := refs_of_meta hmeta hsame hrange
  have hcont : ∀ j k, content st''.sect st''.dinode j k =
      content st'.sect ((st'.view i r.1).cur slot0) j k :=
    content_of_meta hmeta hrange hrefs
  have htyped : ∀ j, (st''.dinode j).type = (st.dinode j).type := by
    intro j
    rw [(hsame j).1]
    by_cases hj : j = i
    · subst j
      rw [update_self, htype]
    · rw [update_of_ne hj, hD]
  have hcov : ∀ j, (st.dinode j).type ≠ none →
      Covers st''.sect st''.dinode j (st.dinode j).size := fun j hj =>
    covers_of_refs hrefs (ha.wrote.ext.covers (by rw [Image.cur]; exact h.full j hj))
  refine ⟨hs.nsect.trans ha.inv.nsect, ?_, ?_, ?_, ?_, ?_, ?_, ?_, ?_, ?_, ?_, ?_, ?_⟩
  · rw [hs.freeinode, ha.kept.freeinode]
    exact h.inodes
  · rw [hs.freeblock]
    exact ha.inv.le
  · intro b hb hlt
    rw [hs.freeblock] at hb
    rw [hmeta b (.inr (ha.inv.nmeta_le.trans hb))]
    exact ha.inv.fresh b hb hlt
  · rw [hrefs, hs.freeblock]
    exact ha.inv.exact
  · intro j
    rw [htyped, hs.freeinode, ha.kept.freeinode]
    exact h.typed j
  · intro j hj
    rw [htyped] at hj
    rw [hs.dinode]
    by_cases hji : j = i
    · subst j
      rw [update_self, update_self, hsize, hend, List.length_append]
    · rw [update_of_ne hji, update_of_ne hji, hD]
      exact h.size j hj
  · intro j hj
    rw [htyped] at hj
    by_cases hji : j = i
    · subst j
      rw [hs.dinode, update_self, hsize, ← hs.dinode]
      refine covers_of_refs hrefs fun k hk => ha.wrote.cov k ?_
      exact lt_of_lt_of_le hk (le_max_right _ _)
    · have hsz : (st''.dinode j).size = (st.dinode j).size := by
        rw [hs.dinode, update_of_ne hji, hD]
      rw [hsz]
      exact hcov j hj
  · intro j hj
    rw [htyped] at hj
    rw [hrefs]
    by_cases hji : j = i
    · subst j
      rw [update_self, List.length_append, ← hend]
      exact ha.tight
    · have ht := h.tight j hj
      rw [update_of_ne hji]
      have hoth : ∀ q, st'.places i r.1 (j, q) = st.refs (j, q) := by
        intro q
        rw [ha.others (j, q) hji, Image.places]
      exact ⟨fun k q hq hk => (hoth q).trans (ht.beyond k q hq hk),
        fun hle => (hoth _).trans (ht.indirect hle)⟩
  · intro j hj k hk
    rw [htyped] at hj
    rw [hcont]
    have hold : k < (f j).length → (f j)[k]? =
        some (content st'.sect ((st'.view i r.1).cur slot0) j k) := by
      intro hlt
      have hpres : Present st.sect ((st.view i (st.dinode i)).cur slot0) j k := by
        rw [Image.cur]
        exact (h.full j hj).present (by rw [h.size j hj]; exact hlt)
      have hc := ha.wrote.old j k hpres fun hji => .inl (by
        have hji' : j = i := hji
        subst j
        exact hlt)
      have hc' : content st'.sect ((st'.view i r.1).cur slot0) j k =
          content st.sect ((st.view i (st.dinode i)).cur slot0) j k := hc
      rw [h.content j hj k hlt, hc', Image.cur]
    by_cases hji : j = i
    · subst j
      rw [update_self] at hk ⊢
      by_cases hlt : k < (f i).length
      · rw [List.getElem?_append_left hlt]
        exact hold hlt
      · rw [List.length_append] at hk
        have hn := ha.wrote.new k (by omega) (by rw [hend]; exact hk)
        rw [List.getElem?_append_right (by omega)]
        rw [Nat.zero_add] at hn
        exact hn
    · rw [update_of_ne hji] at hk ⊢
      exact hold hk
  · have hi' := (h.typed i).mp hi
    have hsum := sum_update_append (i := i) f hi'.2 p
    have hcount := ha.count
    have hold := h.count
    rw [hs.freeblock, hs.freeinode, ha.kept.freeinode]
    rw [hend] at hcount
    omega
  · intro b hb
    rw [hs.writes, ha.kept.inodeWrites] at hb
    rcases List.mem_cons.mp hb with rfl | hb
    · exact iblock_lt.mpr hi208
    · exact h.writes b hb
  · have hr := iblock_range hi208
    rw [hs.sect 1 (by omega), ha.kept.sect 1 (by decide)]
    exact h.superblock

theorem wp_iappend (h : Image st f) (hi : (st.dinode i).type ≠ none) (p : List UInt8) :
    wp (iappend i p)
      (fun _ st' => Image st' (update f i (f i ++ p)) ∧ st'.freeinode = st.freeinode)
      (fun _ _ => ¬ Room (update f i (f i ++ p)) st.freeinode) st := by
  have hi208 := h.lt hi
  have hcov : Covers st.sect ((st.view i (st.dinode i)).cur slot0) i (f i).length := by
    rw [Image.cur, ← h.size i hi]
    exact h.full i hi
  have htight : Tight (st.places i (st.dinode i)) i (f i).length := by
    rw [Image.places]
    exact h.tight i hi
  have hloop := wp_appendLoop (h.working hi) p p.length 0 (f i).length
    (Nat.le_of_eq (h.size i hi)) hcov htight (Nat.zero_le _) (by omega)
  rw [iappend, wp_bind]
  refine wp_rinode h.nsect hi208 ?_
  rw [h.size i hi, wp_bind]
  rw [List.drop_zero] at hloop
  refine wp_mono hloop (fun r st' ha => ?_) fun _ _ hno hroom => hno ?_
  · have hfields : Fields (st.dinode i) := by
      rw [dinode_eq hi208]
      exact getDinode_fields _ _
    refine wp_winode ha.inv.nsect hi208 (ha.fields hfields).2 fun st'' hs => ?_
    exact ⟨ha.image h hi hs rfl rfl rfl, hs.freeinode.trans ha.kept.freeinode⟩
  · have h1 := hroom.size i
    have h2 := hroom.total
    have hsum := sum_update_append (i := i) f ((h.typed i).mp hi).2 p
    have hcount := h.count
    rw [update_self, List.length_append] at h1
    rw [Nat.sub_zero]
    exact ⟨h1, by omega⟩

end Append
end Xv6Audit.Mkfs
