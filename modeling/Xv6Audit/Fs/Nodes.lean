import Xv6Audit.Fs.FileBytes
import Xv6Audit.Fs.Edit

/-! The file system as its users see it: allocated inodes with their contents, and who refers
to which of them. Every routine of the inode layer is described by what it does to these two
maps; blocks, places and the free map do not occur any more. -/
namespace Xv6Audit.FileSys
open Function

open Prog Disk

structure Node where
  type : InodeType
  major : Int
  minor : Int
  nlink : Int
  bytes : List UInt8
deriving DecidableEq

structure Slot where
  inum : Nat
  ref : Int
  locked : Bool
  valid : Bool
deriving DecidableEq

def Slot.lock (v : Slot) : Slot := { v with locked := true, valid := true }

def Slot.unlock (v : Slot) : Slot := { v with locked := false }

def Inode.slot (ip : Inode) : Slot := ⟨ip.inum, ip.ref, ip.locked, ip.valid⟩

def Fs.slot (fs : Fs) (t : Fin NINODE) : Slot := (fs.itable t).slot

def Fs.node (fs : Fs) (i : Nat) : Option Node :=
  (fs.dinode i).type.map fun type =>
    ⟨type, (fs.dinode i).major, (fs.dinode i).minor, (fs.dinode i).nlink, fs.file i⟩

structure Shows (gs : Fs) (sb : Super) (I : Nat → Option Node) (S : Fin NINODE → Slot) :
    Prop where
  wf : WellFormed gs
  sb : gs.sb = sb
  node : gs.node = I
  slot : gs.slot = S

theorem WellFormed.shows {fs : Fs} (h : WellFormed fs) : Shows fs fs.sb fs.node fs.slot :=
  ⟨h, rfl, rfl, rfl⟩

variable {i : Nat} {Q : Unit → Fs → Prop}

section Shows
variable {fs gs : Fs} {sb : Super} {I : Nat → Option Node} {S : Fin NINODE → Slot}
  {s : Fin NINODE} {f : Node} {E : String → Fs → Prop}

theorem setInode_slot (fs : Fs) (s : Fin NINODE) (ip : Inode) :
    (fs.setInode s ip).slot = update fs.slot s ip.slot := by
  funext t
  by_cases ht : t = s
  · subst t
    simp [Fs.slot, Fs.setInode]
  · simp [Fs.slot, Fs.setInode, ht]

theorem node_ne_none : fs.node i ≠ none ↔ (fs.dinode i).type ≠ none := by
  simp [Fs.node]

theorem node_eq_none : fs.node i = none ↔ (fs.dinode i).type = none := by
  simp [Fs.node]

theorem node_eq_some (h : fs.node i = some f) : (fs.dinode i).type = some f.type ∧
    (fs.dinode i).major = f.major ∧ (fs.dinode i).minor = f.minor ∧
    (fs.dinode i).nlink = f.nlink ∧ fs.file i = f.bytes := by
  simp only [Fs.node, Option.map_eq_some_iff] at h
  obtain ⟨type, ht, rfl⟩ := h
  exact ⟨ht, rfl, rfl, rfl, rfl⟩

theorem file_congr (hdata : gs.data = fs.data) (ht : (gs.dinode i).type = (fs.dinode i).type)
    (hs : (gs.dinode i).size = (fs.dinode i).size) (ha : (gs.dinode i).addrs = (fs.dinode i).addrs)
    : gs.file i = fs.file i := by
  unfold Fs.file bytes
  rw [hs, hdata]
  exact List.map_congr_left fun k _ => content_congr ht ha

theorem node_congr (hdata : gs.data = fs.data) (hd : gs.dinode i = fs.dinode i) :
    gs.node i = fs.node i := by
  unfold Fs.node
  rw [file_congr hdata (by rw [hd]) (by rw [hd]) (by rw [hd]), hd]

theorem node_update {v : Option Node} (hi : gs.node i = v) (ho : ∀ j, j ≠ i → gs.node j = fs.node j)
    : gs.node = update fs.node i v := by
  funext j
  by_cases hj : j = i
  · subst j
    rw [update_self]
    exact hi
  · rw [update_of_ne hj]
    exact ho j hj

theorem SameTable.slot (h : SameTable s fs gs) : gs.slot = fs.slot := by
  funext t
  by_cases ht : t = s
  · subst t
    unfold Fs.slot
    rw [h.entry]
    rfl
  · exact congrArg Inode.slot (h.others t ht)

theorem Written.node {src : Nat → Option UInt8} {buf : List UInt8} {off n : Nat}
    (hw : Written s src off n fs buf.length gs) (h : WellFormed fs) (hg : WellFormed gs)
    (hl : fs.live s) (hv : (fs.itable s).valid = true)
    (hsrc : ∀ j, j < buf.length → src j = buf[j]?) (hoff : off ≤ (fs.itable s).d.size)
    (hrest : ∀ k, off + buf.length ≤ k → k < (fs.itable s).d.size →
      content gs.data gs.dinode (fs.itable s).inum k =
        content fs.data fs.dinode (fs.itable s).inum k)
    (hf : fs.node (fs.itable s).inum = some f) :
    gs.node = update fs.node (fs.itable s).inum
      (some { f with bytes := overwrite f.bytes off buf }) := by
  obtain ⟨ht, hmaj, hmin, hn, hb⟩ := node_eq_some hf
  refine node_update ?_ fun j hj => ?_
  · unfold Fs.node
    rw [hw.file h hg hl hv hsrc hoff hrest, hb, hw.self h hg hl hv]
    simp only [ht, hmaj, hmin, hn, Option.map_some]
  · by_cases hty : (fs.dinode j).type = none
    · rw [node_eq_none.mpr hty, node_eq_none, hw.dinode j hj]
      exact hty
    · unfold Fs.node
      rw [hw.dinode j hj, hw.other_file hj hty]

namespace Shows

section
variable (h : Shows fs sb I S)
include h

theorem live : fs.live s ↔ 0 < (S s).ref := by
  rw [← h.slot]
  rfl

theorem valid : (fs.itable s).valid = (S s).valid := by
  rw [← h.slot]
  rfl

theorem inum : (fs.itable s).inum = (S s).inum := by
  rw [← h.slot]
  rfl

theorem ref : (fs.itable s).ref = (S s).ref := by
  rw [← h.slot]
  rfl

theorem locked : (fs.itable s).locked = (S s).locked := by
  rw [← h.slot]
  rfl

theorem uniq {t u : Fin NINODE} (ht : 0 < (S t).ref) (hu : 0 < (S u).ref)
    (he : (S t).inum = (S u).inum) : t = u := by
  rw [← h.slot] at ht hu he
  exact h.wf.table.uniq t u ht hu he

theorem cached (hl : 0 < (S s).ref) (hv : (S s).valid = true) :
    ∃ f, I (S s).inum = some f := by
  have hc := h.wf.table.cached s (h.live.mpr hl) (h.valid.trans hv)
  rw [hc.1, h.inum] at hc
  rw [← h.node]
  exact Option.ne_none_iff_exists'.mp (node_ne_none.mpr hc.2)

theorem copy (hl : 0 < (S s).ref) (hv : (S s).valid = true) (hf : I (S s).inum = some f) :
    (fs.itable s).d.type = some f.type ∧
      (fs.itable s).d.major = f.major ∧ (fs.itable s).d.nlink = f.nlink ∧
      (fs.itable s).d.size = f.bytes.length := by
  have hd := (h.wf.table.cached s (h.live.mpr hl) (h.valid.trans hv)).1
  rw [h.inum] at hd
  rw [← h.node] at hf
  obtain ⟨ht, hmaj, -, hn, hb⟩ := node_eq_some hf
  rw [hd]
  exact ⟨ht, hmaj, hn, by rw [← hb, file_length]⟩

theorem setInode {ip : Inode} (hw : WellFormed (fs.setInode s ip)) :
    Shows (fs.setInode s ip) sb I (update S s ip.slot) :=
  ⟨hw, h.sb, h.node, by rw [setInode_slot, h.slot]⟩

end

end Shows

def Dead (I : Nat → Option Node) (v : Slot) : Prop :=
  v.ref = 1 ∧ v.valid = true ∧ ∃ f, I v.inum = some f ∧ f.nlink = 0

structure Got (S : Fin NINODE → Slot) (i : Nat) (t : Fin NINODE) (v : Slot) : Prop where
  inum : v.inum = i
  ref : v.ref = (S t).ref + 1
  nonneg : 0 ≤ (S t).ref
  locked : v.locked = (S t).locked
  live : 0 < (S t).ref → (S t).inum = i ∧ v.valid = (S t).valid
  idle : (S t).ref = 0 → v.valid = false ∧ ∀ u, 0 < (S u).ref → (S u).inum ≠ i

namespace Shows

section
variable (h : Shows fs sb I S)
include h

theorem wp_iget (i : Nat) (hfull : (∀ t, (S t).ref ≠ 0) → E "iget: no inodes" fs)
    {Q : Fin NINODE → Fs → Prop}
    (hQ : ∀ t v gs, Shows gs sb I (update S t v) → Got S i t v → Q t gs) :
    wp (iget i) Q E fs := by
  simp only [iget, wp_bind, wp_get]
  cases hf : fs.find i with
  | some t =>
    obtain ⟨hl, hi⟩ := find_spec hf
    have hpos := h.live.mp hl
    refine hQ t _ _ (h.setInode (h.wf.retouch hl _ _)) ⟨hi, ?_, Int.le_of_lt hpos, h.locked, ?_, ?_⟩
    · rw [← h.ref]
      rfl
    · exact fun _ => ⟨h.inum.symm.trans hi, h.valid⟩
    · intro h0
      omega
  | none =>
    have hnone : ∀ u, 0 < (S u).ref → (S u).inum ≠ i := by
      intro u hu
      rw [← h.inum]
      exact find_none hf u (h.live.mpr hu)
    cases he : fs.emptySlot with
    | none =>
      refine hfull fun t h0 => ?_
      have hall := List.find?_eq_none.mp he t (List.mem_finRange t)
      rw [h.ref, h0] at hall
      exact hall (by decide)
    | some t =>
      have h0 : (fs.itable t).ref = 0 := by simpa using List.find?_some he
      have hS : (S t).ref = 0 := h.ref.symm.trans h0
      refine hQ t _ _ (h.setInode (h.wf.setInode _ (fun _ u _ hu => find_none hf u hu)
        fun _ hv => by simp at hv)) ⟨rfl, ?_, Int.le_of_eq hS.symm, h.locked, ?_, fun _ => ⟨rfl, hnone⟩⟩
      · rw [hS]
        rfl
      · intro hpos
        omega

section
variable (hl : 0 < (S s).ref)
include hl

theorem wp_idup {Q : Fin NINODE → Fs → Prop}
    (hQ : ∀ gs, Shows gs sb I (update S s { S s with ref := (S s).ref + 1 }) → Q s gs) :
    wp (idup s) Q E fs := by
  simp only [idup, wp_bind, wp_modify, wp_pure]
  refine hQ _ ?_
  have hs := h.setInode (h.wf.retouch (h.live.mpr hl) ((fs.itable s).ref + 1) (fs.itable s).locked)
  rw [← h.slot] at hs ⊢
  exact hs

theorem wp_ilock (hu : (S s).locked = false)
    (hgone : I (S s).inum = none → ∀ gs, E "ilock: no type" gs)
    (hQ : ∀ gs, Shows gs sb I (update S s (S s).lock) → Q () gs) :
    wp (ilock s) Q E fs := by
  have hnone : (fs.dinode (fs.itable s).inum).type = none ↔ I (S s).inum = none := by
    rw [← node_eq_none, h.node, h.inum]
  simp only [ilock, acquireSleep, wp_bind, wp_get, wp_ite, wp_throw, wp_set, wp_pure]
  have hl' := h.live.mpr hl
  refine ⟨fun hno => ?_, fun _ => ⟨fun hlk => ?_, fun _ => ?_⟩⟩
  · rw [h.ref] at hno
    omega
  · rw [h.locked, hu] at hlk
    cases hlk
  have hself : (fs.setInode s { fs.itable s with locked := true }).itable s =
      { fs.itable s with locked := true } := by simp [Fs.setInode]
  have htwice : ∀ ip, (fs.setInode s { fs.itable s with locked := true }).setInode s ip =
      fs.setInode s ip := by
    intro ip
    simp [Fs.setInode]
  have huniq : ∀ t, t ≠ s → fs.live t → (fs.itable t).inum ≠ (fs.itable s).inum :=
    fun t ht htl he => ht (h.wf.table.uniq t s htl hl' he)
  rw [hself]
  refine ⟨fun hv => ?_, fun _ => ⟨fun hno => hgone (hnone.mp hno) _, fun hty => ?_⟩⟩
  · refine hQ _ ?_
    have hs := h.setInode (h.wf.setInode (s := s) { fs.itable s with locked := true }
      (fun _ => huniq) fun _ _ => h.wf.table.cached s hl' hv)
    have hv' : (S s).valid = true := h.valid.symm.trans hv
    rw [← h.slot] at hs hv' ⊢
    rw [show (fs.slot s).lock =
      Inode.slot { fs.itable s with locked := true } by rw [Slot.lock, ← hv']; rfl]
    exact hs
  · rw [htwice]
    refine hQ _ ?_
    have hs := h.setInode (h.wf.setInode (s := s)
      { fs.itable s with locked := true, d := fs.dinode (fs.itable s).inum, valid := true }
      (fun _ => huniq) fun _ _ => ⟨rfl, hty⟩)
    rw [← h.slot] at hs ⊢
    exact hs

theorem wp_iunlock (hlk : (S s).locked = true)
    (hQ : ∀ gs, Shows gs sb I (update S s (S s).unlock) → Q () gs) :
    wp (iunlock s) Q E fs := by
  refine FileSys.wp_iunlock h.wf (fun hbad => ?_) fun _ hw => hQ _ ?_
  · rw [h.locked, hlk, h.ref] at hbad
    obtain hb | hb := hbad
    · cases hb
    · omega
  · have hs := h.setInode hw
    rw [← h.slot] at hs ⊢
    exact hs

theorem dead_iff : Dead I (S s) ↔
    (fs.itable s).ref = 1 ∧ (fs.itable s).valid = true ∧ (fs.itable s).d.nlink = 0 := by
  unfold Dead
  rw [← h.ref, ← h.valid]
  refine and_congr_right fun _ => and_congr_right fun hv => ?_
  obtain ⟨f, hf⟩ := h.cached hl (h.valid.symm.trans hv)
  rw [(h.copy hl (h.valid.symm.trans hv) hf).2.2.1]
  constructor
  · rintro ⟨g, hg, hn⟩
    rwa [← Option.some.inj (hf.symm.trans hg)] at hn
  · exact fun hn => ⟨f, hf, hn⟩

theorem wp_iput (hu : (S s).ref = 1 → (S s).valid = true → (S s).locked = false)
    (hkeep : ¬ Dead I (S s) → ∀ gs,
      Shows gs sb I (update S s { S s with ref := (S s).ref - 1 }) → Q () gs)
    (hfree : Dead I (S s) → ∀ v gs, v.inum = (S s).inum → v.ref = 0 → v.locked = false →
      Shows gs sb (update I (S s).inum none) (update S s v) → Q () gs) :
    wp (iput s) Q E fs := by
  have hdead := h.dead_iff hl
  refine FileSys.wp_iput h.wf (h.live.mpr hl) (fun href hv hlk => ?_) (fun hc hw => ?_) ?_
  · rw [h.locked, hu (h.ref.symm.trans href) (h.valid.symm.trans hv)] at hlk
    cases hlk
  · refine hkeep (fun hd => hc (hdead.mp hd)) _ ?_
    have hs := h.setInode hw
    rw [← h.slot] at hs ⊢
    exact hs
  · intro href hv hn gs hw hsb hdata hother href' hlk' hinum hty hdin
    refine hfree (hdead.mpr ⟨href, hv, hn⟩) (gs.slot s) gs (hinum.trans h.inum) href' hlk'
      ⟨hw, hsb.trans h.sb, ?_, ?_⟩
    · rw [← h.inum, ← h.node]
      exact node_update (node_eq_none.mpr hty) fun i hi => node_congr hdata (hdin i hi)
    · funext t
      by_cases ht : t = s
      · subst t
        rw [update_self]
      · rw [update_of_ne ht, ← h.slot]
        exact congrArg Inode.slot (hother t ht)

theorem wp_store (hv : (S s).valid = true) (hf : I (S s).inum = some f) (d : Dinode)
    (ht : d.type = (fs.itable s).d.type) (hs : d.size = (fs.itable s).d.size)
    (ha : d.addrs = (fs.itable s).d.addrs) (hQ : ∀ gs, Shows gs sb (update I (S s).inum
      (some { f with major := d.major, minor := d.minor, nlink := d.nlink })) S → Q () gs) :
    wp (iupdate s) Q E (fs.setD s d) := by
  have hl' := h.live.mpr hl
  have hv' := h.valid.trans hv
  obtain ⟨hd, hty⟩ := h.wf.table.cached s hl' hv'
  refine h.wf.wp_store hl' hv' d ht hs ha fun gs hg hsame hdata hself hother => ?_
  refine hQ gs ⟨hg, hsame.sb.trans h.sb, ?_, hsame.slot.trans h.slot⟩
  rw [← h.node, ← h.inum] at hf
  obtain ⟨hft, -, -, -, hfb⟩ := node_eq_some hf
  have hfile : gs.file (fs.itable s).inum = f.bytes := by
    rw [← hfb]
    refine file_congr hdata ?_ ?_ ?_
    · rw [hself, ht, hd]
    · rw [hself, hs, hd]
    · rw [hself, ha, hd]
  rw [← h.node, ← h.inum]
  refine node_update ?_ fun j hj => node_congr hdata (hother j hj)
  unfold Fs.node
  rw [hself, ht, hd, hft, hfile]
  rfl

theorem wp_setNlink (hv : (S s).valid = true) (hf : I (S s).inum = some f) (g : Int → Int)
    (hQ : ∀ gs, Shows gs sb (update I (S s).inum
      (some { f with nlink := short (g f.nlink) })) S → Q () gs) : wp (setNlink s g) Q E fs := by
  simp only [setNlink, wp_bind, wp_modify]
  have hd := (h.wf.table.cached s (h.live.mpr hl) (h.valid.trans hv)).1
  refine h.wp_store hl hv hf { (fs.itable s).d with nlink := short (g (fs.itable s).d.nlink) }
    rfl rfl rfl fun gs hg => hQ gs ?_
  have hf' := hf
  rw [← h.node, ← h.inum] at hf'
  obtain ⟨-, hmaj, hmin, hn, -⟩ := node_eq_some hf'
  simp only [hd, hmaj, hmin, hn] at hg
  exact hg

end

theorem wp_ialloc (type : InodeType) (hlive : ∀ t, 0 < (S t).ref → I (S t).inum ≠ none)
    (hfull : ∀ gs, (∀ t, (S t).ref ≠ 0) → E "iget: no inodes" gs)
    {Q : Option (Fin NINODE) → Fs → Prop}
    (hnone : (∀ x, 0 < x → x < sb.ninodes → I x ≠ none) → Q none fs)
    (hsome : ∀ x t v gs, 0 < x → x < sb.ninodes → I x = none → (S t).ref = 0 → v.inum = x →
      v.ref = 1 → v.locked = (S t).locked →
      Shows gs sb (update I x (some ⟨type, 0, 0, 0, []⟩)) (update S t v) →
      Q (some t) gs) : wp (ialloc type) Q E fs := by
  simp only [ialloc, wp_bind, wp_get]
  cases hf : fs.freeInum with
  | none =>
    refine hnone fun x h0 hlt hx => ?_
    rw [← h.sb] at hlt
    rw [← h.node] at hx
    have hall := List.find?_eq_none.mp hf x (List.mem_range.mpr hlt)
    exact hall (by simp [h0, node_eq_none.mp hx])
  | some x =>
    obtain ⟨h0, hlt, hfree⟩ := freeInum_spec hf
    simp only [wp_bind, wp_set]
    have hx : I x = none := by
      rw [← h.node]
      exact node_eq_none.mpr hfree
    have hg : Shows ((fs.setDinode x (Dinode.fresh type)).logs (fs.iblock x)) sb
        (update I x (some ⟨type, 0, 0, 0, []⟩)) S := by
      refine ⟨(h.wf.ialloc type hfree).logs _, h.sb, ?_, h.slot⟩
      rw [← h.node]
      refine node_update ?_ fun j hj => node_congr rfl (update_of_ne hj _ _)
      have hself : ((fs.setDinode x (Dinode.fresh type)).logs (fs.iblock x)).dinode x =
          Dinode.fresh type := update_self ..
      unfold Fs.node Fs.file
      rw [hself]
      rfl
    refine hg.wp_iget x (hfull _) fun t v gs hs hgot => ?_
    have hidle : (S t).ref = 0 := by
      by_contra hne
      have hpos : 0 < (S t).ref := by
        have := hgot.nonneg
        omega
      have := hlive t hpos
      rw [(hgot.live hpos).1] at this
      exact this hx
    exact hsome x t v gs h0 (h.sb ▸ hlt) hx hidle hgot.inum (by rw [hgot.ref, hidle]; rfl)
      hgot.locked hs

end

end Shows

end Shows

/-! References taken and given back. -/

structure Held (S : Fin NINODE → Slot) (R : Fin NINODE → Int) (S' : Fin NINODE → Slot) :
    Prop where
  ref : ∀ t, (S' t).ref = (S t).ref + R t
  keep : ∀ t, 0 < (S t).ref →
    (S' t).inum = (S t).inum ∧ ((S t).valid = true → (S' t).valid = true)

section Held
variable {S S' S'' : Fin NINODE → Slot} {R R' : Fin NINODE → Int} {s : Fin NINODE} {v : Slot}

theorem Held.refl (S : Fin NINODE → Slot) : Held S 0 S :=
  ⟨fun _ => (Int.add_zero _).symm, fun _ _ => ⟨rfl, fun h => h⟩⟩

theorem Held.trans (h : Held S R S') (h' : Held S' R' S'') (hR : ∀ t, 0 ≤ R t) :
    Held S (R + R') S'' := by
  refine ⟨fun t => ?_, fun t ht => ?_⟩
  · rw [h'.ref, h.ref, Pi.add_apply, Int.add_assoc]
  · have hl : 0 < (S' t).ref := by
      have h1 := h.ref t
      have h2 := hR t
      omega
    obtain ⟨hi, hv⟩ := h.keep t ht
    obtain ⟨hi', hv'⟩ := h'.keep t hl
    exact ⟨hi'.trans hi, fun hvt => hv' (hv hvt)⟩

theorem Held.set (hinum : 0 < (S s).ref → v.inum = (S s).inum)
    (hvalid : 0 < (S s).ref → (S s).valid = true → v.valid = true) :
    Held S (fun t => if t = s then v.ref - (S s).ref else 0) (update S s v) := by
  refine ⟨fun t => ?_, fun t ht => ?_⟩
  · by_cases hts : t = s
    · subst t
      rw [update_self, if_pos rfl]
      omega
    · rw [update_of_ne hts, if_neg hts]
      omega
  · by_cases hts : t = s
    · subst t
      rw [update_self]
      exact ⟨hinum ht, hvalid ht⟩
    · rw [update_of_ne hts]
      exact ⟨rfl, fun h => h⟩

theorem Held.congr (h : Held S R S') (hR : ∀ t, R t = R' t) : Held S R' S' :=
  ⟨fun t => by rw [h.ref, hR], h.keep⟩

theorem Got.held {t : Fin NINODE} (h : Got S i t v) :
    Held S (one t) (update S t v) := by
  refine (Held.set (fun hl => ?_) fun hl hv => ?_).congr fun u => ?_
  · rw [h.inum, (h.live hl).1]
  · rw [(h.live hl).2, hv]
  · unfold one
    rw [h.ref]
    split <;> omega

theorem Held.drop (hi : v.inum = (S s).inum) (hr : v.ref = (S s).ref - 1)
    (hv : (S s).valid = true → v.valid = true) : Held S (-one s) (update S s v) := by
  refine (Held.set (fun _ => hi) fun _ => hv).congr fun t => ?_
  unfold one
  rw [hr, Pi.neg_apply]
  split <;> omega

theorem Held.release (h : Held S R S') (hpos : 0 < R s) (hi : v.inum = (S' s).inum)
    (hr : v.ref = (S' s).ref - 1) (hv : (S' s).ref ≠ 1 → (S' s).valid = true → v.valid = true) :
    Held S (R - one s) (update S' s v) := by
  have href := h.ref s
  refine ⟨fun t => ?_, fun t ht => ?_⟩
  · rw [Pi.sub_apply]
    unfold one
    by_cases hts : t = s
    · subst t
      rw [update_self, if_pos rfl]
      omega
    · rw [update_of_ne hts, if_neg hts, h.ref]
      omega
  · by_cases hts : t = s
    · subst hts
      obtain ⟨hinum, hvalid⟩ := h.keep t ht
      rw [update_self]
      exact ⟨hi.trans hinum, fun hval => hv (by omega) (hvalid hval)⟩
    · rw [update_of_ne hts]
      exact h.keep t ht

theorem Held.retouch (h : Held S R S') (hr : v.ref = (S' s).ref) (hi : v.inum = (S' s).inum)
    (hv : (S' s).valid = true → v.valid = true) : Held S R (update S' s v) := by
  refine ⟨fun t => ?_, fun t ht => ?_⟩
  · rw [← h.ref]
    by_cases hts : t = s
    · subst t
      rw [update_self, hr]
    · rw [update_of_ne hts]
  · obtain ⟨hinum, hvalid⟩ := h.keep t ht
    by_cases hts : t = s
    · subst t
      rw [update_self]
      exact ⟨hi.trans hinum, fun hval => hv (hvalid hval)⟩
    · rw [update_of_ne hts]
      exact ⟨hinum, hvalid⟩

end Held

/-- What the nodes are after a reference to `i` was given back that was taken since `S`: as
before, unless it was the only one to an inode without links. -/
def Dropped (I : Nat → Option Node) (S : Fin NINODE → Slot) (i : Nat) (I' : Nat → Option Node) :
    Prop :=
  I' = I ∨ I' = update I i none ∧ (∃ f, I i = some f ∧ f.nlink = 0) ∧
    ∀ t, 0 < (S t).ref → (S t).inum ≠ i

section Release
variable {fs : Fs} {sb : Super} {I : Nat → Option Node} {S S' : Fin NINODE → Slot}
  {R : Fin NINODE → Int} {s : Fin NINODE} {E : String → Fs → Prop}

theorem Shows.alone (h : Shows fs sb I S') (hh : Held S R S') (hR : ∀ t, 0 ≤ R t)
    (hpos : 0 < R s) (href : (S' s).ref = 1) (t : Fin NINODE) (ht : 0 < (S t).ref) :
    (S t).inum ≠ (S' s).inum := by
  intro he
  have hlt : 0 < (S' t).ref := by
    have h1 := hh.ref t
    have h2 := hR t
    omega
  have hts := h.uniq hlt (by omega) (((hh.keep t ht).1).trans he)
  subst t
  have := hh.ref s
  omega

theorem Shows.wp_release (h : Shows fs sb I S') (hh : Held S R S') (hR : ∀ t, 0 ≤ R t)
    (hpos : 0 < R s) (hn : 0 ≤ (S s).ref) (hu : (S' s).locked = false)
    (hQ : ∀ I' v gs, v.inum = (S' s).inum → v.locked = false →
      Held S (R - one s) (update S' s v) → Dropped I S (S' s).inum I' →
      (Dead I (S' s) → I' = update I (S' s).inum none) →
      Shows gs sb I' (update S' s v) → Q () gs) : wp (iput s) Q E fs := by
  have href := hh.ref s
  refine h.wp_iput (by omega) (fun _ _ => hu) (fun hnot gs hg => ?_) fun hdead v gs hvi hvr hvl hg => ?_
  · exact hQ I { S' s with ref := (S' s).ref - 1 } gs rfl hu
      (hh.release hpos rfl rfl fun _ hv => hv) (.inl rfl) (fun hdead => absurd hdead hnot) hg
  · obtain ⟨hone, -, hlinks⟩ := hdead
    refine hQ _ v gs hvi hvl (hh.release hpos hvi (by omega) fun hno => absurd hone hno) ?_
      (fun _ => rfl) hg
    exact .inr ⟨rfl, hlinks, h.alone hh hR hpos hone⟩

theorem Shows.wp_iunlockput (h : Shows fs sb I S') (hh : Held S R S') (hR : ∀ t, 0 ≤ R t)
    (hpos : 0 < R s) (hn : 0 ≤ (S s).ref) (hlk : (S' s).locked = true)
    (hQ : ∀ I' v gs, v.inum = (S' s).inum → v.locked = false →
      Held S (R - one s) (update S' s v) → Dropped I S (S' s).inum I' →
      (Dead I (S' s) → I' = update I (S' s).inum none) →
      Shows gs sb I' (update S' s v) → Q () gs) : wp (iunlockput s) Q E fs := by
  have href := hh.ref s
  rw [iunlockput, wp_bind]
  refine h.wp_iunlock (by omega) hlk fun gs hg => ?_
  have hself : update S' s (S' s).unlock s = (S' s).unlock := update_self ..
  refine hg.wp_release (hh.retouch rfl rfl fun hv => hv) hR hpos hn (by rw [hself]; rfl) ?_
  intro I' v ks hvi hvl hheld hrel hdead hk
  rw [hself] at hvi hrel hdead
  rw [update_idem] at hheld hk
  exact hQ I' v ks hvi hvl hheld hrel hdead hk

end Release

/-! The disk. -/

structure Still (d : Nat) (fs gs : Fs) : Prop where
  bitmap : gs.bitmap = fs.bitmap
  data : gs.data = fs.data
  dinode : gs.dinode d = fs.dinode d

theorem Still.trans {d : Nat} {fs gs ks : Fs} (h : Still d fs gs) (h' : Still d gs ks) :
    Still d fs ks :=
  ⟨h'.bitmap.trans h.bitmap, h'.data.trans h.data, h'.dinode.trans h.dinode⟩

section Still
variable {fs : Fs} {s : Fin NINODE}

theorem still_iget (i : Nat) :
    wp (iget i) (fun _ gs => ∀ d, Still d fs gs) (fun _ _ => True) fs := by
  simp only [iget, wp_bind, wp_get]
  cases fs.find i with
  | some t => exact fun _ => ⟨rfl, rfl, rfl⟩
  | none =>
    cases fs.emptySlot with
    | some t => exact fun _ => ⟨rfl, rfl, rfl⟩
    | none => trivial

theorem still_idup : wp (idup s) (fun _ gs => ∀ d, Still d fs gs) (fun _ _ => True) fs :=
  fun _ => ⟨rfl, rfl, rfl⟩

theorem still_ilock : wp (ilock s) (fun _ gs => ∀ d, Still d fs gs) (fun _ _ => True) fs := by
  simp only [ilock, acquireSleep, wp_bind, wp_get, wp_ite, wp_throw, wp_set, wp_pure]
  exact ⟨fun _ => trivial, fun _ => ⟨fun _ => trivial, fun _ => ⟨fun _ _ => ⟨rfl, rfl, rfl⟩,
    fun _ => ⟨fun _ => trivial, fun _ _ => ⟨rfl, rfl, rfl⟩⟩⟩⟩⟩

theorem still_iunlock : wp (iunlock s) (fun _ gs => (∀ d, Still d fs gs) ∧
    (gs.itable s).ref = (fs.itable s).ref ∧ (gs.itable s).valid = (fs.itable s).valid ∧
    (gs.itable s).d = (fs.itable s).d) (fun _ _ => True) fs := by
  simp only [iunlock, releaseSleep, wp_bind, wp_get, wp_ite, wp_throw, wp_modify]
  refine ⟨fun _ => trivial, fun _ => ⟨fun _ => ⟨rfl, rfl, rfl⟩, ?_⟩⟩
  simp [Fs.setInode]

theorem Shows.still_iunlockput {sb : Super} {I : Nat → Option Node} {S : Fin NINODE → Slot}
    (h : Shows fs sb I S) (hl : 0 < (S s).ref) :
    wp (iunlockput s) (fun _ gs => ¬ Dead I (S s) → ∀ d, Still d fs gs) (fun _ _ => True) fs := by
  rw [iunlockput, wp_bind]
  refine wp_post still_iunlock fun _ gs hg => ?_
  obtain ⟨hstill, href, hv, hd⟩ := hg
  by_cases hdead : Dead I (S s)
  · exact wp_mono (wp_self _) (fun _ _ _ hno => absurd hdead hno) fun _ _ _ => trivial
  · have hc := hdead
    rw [h.dead_iff hl, ← href, ← hv, ← hd] at hc
    simp only [iput, wp_bind, wp_get, if_neg hc, wp_modify]
    exact fun _ d => (hstill d).trans ⟨rfl, rfl, rfl⟩

theorem still_ialloc (type : InodeType) : wp (ialloc type)
    (fun _ gs => ∀ d, fs.node d ≠ none → Still d fs gs) (fun _ _ => True) fs := by
  simp only [ialloc, wp_bind, wp_get]
  cases hf : fs.freeInum with
  | none => exact fun _ _ => ⟨rfl, rfl, rfl⟩
  | some x =>
    simp only [wp_bind, wp_set, wp_pure]
    refine wp_post (still_iget x) fun _ gs hg d hd => ?_
    have hne : d ≠ x := by
      rintro rfl
      have hx := List.find?_some hf
      simp only [decide_eq_true_eq] at hx
      exact hd (node_eq_none.mpr hx.2)
    exact ⟨(hg d).bitmap, (hg d).data, (hg d).dinode.trans (update_of_ne hne _ _)⟩

theorem still_iupdate : wp (iupdate s) (fun _ gs => ∀ d, d ≠ (fs.itable s).inum → Still d fs gs)
    (fun _ _ => True) fs :=
  fun _ hd => ⟨rfl, rfl, update_of_ne hd _ _⟩

end Still

end Xv6Audit.FileSys
