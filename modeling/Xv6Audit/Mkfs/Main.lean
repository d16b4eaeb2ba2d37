import Xv6Audit.Mkfs.Build

/-! `main`: the image it ends with, and when it does end with one. -/
namespace Xv6Audit.Mkfs
open Function

open Prog Disk FileSys
open Audit (ascii)

/-! New inodes. -/

section Ialloc
variable {st : Mk} {f : Nat → List UInt8} {E : Stop → Mk → Prop}

theorem Image.range (h : Image st f) (q : Nat × Pos) (hq : st.refs q ≠ 0) : nmeta ≤ st.refs q :=
  (h.exact.range q hq).1

theorem Stored.refs_fresh {st' : Mk} {i : Nat} {d : Dinode} (h : Image st f)
    (hi : i < 208) (hnone : (st.dinode i).type = none) (hs : Stored st i d st')
    (hd : d.addrs = fun _ => 0) : st'.refs = st.refs := by
  funext ⟨j, p⟩
  by_cases hj : j = i
  · subst j
    have hold : st.refs (i, p) = 0 := by
      unfold Mk.refs FileSys.refs
      rw [if_pos hnone]
    rw [hold]
    unfold Mk.refs FileSys.refs
    rw [hs.dinode, update_self]
    split
    · rfl
    · cases p <;> simp [blockAt, hd]
  · refine refs_congr p (by rw [hs.dinode, update_of_ne hj]) fun ht => ?_
    refine hs.meta hi _ ?_
    have hr := h.range (j, .addr INDIRECT)
    simp only [Mk.refs, FileSys.refs, ht, if_false, blockAt] at hr
    exact (Nat.eq_zero_or_pos _).imp id fun hpos => hr (by omega)

theorem newDinode_fields (type : InodeType) : Fields (newDinode type) := by
  refine ⟨?_, ?_, ?_, ?_, fun _ => ?_⟩ <;> simp [newDinode, U32]

theorem wp_ialloc (h : Image st f) (hlt : st.freeinode < 208) (hf : f st.freeinode = [])
    (type : InodeType) {Q : Nat → Mk → Prop}
    (hQ : ∀ st', Image st' f → st'.freeinode = st.freeinode + 1 → Q st.freeinode st') :
    wp (ialloc type) Q E st := by
  have hnone : (st.dinode st.freeinode).type = none := by
    by_contra hne
    exact Nat.lt_irrefl _ ((h.typed _).mp hne).2
  simp only [ialloc, wp_bind, wp_get, wp_modify, wp_pure]
  have hn : { st with freeinode := st.freeinode + 1 : Mk }.nsect = FSSIZE := h.nsect
  refine wp_winode hn hlt (newDinode_fields type) fun st' hs => hQ st' ?_ hs.freeinode
  have hs' : Stored st st.freeinode (newDinode type)
      { st' with freeinode := st.freeinode } :=
    ⟨hs.nsect, rfl, hs.freeblock, hs.writes, hs.dinode, hs.sect⟩
  have hrefs : Mk.refs { st' with freeinode := st.freeinode } = st.refs :=
    Stored.refs_fresh h hlt hnone hs' rfl
  change st'.refs = st.refs at hrefs
  have hmeta := hs'.meta hlt
  have hnew : st'.dinode st.freeinode = newDinode type := by
    rw [hs.dinode, update_self]
  have hoth : ∀ j, j ≠ st.freeinode → st'.dinode j = st.dinode j := by
    intro j hj
    rw [hs.dinode, update_of_ne hj]
    rfl
  refine ⟨hs.nsect.trans h.nsect, ?_, ?_, ?_, ?_, ?_, ?_, ?_, ?_, ?_, ?_, ?_, ?_⟩
  · rw [hs.freeinode]
    exact ⟨Nat.le_add_left _ _, hlt⟩
  · rw [hs.freeblock]
    exact h.le
  · intro b hb hb'
    rw [hs.freeblock] at hb
    rw [hmeta b (.inr (le_trans (h.exact.lo_le_free (decide_eq_false (Nat.lt_irrefl _))) hb))]
    exact h.fresh b hb hb'
  · rw [hrefs, hs.freeblock]
    exact h.exact
  · intro j
    rw [hs.freeinode]
    have ht := h.typed j
    have h1 := h.inodes.1
    by_cases hj : j = st.freeinode
    · subst j
      rw [hnew]
      simp only [newDinode, ne_eq, reduceCtorEq, not_false_eq_true, true_iff]
      exact ⟨h1, Nat.lt_succ_self _⟩
    · rw [hoth j hj, ht]
      change _ ↔ 1 ≤ j ∧ j < st.freeinode + 1
      omega
  · intro j hj
    by_cases hjn : j = st.freeinode
    · subst j
      rw [hnew, hf]
      rfl
    · rw [hoth j hjn] at hj ⊢
      exact h.size j hj
  · intro j hj
    by_cases hjn : j = st.freeinode
    · subst j
      rw [hnew]
      intro k hk
      exact absurd hk (Nat.not_lt_zero _)
    · rw [hoth j hjn] at hj ⊢
      exact covers_of_refs hrefs (h.full j hj)
  · intro j hj
    rw [hrefs]
    by_cases hjn : j = st.freeinode
    · subst j
      have h0 : ∀ p, st.refs (st.freeinode, p) = 0 := by
        intro p
        unfold Mk.refs FileSys.refs
        rw [if_pos hnone]
      exact ⟨fun _ p _ _ => h0 p, fun _ => h0 _⟩
    · rw [hoth j hjn] at hj
      exact h.tight j hj
  · intro j hj k hk
    by_cases hjn : j = st.freeinode
    · subst j
      rw [hf] at hk
      exact absurd hk (Nat.not_lt_zero _)
    · rw [hoth j hjn] at hj
      rw [content_of_meta hmeta h.range hrefs]
      exact h.content j hj k hk
  · rw [hs.freeblock, hs.freeinode]
    change st.freeblock = nmeta + ∑ i ∈ Finset.range (st.freeinode + 1), blocksFor (f i).length
    rw [Finset.sum_range_succ, hf, h.count]
    rfl
  · intro b hb
    rw [hs.writes] at hb
    rcases List.mem_cons.mp hb with rfl | hb
    · exact iblock_lt.mpr hlt
    · exact h.writes b hb
  · have hr := iblock_range hlt
    rw [hs.sect 1 (by omega)]
    exact h.superblock

end Ialloc

/-! The files. -/

def Input.name (f : Input) : List UInt8 := skipUnderscore (shortname f.path)

def entries : Nat → List Input → List UInt8
  | _, [] => []
  | inum, f :: rest => dirent inum f.name ++ entries (inum + 1) rest

def rootBytes (files : List Input) : List UInt8 :=
  dirent ROOTINO (ascii ".") ++ dirent ROOTINO (ascii "..") ++ entries 2 files

def layout (files : List Input) (i : Nat) : List UInt8 :=
  if i = 0 then [] else if i = ROOTINO then rootBytes files
  else ((files[i - 2]?).map Input.bytes).getD []

def Input.Accepted (f : Input) : Prop := SLASH ∉ shortname f.path ∧ f.opens = true

theorem entries_append (inum : Nat) (xs ys : List Input) :
    entries inum (xs ++ ys) = entries inum xs ++ entries (inum + xs.length) ys := by
  induction xs generalizing inum with
  | nil => rfl
  | cons f xs ih =>
    rw [List.cons_append, entries, entries, ih, List.append_assoc, List.length_cons]
    congr 3
    omega

theorem rootBytes_concat (xs : List Input) (f : Input) :
    rootBytes (xs ++ [f]) = rootBytes xs ++ dirent (xs.length + 2) f.name := by
  unfold rootBytes
  rw [entries_append, ← List.append_assoc, entries, entries, List.append_nil, Nat.add_comm 2]

theorem layout_root (files : List Input) : layout files ROOTINO = rootBytes files := rfl

theorem layout_file (files : List Input) (k : Nat) :
    layout files (k + 2) = ((files[k]?).map Input.bytes).getD [] := by
  have h0 : k + 2 ≠ 0 := by omega
  have h1 : k + 2 ≠ ROOTINO := by
    unfold ROOTINO
    omega
  rw [layout, if_neg h0, if_neg h1, Nat.add_sub_cancel]

theorem layout_next (files : List Input) : layout files (files.length + 2) = [] := by
  rw [layout_file, List.getElem?_eq_none (Nat.le_refl _)]
  rfl

theorem layout_concat (xs : List Input) (f : Input) :
    layout (xs ++ [f]) =
      update (update (layout xs) ROOTINO
        (layout xs ROOTINO ++ dirent (xs.length + 2) f.name)) (xs.length + 2) f.bytes := by
  funext i
  rcases i with _ | _ | k
  · rw [update_of_ne (by omega), update_of_ne (by decide)]
    rfl
  · have h1 : 0 + 1 ≠ xs.length + 2 := by omega
    rw [update_of_ne h1]
    exact (rootBytes_concat xs f).trans (update_self (ROOTINO) _ (layout xs)).symm
  · rw [layout_file]
    by_cases hk : k = xs.length
    · subst k
      rw [update_self, List.getElem?_append_right (Nat.le_refl _), Nat.sub_self]
      rfl
    · have h1 : k + 1 + 1 ≠ xs.length + 2 := by omega
      have h2 : k + 1 + 1 ≠ ROOTINO := by
        unfold ROOTINO
        omega
      rw [update_of_ne h1, update_of_ne h2, layout_file]
      by_cases hlt : k < xs.length
      · rw [List.getElem?_append_left hlt]
      · rw [List.getElem?_eq_none (by simp; omega), List.getElem?_eq_none (by omega)]

theorem layout_length_le (xs ys : List Input) (i : Nat) :
    (layout xs i).length ≤ (layout (xs ++ ys) i).length := by
  rcases i with _ | _ | k
  · exact Nat.le_refl _
  · change (rootBytes xs).length ≤ (rootBytes (xs ++ ys)).length
    unfold rootBytes
    rw [entries_append, ← List.append_assoc]
    exact (List.sublist_append_left _ _).length_le
  · rw [layout_file, layout_file]
    by_cases hlt : k < xs.length
    · rw [List.getElem?_append_left hlt]
    · rw [List.getElem?_eq_none (by omega)]
      exact Nat.zero_le _

section Files
variable {st : Mk} {f : Nat → List UInt8} {i : Nat}

theorem update_length_le {f g : Nat → List UInt8} (p : List UInt8) (hf : ∀ j, j ≠ i → f j = g j)
    (hi : p.length ≤ (g i).length) (j : Nat) : (update f i p j).length ≤ (g j).length := by
  by_cases hj : j = i
  · subst j
    rwa [update_self]
  · rw [update_of_ne hj, hf j hj]

theorem wp_appendReads (h : Image st f) (hi : (st.dinode i).type ≠ none) (reads : List (List UInt8)) :
    wp (appendReads i reads)
      (fun _ st' => Image st' (update f i (f i ++ reads.flatten)) ∧
        st'.freeinode = st.freeinode)
      (fun _ _ => ¬ Room (update f i (f i ++ reads.flatten)) st.freeinode) st := by
  induction reads generalizing st f with
  | nil =>
    rw [List.flatten_nil, List.append_nil, update_eq_self]
    exact ⟨h, rfl⟩
  | cons buf rest ih =>
    have hall : update (update f i (f i ++ buf)) i
        (update f i (f i ++ buf) i ++ rest.flatten) =
          update f i (f i ++ (buf :: rest).flatten) := by
      rw [update_idem, update_self, List.flatten_cons, List.append_assoc]
    rw [appendReads, wp_bind]
    refine wp_mono (wp_iappend h hi buf) (fun _ st' happ => ?_) fun _ _ hno hroom => hno ?_
    · obtain ⟨h', hn⟩ := happ
      have hi' : (st'.dinode i).type ≠ none := by
        rw [h'.typed, hn]
        exact (h.typed i).mp hi
      have hrest := ih h' hi'
      rw [hall, hn] at hrest
      exact hrest
    · refine hroom.mono (update_length_le _ (fun j hj => ?_) ?_) (Nat.le_refl _)
      · rw [update_of_ne hj]
      · rw [update_self, List.flatten_cons, ← List.append_assoc]
        exact (List.sublist_append_left _ _).length_le

theorem wp_addFile {done : List Input} (h : Image st (layout done))
    (hn : st.freeinode = done.length + 2) (hlt : done.length < 206) (x : Input) :
    wp (addFile ROOTINO x)
      (fun _ st' => Image st' (layout (done ++ [x])) ∧ st'.freeinode = done.length + 3)
      (fun _ _ => ¬ (x.Accepted ∧ Room (layout (done ++ [x])) (done.length + 3))) st := by
  simp only [addFile, wp_ite, wp_throw, wp_bind]
  refine ⟨fun hs hx => hx.1.1 hs, fun hs => ⟨fun ho => ?_, fun ho hx => ho hx.1.2⟩⟩
  refine wp_ialloc h (by omega) (by rw [hn]; exact layout_next done) .file fun st1 h1 hn1 => ?_
  rw [hn] at hn1 ⊢
  have hroot : (st1.dinode ROOTINO).type ≠ none := by
    rw [h1.typed, hn1]
    unfold ROOTINO
    omega
  -- every intermediate layout is below the one that is reached
  have hne : done.length + 2 ≠ ROOTINO := by
    unfold ROOTINO
    omega
  have hfinal := layout_concat done x
  refine wp_mono (wp_iappend h1 hroot _) (fun _ st2 happ => ?_) fun _ _ hno hx => hno ?_
  · obtain ⟨h2, hn2⟩ := happ
    have hnew : (st2.dinode (done.length + 2)).type ≠ none := by
      rw [h2.typed, hn2, hn1]
      omega
    have hr := wp_appendReads h2 hnew x.reads
    rw [update_of_ne hne, layout_next, List.nil_append, hn2, hn1] at hr
    rw [hfinal]
    exact wp_mono hr (fun _ st3 h3 => h3) fun _ _ hno hx => hno hx.2
  · rw [hn1]
    refine hx.2.mono (fun j => ?_) (Nat.le_refl _)
    rw [hfinal]
    by_cases hj : j = done.length + 2
    · subst j
      rw [update_of_ne hne, layout_next]
      exact Nat.zero_le _
    · rw [update_of_ne hj]
      exact Nat.le_refl _

theorem wp_addFiles {done : List Input} (h : Image st (layout done))
    (hn : st.freeinode = done.length + 2) (rest : List Input)
    (hlen : (done ++ rest).length ≤ 206) :
    wp (addFiles ROOTINO rest)
      (fun _ st' => Image st' (layout (done ++ rest)) ∧
        st'.freeinode = (done ++ rest).length + 2)
      (fun _ _ => ¬ ((∀ x ∈ rest, x.Accepted) ∧
        Room (layout (done ++ rest)) ((done ++ rest).length + 2))) st := by
  induction rest generalizing st done with
  | nil =>
    rw [List.append_nil]
    exact ⟨h, hn⟩
  | cons x rest ih =>
    have hsplit : done ++ x :: rest = (done ++ [x]) ++ rest := by simp
    rw [List.length_append, List.length_cons] at hlen
    rw [addFiles, wp_bind]
    refine wp_mono (wp_addFile h hn (by omega) x) (fun _ st1 hone => ?_) fun _ _ hno hx => hno ?_
    · obtain ⟨h1, hn1⟩ := hone
      have hr := ih h1 (by rw [hn1, List.length_append]; rfl)
        (by rw [List.length_append, List.length_append, List.length_singleton]; omega)
      rw [← hsplit] at hr
      exact wp_mono hr (fun _ _ h2 => h2) fun _ _ hno hx => hno
        ⟨fun y hy => hx.1 y (List.mem_cons_of_mem _ hy), hx.2⟩
    · refine ⟨hx.1 x List.mem_cons_self, hx.2.mono (fun j => ?_) ?_⟩
      · rw [hsplit]
        exact layout_length_le _ _ j
      · rw [List.length_append, List.length_cons]
        omega

end Files

/-! From the empty file to the finished image. -/

def Mk.zeroed (n : Nat) : Mk := ⟨fun _ => Block.zero, n, 1, nmeta, []⟩

-- the bound of the first loop is a literal, which must not be unfolded
attribute [local irreducible] forUpto

theorem wp_zeroes {E : Stop → Mk → Prop} {Q : Unit → Mk → Prop} (hQ : Q () (Mk.zeroed FSSIZE)) :
    wp (forUpto FSSIZE fun i => wsect i Block.zero) Q E Mk.init := by
  refine wp_post (wp_forUpto (fun k st => st = Mk.zeroed k) rfl fun i hi st hst => ?_)
    fun _ st hst => hst ▸ hQ
  subst st
  refine wp_wsect (Nat.le_of_lt hi) _ ?_
  unfold Mk.zeroed Mk.write
  rw [Nat.max_eq_right (Nat.le_succ i), update_eq_self i (fun _ => Block.zero)]

theorem zeroed_dinode (j : Nat) :
    ((Mk.zeroed FSSIZE).write 1 superblock).dinode j = unusedDinode := by
  by_cases hj : j < 208
  · have hr := iblock_range hj
    rw [dinode_eq hj, write_sect_ne (by omega)]
    exact getDinode_zero
  · unfold Mk.dinode dinodes
    rw [if_neg fun hlt => hj (iblock_lt.mp hlt)]

theorem zeroed_image : Image ((Mk.zeroed FSSIZE).write 1 superblock) fun _ => [] := by
  have hnone : ∀ j, (((Mk.zeroed FSSIZE).write 1 superblock).dinode j).type = none := fun j => by
    rw [zeroed_dinode]
    rfl
  have hrefs : ∀ q, ((Mk.zeroed FSSIZE).write 1 superblock).refs q = 0 := fun q => if_pos (hnone q.1)
  have hno : ∀ j, (((Mk.zeroed FSSIZE).write 1 superblock).dinode j).type ≠ none → False :=
    fun j hj => hj (hnone j)
  refine ⟨write_nsect rfl (by decide) _, by decide, by decide, ?_, ⟨?_, ?_, ?_, ?_⟩, ?_, ?_, ?_, ?_,
    ?_, ?_, ?_, ?_⟩
  · intro b hb _
    have hn : 46 ≤ b := hb
    rw [write_sect_ne (by omega)]
    rfl
  · exact fun b hb => decide_eq_true hb
  · exact fun q hq => absurd (hrefs q) hq
  · exact fun q _ hq => absurd (hrefs q) hq
  · intro b hb _
    have hn : 46 ≤ b := hb
    have hlt : ¬ b < ((Mk.zeroed FSSIZE).write 1 superblock).freeblock := Nat.not_lt.mpr hb
    simp only [hlt, decide_false, Bool.false_eq_true, false_iff, not_exists, hrefs]
    omega
  · intro j
    have h1 : ((Mk.zeroed FSSIZE).write 1 superblock).freeinode = 1 := rfl
    rw [h1]
    exact ⟨fun hj => (hno j hj).elim, fun hj => absurd hj.2 (Nat.not_lt.mpr hj.1)⟩
  iterate 4 exact fun j hj => (hno j hj).elim
  · decide
  · exact fun b hb => absurd hb List.not_mem_nil
  · exact write_sect_self _ _

structure Built (files : List Input) (st : Mk) : Prop where
  freeinode : st.freeinode = files.length + 2
  le : st.freeblock ≤ FSSIZE
  exact : Alloc.Exact nmeta FSSIZE (fun b => decide (b < st.freeblock)) st.refs
  typed : ∀ i, (st.dinode i).type ≠ none ↔ 1 ≤ i ∧ i < st.freeinode
  size : ∀ i, (st.dinode i).type ≠ none → i ≠ ROOTINO →
    (st.dinode i).size = (layout files i).length
  root : (st.dinode ROOTINO).size = ((rootBytes files).length / BSIZE + 1) * BSIZE
  covers : ∀ i, (st.dinode i).type ≠ none → Covers st.sect st.dinode i (layout files i).length
  tight : Tight st.refs ROOTINO (rootBytes files).length
  content : ∀ i, (st.dinode i).type ≠ none → ∀ k, k < (layout files i).length →
    (layout files i)[k]? = some (content st.sect st.dinode i k)
  writes : ∀ b ∈ st.inodeWrites, b < sb.bmapstart
  superblock : st.sect 1 = superblock
  bitmap : st.sect sb.bmapstart = setBits st.freeblock
  room : Room (layout files) (files.length + 2)

variable {files : List Input}

theorem Image.room {st : Mk} (h : Image st (layout files)) (hn : st.freeinode = files.length + 2) :
    Room (layout files) (files.length + 2) := by
  refine ⟨fun i => ?_, ?_⟩
  · by_cases hi : (st.dinode i).type = none
    · have hempty : layout files i = [] := by
        rcases i with _ | _ | k
        · rfl
        · exact absurd hi ((h.typed 1).mpr ⟨Nat.le_refl 1, by omega⟩)
        · rw [layout_file, List.getElem?_eq_none]
          · rfl
          · by_contra hlt
            exact (h.typed (k + 2)).mpr ⟨by omega, by omega⟩ hi
      rw [hempty]
      exact Nat.zero_le _
    · rw [← h.size i hi]
      exact covers_le (h.full i hi)
  · rw [← hn, ← h.count]
    exact h.le

theorem Image.built {st st' : Mk} {d : Dinode} (h : Image st (layout files))
    (hn : st.freeinode = files.length + 2) (hs : Stored st ROOTINO d st')
    (hty : d.type = (st.dinode ROOTINO).type) (haddrs : d.addrs = (st.dinode ROOTINO).addrs)
    (hsize : d.size = ((rootBytes files).length / BSIZE + 1) * BSIZE) :
    Built files (st'.write sb.bmapstart (setBits st'.freeblock)) := by
  have hroot : (st.dinode ROOTINO).type ≠ none := by
    rw [h.typed, hn]
    unfold ROOTINO
    omega
  have hlo := h.exact.lo_le_free (decide_eq_false (Nat.lt_irrefl st.freeblock))
  have hn46 : nmeta = 46 := rfl
  have hb45 : sb.bmapstart = 45 := rfl
  generalize hw : st'.write sb.bmapstart (setBits st'.freeblock) = out
  have hother : ∀ b, b ≠ sb.bmapstart → out.sect b = st'.sect b := fun b hb => by
    rw [← hw, write_sect_ne hb]
  have hblock : out.freeblock = st.freeblock := by
    rw [← hw]
    exact hs.freeblock
  have hinode : out.freeinode = st.freeinode := by
    rw [← hw]
    exact hs.freeinode
  have hD : out.dinode = update st.dinode ROOTINO d := by
    rw [← hs.dinode]
    funext j
    by_cases hj : j < 208
    · have hr := iblock_range hj
      rw [dinode_eq hj, dinode_eq hj, hother _ (by omega)]
    · unfold Mk.dinode dinodes
      rw [if_neg fun hlt => hj (iblock_lt.mp hlt), if_neg fun hlt => hj (iblock_lt.mp hlt)]
  have hmeta : ∀ b, b = 0 ∨ nmeta ≤ b → out.sect b = st.sect b := by
    intro b hb
    rw [hother b (by omega), hs.meta (by decide) b hb]
  have hsame : ∀ j, (out.dinode j).type = (st.dinode j).type ∧
      (out.dinode j).addrs = (st.dinode j).addrs := by
    intro j
    rw [hD]
    by_cases hj : j = ROOTINO
    · rw [hj, update_self]
      exact ⟨hty, haddrs⟩
    · rw [update_of_ne hj]
      exact ⟨rfl, rfl⟩
  have hrefs : out.refs = st.refs := refs_of_meta hmeta hsame h.range
  refine ⟨hinode.trans hn, hblock ▸ h.le, ?_, ?_, ?_, ?_, ?_, ?_, ?_, ?_, ?_, ?_, h.room hn⟩
  · rw [hrefs, hblock]
    exact h.exact
  · intro j
    rw [(hsame j).1, hinode]
    exact h.typed j
  · intro j hj hne
    rw [(hsame j).1] at hj
    rw [hD, update_of_ne hne]
    exact h.size j hj
  · rw [hD, update_self, hsize]
  · intro j hj
    rw [(hsame j).1] at hj
    rw [← h.size j hj]
    exact covers_of_refs hrefs (h.full j hj)
  · rw [hrefs]
    exact h.tight ROOTINO hroot
  · intro j hj k hk
    rw [(hsame j).1] at hj
    rw [content_of_meta hmeta h.range hrefs]
    exact h.content j hj k hk
  · intro b hb
    rw [← hw] at hb
    have hb' : b ∈ st'.inodeWrites := hb
    rw [hs.writes] at hb'
    rcases List.mem_cons.mp hb' with rfl | hb'
    · decide
    · exact h.writes b hb'
  · rw [hother 1 (by decide), hs.sect 1 (by decide)]
    exact h.superblock
  · rw [hblock, ← hs.freeblock, ← hw]
    exact write_sect_self _ _

theorem round_up_lt {n : Nat} (h : n ≤ MAXFILE * BSIZE) : (n / BSIZE + 1) * BSIZE < U32 := by
  have hmax : MAXFILE = 268 := rfl
  rw [hmax] at h
  unfold U32 BSIZE at *
  omega

theorem wp_finish {st : Mk} {E : Stop → Mk → Prop} (h : Image st (layout files))
    (hn : st.freeinode = files.length + 2) :
    wp (finish ROOTINO) (fun _ st => Built files st) E st := by
  have hroot : (st.dinode ROOTINO).type ≠ none := by
    rw [h.typed, hn]
    exact ⟨by decide, by unfold ROOTINO; omega⟩
  have hsize : (st.dinode ROOTINO).size = (rootBytes files).length := h.size ROOTINO hroot
  have hfields : Fields (st.dinode ROOTINO) := by
    rw [dinode_eq (by decide)]
    exact getDinode_fields _ _
  have hnew : Fields { st.dinode ROOTINO with
      size := ((st.dinode ROOTINO).size / BSIZE + 1) * BSIZE } :=
    ⟨hfields.major, hfields.minor, hfields.nlink, round_up_lt (covers_le (h.full ROOTINO hroot)),
      hfields.addrs⟩
  simp only [finish, fixRoot, wp_bind, wp_get]
  refine wp_rinode h.nsect (by decide) (wp_winode h.nsect (by decide) hnew fun st' hs => ?_)
  have hused : st'.freeblock < BSIZE * 8 := by
    rw [hs.freeblock]
    exact lt_of_le_of_lt h.le (by decide)
  rw [balloc, if_pos hused]
  exact wp_wsect (by decide) _ (h.built hn hs rfl rfl (by rw [← hsize]))

theorem layout_nil : update (update (fun _ => []) ROOTINO
    ([] ++ dirent ROOTINO (ascii "."))) ROOTINO
      (update (fun _ => []) ROOTINO ([] ++ dirent ROOTINO (ascii ".")) ROOTINO ++
        dirent ROOTINO (ascii "..")) = layout [] := by
  funext i
  rw [update_idem, update_self]
  by_cases hi : i = ROOTINO
  · subst i
    rw [update_self, layout_root]
    exact (List.append_nil _).symm
  · rw [update_of_ne hi, layout, if_neg hi]
    split <;> rfl

/-! The inode counter, for any number of files. -/

def KeepsNumber (c : MkProg α) : Prop :=
  ∀ st, wp c (fun _ st' => st'.freeinode = st.freeinode) (fun _ _ => True) st

theorem KeepsNumber.bind {c : MkProg α} {g : α → MkProg β} (hc : KeepsNumber c)
    (hg : ∀ a, KeepsNumber (g a)) : KeepsNumber (c >>= g) := by
  intro st
  rw [wp_bind]
  refine wp_post (hc st) fun a st1 h1 => ?_
  exact wp_post (hg a st1) fun _ _ h2 => h2.trans h1

theorem KeepsNumber.pure (a : α) : KeepsNumber (Pure.pure a : MkProg α) := fun st => by
  rw [wp_pure]

theorem KeepsNumber.throw (e : Stop) : KeepsNumber (MonadExcept.throw e : MkProg α) :=
  fun _ => trivial

/-- `mkfs` makes its image from up to 206 arguments, unless one of them is refused or they do
not fit. -/
theorem wp_main (files : List Input) (hlen : files.length ≤ 206) :
    wp (main files) (fun _ st => Built files st)
      (fun _ _ => ¬ ((∀ x ∈ files, x.Accepted) ∧ Room (layout files) (files.length + 2)))
      Mk.init := by
  have hmono : ∀ i, (layout [] i).length ≤ (layout files i).length := fun i =>
    layout_length_le [] files i
  unfold main
  rw [wp_bind]
  refine wp_zeroes ?_
  rw [wp_bind]
  refine wp_wsect (by decide) _ ?_
  rw [wp_bind]
  refine wp_ialloc zeroed_image (by decide) rfl .dir fun st1 h1 hn1 => ?_
  have hone : ((Mk.zeroed FSSIZE).write 1 superblock).freeinode = ROOTINO := rfl
  rw [hone] at hn1 ⊢
  have hroot : ∀ {st : Mk} {f : Nat → List UInt8}, Image st f → st.freeinode = ROOTINO + 1 →
      (st.dinode ROOTINO).type ≠ none := fun h hn => by
    rw [h.typed, hn]
    decide
  rw [if_pos rfl, wp_bind]
  -- the two entries every directory has
  refine wp_mono (wp_iappend h1 (hroot h1 hn1) _) (fun _ st2 hdot => ?_)
    fun _ _ hno hx => hno ?_
  · obtain ⟨h2, hn2⟩ := hdot
    rw [hn1] at hn2
    rw [wp_bind]
    refine wp_mono (wp_iappend h2 (hroot h2 hn2) _) (fun _ st3 hdotdot => ?_)
      fun _ _ hno hx => hno ?_
    · obtain ⟨h3, hn3⟩ := hdotdot
      rw [layout_nil] at h3
      rw [hn2] at hn3
      rw [wp_bind]
      refine wp_mono (wp_addFiles h3 hn3 files hlen) (fun _ st4 hfiles => ?_)
        fun _ _ hno => hno
      exact wp_finish hfiles.1 hfiles.2
    · rw [layout_nil, hn2]
      exact hx.2.mono hmono (by unfold ROOTINO; omega)
  · rw [hn1]
    refine hx.2.mono (fun i => le_trans ?_ (hmono i)) (by unfold ROOTINO; omega)
    rw [← layout_nil]
    refine update_length_le _ (fun j hj => ?_) ?_ i
    · rw [update_of_ne hj, update_of_ne hj]
    · rw [update_self, update_self]
      exact (List.sublist_append_left _ _).length_le

end Xv6Audit.Mkfs
