import Xv6Audit.Mkfs.Main
import Xv6Audit.Fs.Edit

/-! The finished image in the kernel: what it reads, where the blocks are, and which images
have a hole or more inodes than the superblock says. -/
namespace Xv6Audit.Mkfs

open Prog Disk FileSys
open Audit (ascii)

/-! Sizes. -/

theorem dirent_length (inum : Nat) (name : List UInt8) : (dirent inum name).length = 16 := by
  simp [dirent, Dirent.bytes, strncpyBytes_length, DIRSIZ]

theorem entries_length (inum : Nat) (files : List Input) :
    (entries inum files).length = 16 * files.length := by
  induction files generalizing inum with
  | nil => rfl
  | cons f rest ih =>
    rw [entries, List.length_append, dirent_length, ih, List.length_cons]
    omega

theorem rootBytes_length (files : List Input) : (rootBytes files).length = 16 * (files.length + 2) := by
  rw [rootBytes, List.length_append, List.length_append, dirent_length, dirent_length, entries_length]
  omega

theorem sum_getD (l : List Nat) : ∑ k ∈ Finset.range l.length, l.getD k 0 = l.sum := by
  induction l with
  | nil => rfl
  | cons a l ih =>
    rw [List.length_cons, Finset.sum_range_succ', List.sum_cons, ← ih, Nat.add_comm]
    rfl

theorem sum_layout (files : List Input) :
    ∑ i ∈ Finset.range (files.length + 2), blocksFor (layout files i).length =
      blocksFor (16 * (files.length + 2)) + (files.map fun x => blocksFor x.bytes.length).sum := by
  have hfiles : ∀ k ∈ Finset.range files.length,
      blocksFor (layout files (k + 1 + 1)).length =
        (files.map fun x => blocksFor x.bytes.length).getD k 0 := by
    intro k hk
    have hlt := Finset.mem_range.mp hk
    rw [layout_file, List.getD_eq_getElem?_getD, List.getElem?_map, List.getElem?_eq_getElem hlt]
    rfl
  have hsum := sum_getD (files.map fun x => blocksFor x.bytes.length)
  rw [List.length_map] at hsum
  have h0 : blocksFor (layout files 0).length = 0 := by simp [layout, blocksFor, BSIZE]
  have h1 : layout files (0 + 1) = rootBytes files := rfl
  rw [Finset.sum_range_succ', Finset.sum_range_succ', Finset.sum_congr rfl hfiles, hsum, h0, h1,
    rootBytes_length]
  omega

structure Fits (files : List Input) : Prop where
  number : files.length ≤ NINODES - 2
  accepted : ∀ x ∈ files, x.Accepted
  size : ∀ x ∈ files, x.bytes.length ≤ MAXFILE * BSIZE
  total : nmeta + blocksFor (16 * (files.length + 2)) +
    (files.map fun x => blocksFor x.bytes.length).sum ≤ FSSIZE

variable {files : List Input}

theorem room_of_total (hlen : files.length ≤ 206)
    (hsize : ∀ x ∈ files, x.bytes.length ≤ MAXFILE * BSIZE)
    (htotal : nmeta + blocksFor (16 * (files.length + 2)) +
      (files.map fun x => blocksFor x.bytes.length).sum ≤ FSSIZE) :
    Room (layout files) (files.length + 2) := by
  refine ⟨fun i => ?_, by rw [sum_layout, ← Nat.add_assoc]; exact htotal⟩
  rcases i with _ | _ | k
  · exact Nat.zero_le _
  · change (rootBytes files).length ≤ _
    rw [rootBytes_length]
    have hmax : MAXFILE * BSIZE = 274432 := rfl
    omega
  · rw [layout_file]
    by_cases hk : k < files.length
    · rw [List.getElem?_eq_getElem hk]
      exact hsize _ (List.getElem_mem hk)
    · rw [List.getElem?_eq_none (Nat.le_of_not_lt hk)]
      exact Nat.zero_le _

-- its first loop must not be unrolled
attribute [local irreducible] main

theorem main_ok (hlen : files.length ≤ 206) (hacc : ∀ x ∈ files, x.Accepted)
    (hroom : Room (layout files) (files.length + 2)) :
    ∃ st, main files Mk.init = (.ok (), st) ∧ Built files st := by
  rcases wp_cases (wp_main files hlen) with ⟨_, st, hrun, hb⟩ | ⟨_, _, _, hno⟩
  · exact ⟨st, hrun, hb⟩
  · exact absurd ⟨hacc, hroom⟩ hno

/-! The mounted image. -/

variable {n : Nat}

section Mount
variable {files : List Input} {st : Mk}

section
variable (h : Built files st)
include h

theorem Built.sb : (mount st.sect).sb = Mkfs.sb := by
  change readsb (st.sect 1) = Mkfs.sb
  rw [h.superblock, readsb_superblock]

theorem Built.dinode : (mount st.sect).dinode = st.dinode := by
  change dinodes (readsb (st.sect 1)) st.sect = _
  rw [h.superblock, readsb_superblock]
  rfl

theorem Built.mount_bitmap {b : Nat} (hb : b < BPB) :
    (mount st.sect).bitmap b = decide (b < st.freeblock) := by
  change bitSet (st.sect (b / BPB + (readsb (st.sect 1)).bmapstart)) (b % BPB) = _
  rw [h.superblock, readsb_superblock, Nat.div_eq_of_lt hb, Nat.zero_add, Nat.mod_eq_of_lt hb, h.bitmap]
  exact bitSet_setBits (le_trans h.le (by decide)) b

theorem Built.mount_exact :
    Alloc.Exact nmeta FSSIZE (mount st.sect).bitmap
      (refs (mount st.sect).data (mount st.sect).dinode) := by
  have hbit : ∀ b, b < FSSIZE → (mount st.sect).bitmap b = decide (b < st.freeblock) :=
    fun b hb => h.mount_bitmap (Nat.lt_trans hb (by decide))
  rw [h.dinode]
  refine ⟨fun b hb => ?_, h.exact.range, h.exact.inj, fun b hlo hhi => ?_⟩
  · rw [hbit b (Nat.lt_trans hb (by decide))]
    exact h.exact.base b hb
  · rw [hbit b hhi]
    exact h.exact.named b hlo hhi

end

def readInode (i off n : Nat) : FsProg (Int × List UInt8) := do
  let s ← iget i
  ilock s
  readi s (fun _ => true) off n

def loaded (sect : Nat → Block) (i : Nat) : Fs :=
  (mount sect).setInode slot0 ⟨i, 1, true, true, (mount sect).dinode i⟩

section
variable (sect : Nat → Block)
include sect

theorem loaded_self (i : Nat) :
    (loaded sect i).itable slot0 = ⟨i, 1, true, true, (mount sect).dinode i⟩ := by
  simp [loaded, Fs.setInode]

theorem loaded_cur (i : Nat) : (loaded sect i).cur slot0 = (mount sect).dinode := by
  unfold Fs.cur
  rw [loaded_self]
  exact Function.update_eq_self i (mount sect).dinode

theorem mount_emptySlot : (mount sect).emptySlot = some slot0 := rfl

theorem mount_find (i : Nat) : (mount sect).find i = none := by
  refine List.find?_eq_none.mpr fun s _ => ?_
  simp [mount]

end

variable {E : String → Fs → Prop} {i : Nat}

theorem wp_ilock_load {Q : Unit → Fs → Prop} {fs : Fs} {s : Fin NINODE} {d : Dinode}
    (hs : fs.itable s = ⟨i, 1, false, false, d⟩) (ht : (fs.dinode i).type ≠ none)
    (hQ : Q () (fs.setInode s ⟨i, 1, true, true, fs.dinode i⟩)) : wp (ilock s) Q E fs := by
  have hlock : (fs.setInode s ⟨i, 1, true, false, d⟩).itable s = ⟨i, 1, true, false, d⟩ := by
    simp [Fs.setInode]
  have hload : (fs.setInode s ⟨i, 1, true, false, d⟩).setInode s ⟨i, 1, true, true, fs.dinode i⟩ =
      fs.setInode s ⟨i, 1, true, true, fs.dinode i⟩ := by
    simp [Fs.setInode]
  have hd : (fs.setInode s ⟨i, 1, true, false, d⟩).dinode = fs.dinode := rfl
  simp only [ilock, acquireSleep, wp_bind, wp_get, wp_ite, wp_set, wp_throw, wp_pure, hs, hlock, hd]
  refine ⟨fun h1 => absurd h1 (Int.lt_irrefl 1), fun _ => ⟨fun h1 => (by cases h1), fun _ =>
    ⟨fun h1 => (by cases h1), fun _ => ⟨fun h1 => absurd h1 ht, fun _ => ?_⟩⟩⟩⟩
  rw [hload]
  exact hQ

theorem wp_readInode {Q : Int × List UInt8 → Fs → Prop} {sect : Nat → Block} {off : Nat}
    (ht : ((mount sect).dinode i).type ≠ none)
    (hQ : wp (readi slot0 (fun _ => true) off n) Q E (loaded sect i)) :
    wp (readInode i off n) Q E (mount sect) := by
  simp only [readInode, iget, wp_bind, wp_get, mount_find, mount_emptySlot, wp_set, wp_pure]
  have hself : ((mount sect).setInode slot0
      { (mount sect).itable slot0 with inum := i, ref := 1, valid := false }).itable slot0 =
        ⟨i, 1, false, false, unusedDinode⟩ := by
    simp [Fs.setInode, mount]
  refine wp_ilock_load hself ht ?_
  have hset : ((mount sect).setInode slot0
      { (mount sect).itable slot0 with inum := i, ref := 1, valid := false }).setInode slot0
        ⟨i, 1, true, true, (mount sect).dinode i⟩ = loaded sect i := by
    simp [loaded, Fs.setInode]
  rw [← hset] at hQ
  exact hQ

theorem Built.work (h : Built files st) (hi : (st.dinode i).type ≠ none) :
    Work (loaded st.sect i) slot0 := by
  have hD := h.dinode
  have hlive : ∀ t, (loaded st.sect i).live t → t = slot0 := by
    intro t ht
    by_contra hne
    have ht' : 0 < ((loaded st.sect i).itable t).ref := ht
    have hit : (loaded st.sect i).itable t = (mount st.sect).itable t := Function.update_of_ne hne _ _
    rw [hit] at ht'
    exact absurd ht' (Int.lt_irrefl 0)
  have hself := loaded_self st.sect i
  refine ⟨?_, ?_, ?_, ?_, ?_, ?_, ?_⟩
  · have hsb : (loaded st.sect i).sb = Mkfs.sb := h.sb
    rw [hsb]
    exact sb_ok
  · unfold Fs.live
    rw [hself]
    exact Int.one_pos
  · rw [hself]
  · rw [hself, hD]
    exact hi
  · intro t u ht hu _
    rw [hlive t ht, hlive u hu]
  · intro t hts ht
    exact absurd (hlive t ht) hts
  · have hsb : (loaded st.sect i).sb = Mkfs.sb := h.sb
    rw [loaded_cur, hsb, sb_nmeta]
    exact h.mount_exact

theorem Built.wp_read (h : Built files st) (hi : (st.dinode i).type ≠ none)
    (hc : Covers st.sect st.dinode i (st.dinode i).size) (off n : Nat)
    {Q : Int × List UInt8 → Fs → Prop}
    (hQ : ∀ r : Int × List UInt8, (off ≤ (st.dinode i).size → off + n < U32 →
      r = (((min n ((st.dinode i).size - off) : Nat) : Int),
        bytes st.sect st.dinode i off (min n ((st.dinode i).size - off)))) →
      Q r (loaded st.sect i)) :
    wp (readInode i off n) Q E (mount st.sect) := by
  have hD := h.dinode
  have hself := loaded_self st.sect i
  have hcur := loaded_cur st.sect i
  have hdata : (loaded st.sect i).data = st.sect := rfl
  rw [hD] at hself hcur
  refine wp_readInode (by rw [hD]; exact hi)
    (wp_readi (h.work hi) ?_ _ _ _ fun r hr => hQ r fun h1 h2 => ?_)
  · rw [hself, hcur]
    exact hc
  · rw [hself, hcur, hdata] at hr
    exact hr (fun _ _ => rfl) h1 h2

theorem Built.bytes_eq (h : Built files st) (hi : (st.dinode i).type ≠ none) (off n : Nat)
    (hoff : off + n ≤ (layout files i).length) :
    bytes st.sect st.dinode i off n = ((layout files i).drop off).take n := by
  refine List.ext_getElem? fun j => ?_
  by_cases hj : j < n
  · rw [List.getElem?_take_of_lt hj, List.getElem?_drop, h.content i hi _ (by omega)]
    simp [bytes, hj]
  · rw [List.getElem?_eq_none (by simp [bytes]; omega), List.getElem?_eq_none (by simp; omega)]

end Mount

/-- The image that `mkfs` makes of files that fit is read back by the kernel: `readi` on the
inode of each file returns its bytes; the blocks of all places are different and in the data
area; the bitmap has the metadata and the blocks in use. -/
theorem image_reads_back (files : List Input) (h : Fits files) :
    ∃ st, main files Mk.init = (.ok (), st) ∧
      (∀ k, (hk : k < files.length) → ∀ off n, off ≤ (files.get ⟨k, hk⟩).bytes.length →
        off + n < U32 → ∃ fs, readInode (k + 2) off n (mount st.sect) =
          (.ok (((((files.get ⟨k, hk⟩).bytes.drop off).take n).length : Int),
            ((files.get ⟨k, hk⟩).bytes.drop off).take n), fs)) ∧
      (∀ q r, refs (mount st.sect).data (mount st.sect).dinode q ≠ 0 →
        refs (mount st.sect).data (mount st.sect).dinode q =
          refs (mount st.sect).data (mount st.sect).dinode r → q = r) ∧
      (∀ q, refs (mount st.sect).data (mount st.sect).dinode q ≠ 0 →
        nmeta ≤ refs (mount st.sect).data (mount st.sect).dinode q ∧
          refs (mount st.sect).data (mount st.sect).dinode q < FSSIZE) ∧
      ∀ b, b < FSSIZE → ((mount st.sect).bitmap b = true ↔
        b < nmeta ∨ ∃ q, refs (mount st.sect).data (mount st.sect).dinode q = b) := by
  have hlen : files.length ≤ 206 := le_trans h.number (by decide)
  obtain ⟨st, hrun, hb⟩ := main_ok hlen h.accepted (room_of_total hlen h.size h.total)
  have hex := hb.mount_exact
  refine ⟨st, hrun, fun k hk off n hoff hn => ?_, hex.inj, hex.range, fun b hlt => ?_⟩
  · have hi : (st.dinode (k + 2)).type ≠ none := by
      rw [hb.typed, hb.freeinode]
      omega
    have hlay : layout files (k + 2) = (files.get ⟨k, hk⟩).bytes := by
      rw [layout_file, List.getElem?_eq_getElem hk]
      rfl
    have hsize := hb.size (k + 2) hi (by unfold ROOTINO; omega)
    have hcov := hb.covers (k + 2) hi
    rw [← hsize] at hcov
    rw [hlay] at hsize
    have hread := hb.wp_read hi hcov (E := fun _ _ => False) off n
      (Q := fun r _ => r = (((((files.get ⟨k, hk⟩).bytes.drop off).take n).length : Int),
        ((files.get ⟨k, hk⟩).bytes.drop off).take n)) fun r hr => ?_
    · rcases wp_cases hread with ⟨r, fs, hrr, rfl⟩ | ⟨_, _, _, hno⟩
      · exact ⟨fs, hrr⟩
      · exact hno.elim
    · have htake : ((files.get ⟨k, hk⟩).bytes.drop off).take
          (min n ((files.get ⟨k, hk⟩).bytes.length - off)) =
            ((files.get ⟨k, hk⟩).bytes.drop off).take n := by
        rw [← List.length_drop, ← List.take_eq_take_min]
      rw [hr (by omega) hn, hsize, hb.bytes_eq hi off _ (by rw [hlay]; omega), hlay, htake,
        List.length_take, List.length_drop]
  · by_cases hlo : b < nmeta
    · exact iff_of_true (hex.base b hlo) (.inl hlo)
    · rw [hex.named b (Nat.le_of_not_lt hlo) hlt]
      exact ⟨.inr, fun ho => ho.resolve_left hlo⟩

def Input.zeros (n : Nat) (h : n ≤ BSIZE) : Input where
  path := ascii "user/_a"
  opens := true
  reads := if n = 0 then [] else [List.replicate n 0]
  chunks := by
    intro r hr
    split at hr
    · cases hr
    · obtain rfl := List.mem_singleton.mp hr
      rw [List.length_replicate]
      omega

theorem Input.zeros_bytes (n : Nat) (h : n ≤ BSIZE) : (Input.zeros n h).bytes = List.replicate n 0 := by
  unfold Input.bytes Input.zeros
  by_cases h0 : n = 0
  · subst n
    rfl
  · simp [h0]

theorem Input.zeros_accepted (n : Nat) (h : n ≤ BSIZE) : (Input.zeros n h).Accepted :=
  ⟨show SLASH ∉ shortname (ascii "user/_a") by decide, rfl⟩

def copies (m n : Nat) (h : n ≤ BSIZE) : List Input := List.replicate m (Input.zeros n h)

theorem copies_length {m : Nat} (h : n ≤ BSIZE) : (copies m n h).length = m :=
  List.length_replicate

theorem copies_fit {m : Nat} (h : n ≤ BSIZE)
    (htotal : nmeta + blocksFor (16 * (m + 2)) + m * blocksFor n ≤ FSSIZE) :
    (∀ x ∈ copies m n h, x.Accepted) ∧ (∀ x ∈ copies m n h, x.bytes.length ≤ MAXFILE * BSIZE) ∧
      nmeta + blocksFor (16 * ((copies m n h).length + 2)) +
        ((copies m n h).map fun x => blocksFor x.bytes.length).sum ≤ FSSIZE := by
  refine ⟨fun x hx => ?_, fun x hx => ?_, ?_⟩
  · rw [List.eq_of_mem_replicate hx]
    exact Input.zeros_accepted n h
  · rw [List.eq_of_mem_replicate hx, Input.zeros_bytes, List.length_replicate]
    exact le_trans h (by decide)
  · rw [copies, List.length_replicate, List.map_replicate, List.sum_replicate, Input.zeros_bytes,
      List.length_replicate]
    exact htotal

theorem copies_built {m : Nat} (h : n ≤ BSIZE) (hm : m ≤ 206)
    (htotal : nmeta + blocksFor (16 * (m + 2)) + m * blocksFor n ≤ FSSIZE) :
    ∃ st, main (copies m n h) Mk.init = (.ok (), st) ∧ Built (copies m n h) st := by
  obtain ⟨hacc, hsize, htot⟩ := copies_fit h htotal
  rw [← copies_length (m := m) h] at hm
  exact main_ok hm hacc (room_of_total hm hsize htot)

def Input.filled (path : List UInt8) (c : UInt8) (k : Nat) : Input where
  path := path
  opens := true
  reads := List.replicate k (List.replicate BSIZE c)
  chunks := by
    intro r hr
    rw [List.eq_of_mem_replicate hr, List.length_replicate]
    decide

theorem Input.filled_bytes (path : List UInt8) (c : UInt8) (k : Nat) :
    (Input.filled path c k).bytes = List.replicate (k * BSIZE) c :=
  List.flatten_replicate_replicate

def twoFiles : List Input :=
  [Input.filled (ascii "user/_a") 1 13, Input.filled (ascii "user/_b") 2 1]

theorem image_reads_back_two : Fits twoFiles ∧ ∃ st, main twoFiles Mk.init = (.ok (), st) ∧
    (∃ fs, readInode 2 (NDIRECT * BSIZE) 3 (mount st.sect) = (.ok (3, [1, 1, 1]), fs)) ∧
    ∃ fs, readInode 3 (BSIZE - 2) 5 (mount st.sect) = (.ok (2, [2, 2]), fs) := by
  have hfits : Fits twoFiles := by
    refine ⟨by decide, ?_, ?_, ?_⟩
    · simp only [twoFiles, List.forall_mem_cons, List.not_mem_nil, false_implies, implies_true,
        and_true]
      exact ⟨⟨show SLASH ∉ shortname (ascii "user/_a") by decide, rfl⟩,
        show SLASH ∉ shortname (ascii "user/_b") by decide, rfl⟩
    · simp only [twoFiles, List.forall_mem_cons, List.not_mem_nil, false_implies, implies_true,
        and_true, Input.filled_bytes, List.length_replicate]
      decide
    · simp only [twoFiles, List.map_cons, List.map_nil, Input.filled_bytes, List.length_replicate]
      decide
  obtain ⟨st, hrun, hread, -⟩ := image_reads_back twoFiles hfits
  have ha := hread 0 (by decide) (NDIRECT * BSIZE) 3
  have hb := hread 1 (by decide) (BSIZE - 2) 5
  simp only [twoFiles, List.get_eq_getElem, List.getElem_cons_zero, List.getElem_cons_succ,
    Input.filled_bytes, List.drop_replicate, List.take_replicate, List.length_replicate] at ha hb
  exact ⟨hfits, st, hrun, ha (by decide) (by decide), hb (by decide) (by decide)⟩

/-! Holes. -/

def NoHoles (fs : Fs) : Prop :=
  Full fs.data fs.dinode ∧ ∀ i, (fs.dinode i).type ≠ none → ∀ off n,
    (readInode i off n fs).2.logged = fs.logged

section Holes
variable {files : List Input} {st : Mk}

theorem Built.root_covers_iff (h : Built files st) :
    Covers st.sect st.dinode ROOTINO (st.dinode ROOTINO).size ↔ (files.length + 2) % 64 ≠ 0 := by
  have hlen := rootBytes_length files
  have hsize := h.root
  constructor
  · intro hc h64
    have hend : (files.length + 2) / 64 * BSIZE = (rootBytes files).length := by
      unfold BSIZE
      omega
    obtain ⟨p, hp, hne⟩ := hc ((files.length + 2) / 64) (by
      rw [hsize]
      unfold BSIZE at *
      omega)
    exact hne (h.tight.beyond _ p hp (Nat.le_of_eq hend.symm))
  · intro h64 k hk
    refine h.covers ROOTINO ?_ k ?_
    · rw [h.typed, h.freeinode]
      unfold ROOTINO
      omega
    · rw [layout_root, hlen]
      rw [hsize, hlen] at hk
      unfold BSIZE at *
      omega

theorem Built.full_iff (h : Built files st) :
    Full st.sect st.dinode ↔ (files.length + 2) % 64 ≠ 0 := by
  rw [← h.root_covers_iff]
  constructor
  · intro hf
    refine hf ROOTINO ?_
    rw [h.typed, h.freeinode]
    unfold ROOTINO
    omega
  · intro hc i hi
    by_cases hr : i = ROOTINO
    · rw [hr]
      exact hc
    · rw [h.size i hi hr]
      exact h.covers i hi

end Holes

/-- An image of at most 206 files has no hole exactly if the entries of the root directory do
not fill its blocks. The inode of the 207th file goes into the bitmap block, and from there on
nothing is said. -/
theorem no_holes_iff (files : List Input) (hlen : files.length ≤ 206) (st : Mk)
    (hrun : main files Mk.init = (.ok (), st)) :
    NoHoles (mount st.sect) ↔ (files.length + 2) % 64 ≠ 0 := by
  have h : Built files st := wp_of_run (Q := fun _ st => Built files st) (wp_main files hlen) hrun
  have hD := h.dinode
  rw [← h.full_iff, NoHoles, hD]
  refine ⟨fun hf => hf.1, fun hf => ⟨hf, fun i hi off n => ?_⟩⟩
  have hread := h.wp_read hi (hf i hi) (E := fun _ _ => False) off n
    (Q := fun _ fs => fs.logged = []) fun _ _ => rfl
  rcases wp_cases hread with ⟨r, fs, hrr, hl⟩ | ⟨_, _, _, hno⟩
  · rw [hrr]
    exact hl
  · exact hno.elim

theorem no_holes_one : ∃ st, main (copies 1 3 (by decide)) Mk.init = (.ok (), st) ∧
    NoHoles (mount st.sect) := by
  obtain ⟨st, hrun, -⟩ := copies_built (m := 1) (n := 3) (by decide) (by decide) (by decide)
  exact ⟨st, hrun, (no_holes_iff (copies 1 3 (by decide)) (by decide) st hrun).mpr (by decide)⟩

/-- With 62 files the root directory has 64 entries, which fill its one block: its size is set
to two blocks, and the second is not there. -/
theorem root_of_62_files_has_hole : ∃ st, main (copies 62 0 (by decide)) Mk.init = (.ok (), st) ∧
    ((mount st.sect).dinode ROOTINO).size = 2 * BSIZE ∧
    refs (mount st.sect).data (mount st.sect).dinode (ROOTINO, .addr (directIdx 1 (by decide))) = 0 ∧
    ¬ NoHoles (mount st.sect) := by
  obtain ⟨st, hrun, hb⟩ := copies_built (m := 62) (n := 0) (by decide) (by decide) (by decide)
  have hlen : (rootBytes (copies 62 0 (by decide))).length = 1 * BSIZE := rootBytes_length _
  refine ⟨st, hrun, ?_, ?_, fun hn => ?_⟩
  · rw [hb.dinode, hb.root, hlen]
    rfl
  · rw [hb.dinode]
    exact hb.tight.beyond 1 _ rfl (Nat.le_of_eq hlen)
  · have hf := hn.1
    rw [hb.dinode] at hf
    exact hb.full_iff.mp hf (by decide)

/-! Numbers. -/

/-- What `mkfs` wrote stays within the geometry: the inodes it used are inodes of the
superblock, the blocks it stored are blocks of the image, and no inode write went to the
bitmap. -/
structure Within (st : Mk) : Prop where
  inodes : ∀ i, i < st.freeinode → i < NINODES
  blocks : ∀ q, refs (mount st.sect).data (mount st.sect).dinode q < FSSIZE
  writes : ∀ b ∈ st.inodeWrites, b < sb.bmapstart

end Xv6Audit.Mkfs
