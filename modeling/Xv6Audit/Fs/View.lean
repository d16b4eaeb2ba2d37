import Xv6Audit.Lib.LinkTree
import Xv6Audit.Fs.Blocks
import Xv6Audit.Fs.Dir

/-! The tree of names a file system shows: the entries of its directories, and what reading
and writing an entry does to it. -/
namespace Xv6Audit.FileSys

open Prog Disk LinkTree
open Audit (ascii strncpyBytes)

/-! Names. -/

def cname (l : List UInt8) : Name := (l.take DIRSIZ).takeWhile (· != 0)

theorem strncmp_eq_zero (p q : List UInt8) (n : Nat) :
    strncmp p q n = 0 ↔ (p.take n).takeWhile (· != 0) = (q.take n).takeWhile (· != 0) := by
  induction n generalizing p q with
  | zero => simp [strncmp]
  | succ n ih =>
    have hsub : ∀ a b : UInt8, ((a.toNat : Int) - b.toNat = 0) ↔ a = b := by
      intro a b
      rw [← UInt8.toNat_inj]
      omega
    have hz : ∀ b : UInt8, b ≠ 0 → b.toNat ≠ 0 := fun b hb h => hb (UInt8.toNat_inj.mp h)
    cases p with
    | nil =>
      cases q with
      | nil => simp [strncmp]
      | cons b q =>
        by_cases hb : b = 0
        · simp [strncmp, hb]
        · simp [strncmp, hb, hz b hb]
    | cons a p =>
      cases q with
      | nil =>
        by_cases ha : a = 0
        · simp [strncmp, ha]
        · simp [strncmp, ha, hz a ha]
      | cons b q =>
        by_cases ha : a = 0
        · by_cases hb : b = 0
          · simp [strncmp, ha, hb]
          · simp [strncmp, ha, hb, hz b hb]
        · by_cases hab : a = b
          · subst b
            simp [strncmp, ha, ih]
          · by_cases hb : b = 0
            · simp [strncmp, ha, hb, hz a ha]
            · simp [strncmp, ha, hab, hb, hsub a b]

theorem namecmp_eq_zero (s t : List UInt8) : namecmp s t = 0 ↔ cname s = cname t :=
  strncmp_eq_zero s t DIRSIZ

/-! Entries. -/

def Fs.nents (fs : Fs) (d : Nat) : Nat := (fs.dinode d).size / DESIZE

def Fs.dirent (fs : Fs) (d k : Nat) : Dirent :=
  Dirent.ofBytes (bytes fs.data fs.dinode d (DESIZE * k) DESIZE)

def Fs.entry (fs : Fs) (d k : Nat) : Option (Nat × Name) :=
  if (fs.dinode d).type = some .dir ∧ k < fs.nents d ∧ (fs.dirent d k).inum ≠ 0 then
    some ((fs.dirent d k).inum, cname (fs.dirent d k).name)
  else none

def kindOf : InodeType → Kind
  | .dir => .dir
  | .file => .leaf
  | .device => .leaf

def Fs.tree (fs : Fs) : Tree Nat Name where
  kind i := (fs.dinode i).type.map kindOf
  nlink i := if (fs.dinode i).type = none then 0 else (fs.dinode i).nlink
  ent := fs.entry

variable {i k : Nat}

theorem kind_dir {fs : Fs} :
    fs.tree.kind i = some .dir ↔ (fs.dinode i).type = some .dir := by
  simp only [Fs.tree]
  cases (fs.dinode i).type with
  | none => simp
  | some c => cases c <;> simp [kindOf]

theorem kind_none {fs : Fs} : fs.tree.kind i = none ↔ (fs.dinode i).type = none := by
  simp [Fs.tree]

theorem kind_leaf {fs : Fs} : fs.tree.kind i = some .leaf ↔
    (fs.dinode i).type ≠ none ∧ (fs.dinode i).type ≠ some .dir := by
  simp only [Fs.tree]
  cases (fs.dinode i).type with
  | none => simp
  | some c => cases c <;> simp [kindOf]

theorem tree_nlink {fs : Fs} (h : (fs.dinode i).type ≠ none) :
    fs.tree.nlink i = (fs.dinode i).nlink := if_neg h

theorem tree_congr {fs gs : Fs} (hd : gs.dinode = fs.dinode) (hb : gs.data = fs.data) :
    gs.tree = fs.tree := by
  cases fs
  cases gs
  cases hd
  cases hb
  rfl

theorem entry_congr {fs gs : Fs} {d : Nat} (ht : (gs.dinode d).type = (fs.dinode d).type)
    (hn : k < gs.nents d ↔ k < fs.nents d)
    (hb : k < fs.nents d → ∀ j, j < DESIZE →
      content gs.data gs.dinode d (DESIZE * k + j) = content fs.data fs.dinode d (DESIZE * k + j)) :
    gs.entry d k = fs.entry d k := by
  unfold Fs.entry
  by_cases hk : k < fs.nents d
  · have hde : gs.dirent d k = fs.dirent d k := by
      unfold Fs.dirent bytes
      congr 1
      exact List.map_congr_left fun j hj => hb hk j (List.mem_range.mp hj)
    rw [ht, hde]
    simp only [hk, hn]
  · rw [if_neg (fun h => hk (hn.mp h.2.1)), if_neg (fun h => hk h.2.1)]

theorem Dirent.ofBytes_bytes (e : Dirent) (h : e.inum < 65536) : Dirent.ofBytes e.bytes = e := by
  cases e with
  | mk inum name =>
    have hlt : inum < 65536 := h
    simp only [Dirent.ofBytes, Dirent.bytes, List.getD_cons_zero, List.getD_cons_succ,
      UInt8.toNat_ofNat', List.drop_succ_cons, List.drop_zero, Dirent.mk.injEq, and_true]
    omega

section Entries
variable {s : Fin NINODE} {fs : Fs} {E : String → Fs → Prop}

theorem WellFormed.size_le (h : WellFormed fs) (ht : (fs.dinode i).type ≠ none) :
    (fs.dinode i).size ≤ MAXFILE * BSIZE := by
  by_contra hlt
  obtain ⟨p, hp, -⟩ := h.full i ht MAXFILE (by omega)
  have hnone : posOf MAXFILE = none := by decide
  rw [hnone] at hp
  cases hp

theorem wp_readDirent (h : WellFormed fs) (hl : fs.live s) (hv : (fs.itable s).valid = true)
    (hk : DESIZE * k ≤ (fs.itable s).d.size) {short : String}
    (hE : ¬ k < fs.nents (fs.itable s).inum → E short fs) {Q : Dirent → Fs → Prop}
    (hQ : k < fs.nents (fs.itable s).inum → Q (fs.dirent (fs.itable s).inum k) fs) :
    wp (readDirent s (DESIZE * k) short) Q E fs := by
  obtain ⟨hd, hty⟩ := h.table.cached s hl hv
  have hcur := h.cur_eq hl hv
  have hcov := h.full (fs.itable s).inum
  have hsize := h.size_le (hd ▸ hty)
  rw [← hd] at hsize
  rw [← hcur, cur_self] at hcov
  simp only [readDirent, wp_bind]
  refine wp_readi (h.work hl hv) (hcov hty) _ _ _ fun r hr => ?_
  have hU : DESIZE * k + DESIZE < U32 := by
    unfold U32 DESIZE MAXFILE BSIZE NDIRECT NINDIRECT at *
    omega
  have hr := hr (fun _ _ => rfl) hk hU
  rw [wp_ite]
  have hnents : fs.nents (fs.itable s).inum = (fs.itable s).d.size / DESIZE := by
    unfold Fs.nents
    rw [← hd]
  refine ⟨fun hfull => ?_, fun hcut => hE fun hk' => hcut ?_⟩
  · have hmin : min DESIZE ((fs.itable s).d.size - DESIZE * k) = DESIZE := by
      rw [hr] at hfull
      exact Int.ofNat.inj hfull
    rw [wp_pure, hr, hmin, hcur]
    refine hQ ?_
    rw [hnents]
    unfold DESIZE at *
    omega
  · rw [hnents] at hk'
    have hmin : min DESIZE ((fs.itable s).d.size - DESIZE * k) = DESIZE := by
      unfold DESIZE at *
      omega
    rw [hr, hmin]

/-- The loops over the entries of a directory from number `lo` on: each stops at the first
entry that its body takes. -/
theorem wp_scan {α : Type} (h : WellFormed fs) (hl : fs.live s)
    (hv : (fs.itable s).valid = true) (lo : Nat) {short : String}
    (hE : ¬ DESIZE ∣ (fs.itable s).d.size → E short fs)
    {c : Nat → Dirent → FsProg (Option α)} (miss : Nat → Prop) {Q : Option α → Fs → Prop}
    (hnone : (∀ k, lo ≤ k → k < fs.nents (fs.itable s).inum → miss k) →
      (lo ≤ fs.nents (fs.itable s).inum →
        (fs.itable s).d.size = DESIZE * fs.nents (fs.itable s).inum) → Q none fs)
    (hbody : ∀ k, lo ≤ k → k < fs.nents (fs.itable s).inum → (∀ j, lo ≤ j → j < k → miss j) →
      wp (c (DESIZE * k) (fs.dirent (fs.itable s).inum k)) (fun r t => match r with
        | some a => Q (some a) t
        | none => t = fs ∧ miss k) E fs) :
    wp (firstSome ((dirOffs (fs.itable s).d.size).drop lo) fun off => do
      let de ← readDirent s off short
      c off de) Q E fs := by
  obtain ⟨hd, -⟩ := h.table.cached s hl hv
  have hnents : fs.nents (fs.itable s).inum = (fs.itable s).d.size / DESIZE := by
    unfold Fs.nents
    rw [← hd]
  obtain ⟨m, hm⟩ : ∃ m, m = ((fs.itable s).d.size + DESIZE - 1) / DESIZE := ⟨_, rfl⟩
  have hlen : (dirOffs (fs.itable s).d.size).length = m := by simp [dirOffs, hm]
  refine wp_firstSome (fun rest t => t = fs ∧ ∃ j, lo ≤ j ∧
    rest = (dirOffs (fs.itable s).d.size).drop j ∧
    ∀ i, lo ≤ i → i < j → i < m → i < fs.nents (fs.itable s).inum ∧ miss i) ?_ ?_ ?_
  · exact ⟨rfl, lo, Nat.le_refl _, rfl, fun i h1 h2 => absurd h2 (by omega)⟩
  · rintro t ⟨rfl, j, hlo, hrest, hmiss⟩
    have hj : m ≤ j := by
      have := List.drop_eq_nil_iff.mp hrest.symm
      omega
    have hceil : t.nents (t.itable s).inum ≤ m ∧ m ≤ t.nents (t.itable s).inum + 1 := by
      rw [hnents, hm]
      unfold DESIZE
      omega
    refine hnone (fun k h1 h2 => (hmiss k h1 (by omega) (by omega)).2) fun hle => ?_
    by_cases hex : m = t.nents (t.itable s).inum
    · rw [hnents] at hex ⊢
      rw [hm] at hex
      unfold DESIZE at *
      omega
    · have := (hmiss (t.nents (t.itable s).inum) hle (by omega) (by omega)).1
      omega
  · rintro off rest t ⟨rfl, j, hlo, hrest, hmiss⟩
    have hj : j < (dirOffs (t.itable s).d.size).length := by
      by_contra hge
      rw [List.drop_eq_nil_iff.mpr (by omega)] at hrest
      cases hrest
    rw [List.drop_eq_getElem_cons hj] at hrest
    obtain ⟨hoff, hrest⟩ := List.cons.inj hrest
    have hoff' : off = DESIZE * j := by
      rw [hoff]
      simp [dirOffs]
    have hle : DESIZE * j ≤ (t.itable s).d.size := by
      rw [hlen, hm] at hj
      unfold DESIZE at *
      omega
    rw [wp_bind, hoff']
    refine wp_readDirent h hl hv hle (fun hcut => hE fun hdvd => hcut ?_) fun hk => ?_
    · rw [hlen, hm] at hj
      rw [hnents]
      unfold DESIZE at *
      omega
    have hprev : ∀ i, lo ≤ i → i < j → miss i := fun i h1 h2 => (hmiss i h1 h2 (by omega)).2
    refine wp_post (hbody j hlo hk hprev) fun r u hr => ?_
    cases r with
    | some a => exact hr
    | none =>
      refine ⟨hr.1, j+1, by omega, hrest, fun i h1 h2 h3 => ?_⟩
      by_cases hij : i = j
      · subst i
        exact ⟨hk, hr.2⟩
      · exact hmiss i h1 (by omega) h3

section Written
variable {gs : Fs} {src : Nat → Option UInt8} {off n tot : Nat}

theorem Written.sameTable (hw : Written s src off n fs tot gs) : SameTable s fs gs :=
  ⟨hw.sb, hw.others, by rw [hw.entry]⟩

section
variable (h : SameTable s fs gs) (t : Fin NINODE)
include h t

theorem SameTable.same :
    gs.itable t = { fs.itable t with d := (gs.itable t).d } := by
  by_cases ht : t = s
  · exact ht ▸ h.entry
  · rw [h.others t ht]

theorem SameTable.live : gs.live t ↔ fs.live t := by
  unfold Fs.live
  rw [h.same t]

theorem SameTable.inum :
    (gs.itable t).inum = (fs.itable t).inum := by
  rw [h.same t]

theorem SameTable.valid :
    (gs.itable t).valid = (fs.itable t).valid := by
  rw [h.same t]

theorem SameTable.ref :
    (gs.itable t).ref = (fs.itable t).ref := by
  rw [h.same t]

end

section
variable (hw : Written s src off n fs tot gs)
include hw

theorem Written.self (h : WellFormed fs) (hg : WellFormed gs) (hl : fs.live s)
    (hv : (fs.itable s).valid = true) :
    gs.dinode (fs.itable s).inum = { fs.dinode (fs.itable s).inum with
      size := max (fs.dinode (fs.itable s).inum).size (off + tot)
      addrs := (gs.itable s).d.addrs } := by
  have hsame := hw.sameTable
  have hgd := (hg.table.cached s ((hsame.live s).mpr hl) (by rw [hsame.valid]; exact hv)).1
  rw [hsame.inum] at hgd
  rw [← hgd, ← (h.table.cached s hl hv).1, hw.entry]

theorem Written.fields (h : WellFormed fs) (hg : WellFormed gs) (hl : fs.live s)
    (hv : (fs.itable s).valid = true) (i : Nat) :
    (gs.dinode i).type = (fs.dinode i).type ∧ (gs.dinode i).nlink = (fs.dinode i).nlink := by
  by_cases hi : i = (fs.itable s).inum
  · subst i
    rw [hw.self h hg hl hv]
    exact ⟨rfl, rfl⟩
  · rw [hw.dinode i hi]
    exact ⟨rfl, rfl⟩

theorem Written.entry_outside (h : WellFormed fs) (hg : WellFormed gs) (hl : fs.live s)
    (hv : (fs.itable s).valid = true) {d : Nat}
    (hn : d = (fs.itable s).inum → (k < gs.nents d ↔ k < fs.nents d) ∧
      (k < fs.nents d → DESIZE * k + DESIZE ≤ off ∨ off + n ≤ DESIZE * k)) :
    gs.entry d k = fs.entry d k := by
  have ht := (hw.fields h hg hl hv d).1
  by_cases hty : (fs.dinode d).type = none
  · unfold Fs.entry
    rw [if_neg (by rw [ht, hty]; simp), if_neg (by rw [hty]; simp)]
  · refine entry_congr ht ?_ ?_
    · by_cases hd : d = (fs.itable s).inum
      · exact (hn hd).1
      · unfold Fs.nents
        rw [hw.dinode d hd]
    · intro hk j hj
      refine hw.old d _ hty ?_ ?_
      · have hmul : DESIZE * (k + 1) ≤ (fs.dinode d).size := by
          have := (Nat.le_div_iff_mul_le (by decide)).mp hk
          rw [Nat.mul_comm]
          exact this
        rw [Nat.mul_succ] at hmul
        omega
      · intro hd
        have := (hn hd).2 hk
        omega

end

theorem Written.entry_inside {de : Dirent}
    (hw : Written s (fun i => de.bytes[i]?) (DESIZE * k) DESIZE fs DESIZE gs)
    (hdir : (gs.dinode (fs.itable s).inum).type = some .dir) (hk : k < gs.nents (fs.itable s).inum)
    (hinum : de.inum < 65536) (hname : de.name.length = DIRSIZ) : gs.entry (fs.itable s).inum k =
      if de.inum = 0 then none else some (de.inum, cname de.name) := by
  have hlen : de.bytes.length = DESIZE := by
    simp [Dirent.bytes, hname, DIRSIZ, DESIZE]
  have hbytes : bytes gs.data gs.dinode (fs.itable s).inum (DESIZE * k) DESIZE = de.bytes := by
    refine List.ext_getElem? fun j => ?_
    by_cases hj : j < DESIZE
    · have hnew := hw.new (DESIZE * k + j) (by omega) (by omega)
      rw [Nat.add_sub_cancel_left] at hnew
      rw [hnew]
      simp [bytes, hj]
    · have hbl : (bytes gs.data gs.dinode (fs.itable s).inum (DESIZE * k) DESIZE).length =
          DESIZE := by simp [bytes]
      rw [List.getElem?_eq_none (by omega), List.getElem?_eq_none (by omega)]
  have hde : gs.dirent (fs.itable s).inum k = de := by
    unfold Fs.dirent
    rw [hbytes, Dirent.ofBytes_bytes de hinum]
  unfold Fs.entry
  rw [hde]
  by_cases h0 : de.inum = 0
  · rw [if_pos h0, if_neg (fun hc => hc.2.2 h0)]
  · rw [if_neg h0, if_pos ⟨hdir, hk, h0⟩]

end Written

theorem wp_writeDirent (h : WellFormed fs) (hl : fs.live s) (hv : (fs.itable s).valid = true)
    (hdir : (fs.itable s).d.type = some .dir) {de : Dirent} (hinum : de.inum < 65536)
    (hname : de.name.length = DIRSIZ)
    (hk : k < fs.nents (fs.itable s).inum ∨ (fs.itable s).d.size = DESIZE * k)
    {Q : Bool → Fs → Prop}
    (hfail : ∀ gs, WellFormed gs → SameTable s fs gs → gs.tree = fs.tree → Q false gs)
    (hQ : ∀ gs, WellFormed gs → SameTable s fs gs → gs.tree = fs.tree.setEnt
      (fs.itable s).inum k (if de.inum = 0 then none else some (de.inum, cname de.name)) →
      Q true gs) :
    wp (writeDirent s (DESIZE * k) de) Q E fs := by
  obtain ⟨hd, hty⟩ := h.table.cached s hl hv
  have hle : DESIZE * k ≤ (fs.itable s).d.size := by
    rcases hk with hk | hk
    · unfold Fs.nents at hk
      rw [← hd] at hk
      have := (Nat.le_div_iff_mul_le (by decide)).mp (Nat.le_of_lt hk)
      rwa [Nat.mul_comm] at this
    · omega
  have hlen : de.bytes.length = DESIZE := by
    simp [Dirent.bytes, hname, DIRSIZ, DESIZE]
  simp only [writeDirent, wp_bind, wp_pure]
  refine wp_writei h hl hv _ _ _ (by decide) ?_ ?_
  · exact hfail fs h ⟨rfl, fun _ _ => rfl, rfl⟩ rfl
  · intro tot gs hg hw
    have hself := hw.self h hg hl hv
    have hfields := hw.fields h hg hl hv
    have hsame := hw.sameTable
    have hkind : gs.tree.kind = fs.tree.kind := by
      funext i
      simp only [Fs.tree, (hfields i).1]
    have hnlink : gs.tree.nlink = fs.tree.nlink := by
      funext i
      simp only [Fs.tree, (hfields i).1, (hfields i).2]
    have hgn : gs.nents (fs.itable s).inum =
        max (fs.itable s).d.size (DESIZE * k + tot) / DESIZE := by
      unfold Fs.nents
      rw [hself, hd]
    have hfn : fs.nents (fs.itable s).inum = (fs.itable s).d.size / DESIZE := by
      unfold Fs.nents
      rw [← hd]
    -- an entry does not cross a block, so it is written as a whole or not at all
    have hfit : DESIZE ≤ BSIZE - DESIZE * k % BSIZE := by
      unfold DESIZE BSIZE
      omega
    rcases hw.whole hfit with rfl | rfl
    · -- nothing was written: the disk is full, and this would have been a new entry
      have hnew : (fs.itable s).d.size < DESIZE * k + DESIZE := by
        by_contra hge
        have := hw.done (fun j hj => by simp [hlen, hj]) (by omega)
        simp [DESIZE] at this
      have hne : ((0 : Nat) : Int) ≠ DESIZE := by decide
      rw [decide_eq_false hne]
      refine hfail gs hg hsame ?_
      refine Tree.ext hkind hnlink ?_
      funext d j
      refine hw.entry_outside h hg hl hv fun hd' => ?_
      subst hd'
      have hsz : gs.nents (fs.itable s).inum = fs.nents (fs.itable s).inum := by
        rw [hgn, hfn, Nat.add_zero, Nat.max_eq_left hle]
      refine ⟨by rw [hsz], fun hj => .inl ?_⟩
      rw [hfn] at hj
      unfold DESIZE at *
      omega
    · rw [decide_eq_true rfl]
      refine hQ gs hg hsame ?_
      refine Tree.ext hkind hnlink ?_
      funext d j
      rw [Tree.setEnt_ent]
      split
      · rename_i hp
        obtain ⟨rfl, rfl⟩ := hp
        refine hw.entry_inside ?_ ?_ hinum hname
        · rw [(hfields _).1, ← hd]
          exact hdir
        · rw [hgn]
          unfold DESIZE
          omega
      · rename_i hp
        refine hw.entry_outside h hg hl hv fun hd' => ?_
        subst hd'
        have hjk : j ≠ k := fun he => hp ⟨rfl, he⟩
        refine ⟨?_, ?_⟩
        · rw [hgn, hfn]
          rcases hk with hk | hk
          · rw [hfn] at hk
            unfold DESIZE at *
            omega
          · unfold DESIZE at *
            omega
        · intro _
          unfold DESIZE
          omega

end Entries

/-! A new image with nothing but the root directory, to which two references are held. -/

def rootInode : Dinode := ⟨some .dir, 0, 0, 1, 32, fun k => if k.val = 0 then 46 else 0⟩

def rootBlock : Block := fun i =>
  ((Dirent.mk ROOTINO (strncpyBytes (ascii ".") DIRSIZ)).bytes ++
    (Dirent.mk ROOTINO (strncpyBytes (ascii "..") DIRSIZ)).bytes).getD i.val 0

def rootFs : Fs where
  sb := ⟨64, 18, 8, 32, 45⟩
  bitmap := fun b => decide (b < 47)
  data := Function.update (fun _ => Block.zero) 46 rootBlock
  dinode := Function.update (fun _ => ⟨none, 0, 0, 0, 0, fun _ => 0⟩) ROOTINO rootInode
  itable := Function.update (fun _ => ⟨0, 0, false, false, ⟨none, 0, 0, 0, 0, fun _ => 0⟩⟩) 0
    ⟨ROOTINO, 2, false, true, rootInode⟩
  logged := []

theorem rootFs_refs (q : Nat × Pos) :
    refs rootFs.data rootFs.dinode q = if q = (ROOTINO, .addr 0) then 46 else 0 := by
  obtain ⟨i, p⟩ := q
  by_cases hi : i = ROOTINO
  · subst i
    cases p with
    | addr k =>
      by_cases hk : k = 0
      · subst k
        rfl
      · simp [refs, rootFs, blockAt, hk, rootInode]
    | entry j => rfl
  · have hnone : (rootFs.dinode i).type = none := by simp [rootFs, hi]
    simp [refs, hnone, hi]

theorem rootFs_live {s : Fin NINODE} (h : rootFs.live s) : s = 0 := by
  by_contra hs
  have hent : rootFs.itable s = ⟨0, 0, false, false, ⟨none, 0, 0, 0, 0, fun _ => 0⟩⟩ :=
    by simp [rootFs, hs]
  unfold Fs.live at h
  rw [hent] at h
  exact absurd h (by simp)

theorem rootFs_wellFormed : WellFormed rootFs where
  sb := ⟨by decide, by decide⟩
  exact := by
    have hnz : ∀ q, refs rootFs.data rootFs.dinode q ≠ 0 → q = (ROOTINO, .addr 0) := by
      intro q hq
      rw [rootFs_refs] at hq
      by_contra hne
      exact hq (if_neg hne)
    have h46 : refs rootFs.data rootFs.dinode (ROOTINO, .addr 0) = 46 := rfl
    refine ⟨?_, ?_, ?_, ?_⟩
    · intro b hb
      have hb' : b < 46 := hb
      have hb47 : b < 47 := by omega
      simpa [rootFs] using hb47
    · intro q hq
      obtain rfl := hnz q hq
      rw [h46]
      decide
    · intro q r hq he
      rw [hnz q hq]
      exact (hnz r (he ▸ hq)).symm
    · intro b hlo _
      have hlo' : 46 ≤ b := hlo
      constructor
      · intro hb
        have hb' : b < 47 := by simpa [rootFs] using hb
        obtain rfl : b = 46 := by omega
        exact ⟨_, h46⟩
      · rintro ⟨q, hq⟩
        rw [rootFs_refs] at hq
        have hb : b < 47 := by
          split at hq <;> omega
        simpa [rootFs] using hb
  full := by
    intro i hty
    have hi : i = ROOTINO := by
      by_contra hne
      exact hty (by simp [rootFs, hne])
    subst i
    intro k hk
    have hk' : k * 1024 < 32 := hk
    obtain rfl : k = 0 := by omega
    exact ⟨.addr 0, rfl, by rw [rootFs_refs, if_pos rfl]; decide⟩
  table := by
    refine ⟨fun s t hs ht _ => (rootFs_live hs).trans (rootFs_live ht).symm, fun s hs _ => ?_⟩
    rw [rootFs_live hs]
    exact ⟨rfl, by simp [rootFs, rootInode]⟩

end Xv6Audit.FileSys
