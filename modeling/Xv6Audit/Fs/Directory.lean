import Xv6Audit.Fs.Nodes

/-! A directory is a finite map from names, as far as `namecmp` tells them apart, to inode
numbers. -/
namespace Xv6Audit.FileSys
open Function

open Prog Disk
open Audit (ascii strncpyBytes)

variable {f : Node} {k : Nat}

variable {x : Nat} {g : Node} {dp : Fin NINODE}

namespace Node

def nents (f : Node) : Nat := f.bytes.length / DESIZE

def dirent (f : Node) (k : Nat) : Dirent :=
  Dirent.ofBytes ((f.bytes.take (DESIZE * k + DESIZE)).drop (DESIZE * k))

def entry (f : Node) (k : Nat) : Option (Nat × Name) :=
  if k < f.nents ∧ (f.dirent k).inum ≠ 0 then
    some ((f.dirent k).inum, cname (f.dirent k).name)
  else none

def lookup (f : Node) (name : Name) : Option (Nat × Nat) :=
  (List.range f.nents).findSome? fun k =>
    match f.entry k with
    | some (x, n) => if n = cname name then some (x, DESIZE * k) else none
    | none => none

def child (f : Node) (name : Name) : Option Nat := (f.lookup name).map Prod.fst

def Uniq (f : Node) : Prop :=
  ∀ j k x y n, f.entry j = some (x, n) → f.entry k = some (y, n) → j = k

theorem entry_lt {e : Nat × Name} (h : f.entry k = some e) : k < f.nents := by
  unfold entry at h
  split at h
  · rename_i hc
    exact hc.1
  · cases h

variable {name : Name}

theorem lookup_eq_some (h : f.entry k = some (x, cname name))
    (hlt : ∀ j, j < k → ∀ z, f.entry j ≠ some (z, cname name)) :
    f.lookup name = some (x, DESIZE * k) := by
  refine findSome_range (entry_lt h) (by simp [h]) fun j hj => ?_
  cases he : f.entry j with
  | none => rfl
  | some e =>
    obtain ⟨z, n⟩ := e
    have hne : n ≠ cname name := by
      rintro rfl
      exact hlt j hj z he
    simp [hne]

theorem lookup_spec {off : Nat} (h : f.lookup name = some (x, off)) :
    ∃ k, off = DESIZE * k ∧ f.entry k = some (x, cname name) ∧
      ∀ j, j < k → ∀ z, f.entry j ≠ some (z, cname name) := by
  obtain ⟨k, hk, hlt⟩ := findSome_range_some h
  cases he : f.entry k with
  | none => simp [he] at hk
  | some e =>
    obtain ⟨z, n⟩ := e
    rw [he] at hk
    simp only [Option.ite_none_right_eq_some, Option.some.injEq, Prod.mk.injEq] at hk
    obtain ⟨rfl, rfl, rfl⟩ := hk
    refine ⟨k, rfl, he, fun j hj z hz => ?_⟩
    have := hlt j hj
    simp [hz] at this

theorem lookup_eq_none :
    f.lookup name = none ↔ ∀ k x, f.entry k ≠ some (x, cname name) := by
  constructor
  · intro h k x hk
    have hnone := List.findSome?_eq_none_iff.mp h k (List.mem_range.mpr (entry_lt hk))
    simp [hk] at hnone
  · intro h
    cases hl : f.lookup name with
    | none => rfl
    | some p =>
      obtain ⟨k, -, hk, -⟩ := lookup_spec hl
      exact absurd hk (h k _)

/-! Storing an entry. -/

def put (f : Node) (k : Nat) (de : Dirent) : Node :=
  { f with bytes := overwrite f.bytes (DESIZE * k) de.bytes }

def shown (de : Dirent) : Option (Nat × Name) :=
  if de.inum = 0 then none else some (de.inum, cname de.name)

theorem overwrite_length (old buf : List UInt8) {off : Nat} (h : off ≤ old.length) :
    (overwrite old off buf).length = max old.length (off + buf.length) := by
  simp only [overwrite, List.length_append, List.length_take, List.length_drop]
  omega

section Put
variable {f : Node} {k : Nat} {de : Dirent}

section
variable (hname : de.name.length = DIRSIZ)
include hname

theorem bytes_length : de.bytes.length = DESIZE := by
  simp [Dirent.bytes, hname, DIRSIZ, DESIZE]

theorem put_length (hk : DESIZE * k ≤ f.bytes.length) :
    (f.put k de).bytes.length = max f.bytes.length (DESIZE * k + DESIZE) := by
  rw [put, overwrite_length _ _ hk, bytes_length hname]

theorem put_nents (hd : DESIZE ∣ f.bytes.length) (hk : k < f.nents ∨ k = f.nents) :
    (f.put k de).nents = max f.nents (k + 1) ∧
      DESIZE ∣ (f.put k de).bytes.length := by
  obtain ⟨m, hm⟩ := hd
  have hn : f.nents = m := by
    rw [nents, hm, Nat.mul_div_cancel_left _ (by decide)]
  have hle : DESIZE * k ≤ f.bytes.length := by
    rw [hm]
    exact Nat.mul_le_mul_left _ (by omega)
  have hlen : (f.put k de).bytes.length = DESIZE * max m (k + 1) := by
    rw [put_length hname hle, hm]
    unfold DESIZE
    omega
  rw [nents, hlen, Nat.mul_div_cancel_left _ (by decide), hn]
  exact ⟨rfl, Dvd.intro _ rfl⟩

theorem put_dirent_self (hinum : de.inum < 65536) (hk : DESIZE * k ≤ f.bytes.length) :
    (f.put k de).dirent k = de := by
  have hbytes : ((f.put k de).bytes.take (DESIZE * k + DESIZE)).drop (DESIZE * k) = de.bytes := by
    refine List.ext_getElem? fun j => ?_
    have hlen := bytes_length hname
    rw [List.getElem?_drop, List.getElem?_take, put, overwrite_getElem? _ _ hk, hlen]
    by_cases hj : j < DESIZE
    · rw [if_pos (by omega), if_pos (by omega), Nat.add_sub_cancel_left]
    · rw [if_neg (by omega), List.getElem?_eq_none (by omega)]
  rw [dirent, hbytes, Dirent.ofBytes_bytes de hinum]

theorem put_dirent_other (hk : DESIZE * k ≤ f.bytes.length) {j : Nat} (hj : j ≠ k) :
    (f.put k de).dirent j = f.dirent j := by
  have hlen := bytes_length hname
  unfold dirent
  congr 1
  refine List.ext_getElem? fun i => ?_
  rw [List.getElem?_drop, List.getElem?_drop, List.getElem?_take, List.getElem?_take, put,
    overwrite_getElem? _ _ hk, hlen]
  split
  · rw [if_neg]
    unfold DESIZE at *
    omega
  · rfl

theorem put_entry (hinum : de.inum < 65536) (hd : DESIZE ∣ f.bytes.length)
    (hk : k < f.nents ∨ k = f.nents) (j : Nat) :
    (f.put k de).entry j = if j = k then shown de else f.entry j := by
  have hle : DESIZE * k ≤ f.bytes.length := by
    obtain ⟨m, hm⟩ := hd
    have hn : f.nents = m := by rw [nents, hm, Nat.mul_div_cancel_left _ (by decide)]
    rw [hm]
    exact Nat.mul_le_mul_left _ (by omega)
  have hn := (put_nents hname hd hk (f := f)).1
  unfold entry
  rw [hn]
  by_cases hj : j = k
  · subst j
    rw [if_pos rfl, put_dirent_self hname hinum hle]
    unfold shown
    by_cases h0 : de.inum = 0
    · rw [if_neg (fun hc => hc.2 h0), if_pos h0]
    · rw [if_pos ⟨by omega, h0⟩, if_neg h0]
  · rw [if_neg hj, put_dirent_other hname hle hj]
    have hiff : j < max f.nents (k + 1) ↔ j < f.nents := by omega
    simp only [hiff]

end

end Put

theorem child_add (hent : ∀ j, g.entry j = if j = k then some (x, cname name) else f.entry j)
    (hfree : f.entry k = none) (hnew : f.lookup name = none) (b : Name) :
    g.child b = if cname b = cname name then some x else f.child b := by
  rw [lookup_eq_none] at hnew
  by_cases hb : cname b = cname name
  · rw [if_pos hb]
    refine congrArg (Option.map Prod.fst) (lookup_eq_some (k := k) ?_ fun j hj z hz => ?_)
    · rw [hent, if_pos rfl, hb]
    · rw [hent, if_neg (by omega), hb] at hz
      exact hnew j z hz
  · rw [if_neg hb]
    unfold child
    cases hf : f.lookup b with
    | some p =>
      obtain ⟨j, hoff, hj, hfirst⟩ := lookup_spec hf
      have hjk : j ≠ k := by
        rintro rfl
        rw [hfree] at hj
        cases hj
      rw [lookup_eq_some (k := j) (x := p.1) (by rw [hent, if_neg hjk]; exact hj) fun i hi z hz => ?_]
      · rfl
      · rw [hent] at hz
        split at hz
        · simp only [Option.some.injEq, Prod.mk.injEq] at hz
          exact hb hz.2.symm
        · exact hfirst i hi z hz
    | none =>
      rw [lookup_eq_none] at hf
      rw [lookup_eq_none.mpr]
      intro j z hz
      rw [hent] at hz
      split at hz
      · simp only [Option.some.injEq, Prod.mk.injEq] at hz
        exact hb hz.2.symm
      · exact hf j z hz

theorem Uniq.add (hu : f.Uniq)
    (hent : ∀ j, g.entry j = if j = k then some (x, cname name) else f.entry j)
    (hnew : f.lookup name = none) : g.Uniq := by
  rw [lookup_eq_none] at hnew
  intro i j y z n hi hj
  rw [hent] at hi hj
  split at hi <;> split at hj
  · omega
  · simp only [Option.some.injEq, Prod.mk.injEq] at hi
    exact absurd (hi.2 ▸ hj) (hnew j z)
  · simp only [Option.some.injEq, Prod.mk.injEq] at hj
    exact absurd (hj.2 ▸ hi) (hnew i y)
  · exact hu i j y z n hi hj

theorem child_clear (hu : f.Uniq) (hent : ∀ j, g.entry j = if j = k then none else f.entry j)
    (hk : f.entry k = some (x, cname name)) (b : Name) :
    g.child b = if cname b = cname name then none else f.child b := by
  have hg : ∀ {j e}, g.entry j = some e → j ≠ k ∧ f.entry j = some e := by
    intro j e hj
    rw [hent] at hj
    split at hj
    · cases hj
    · rename_i hne
      exact ⟨hne, hj⟩
  by_cases hb : cname b = cname name
  · rw [if_pos hb, child, lookup_eq_none.mpr fun j z hz => ?_]
    · rfl
    · obtain ⟨hne, hz⟩ := hg hz
      rw [hb] at hz
      exact hne (hu j k z x _ hz hk)
  · rw [if_neg hb]
    unfold child
    cases hf : f.lookup b with
    | some p =>
      obtain ⟨j, hoff, hj, hfirst⟩ := lookup_spec hf
      have hjk : j ≠ k := by
        rintro rfl
        rw [hk] at hj
        simp only [Option.some.injEq, Prod.mk.injEq] at hj
        exact hb hj.2.symm
      rw [lookup_eq_some (k := j) (x := p.1) (by rw [hent, if_neg hjk]; exact hj) fun i hi z hz =>
        hfirst i hi z (hg hz).2]
      rfl
    | none =>
      rw [lookup_eq_none] at hf
      rw [lookup_eq_none.mpr fun j z hz => hf j z (hg hz).2]

theorem Uniq.clear (hu : f.Uniq) (hent : ∀ j, g.entry j = if j = k then none else f.entry j) :
    g.Uniq := by
  intro i j y z n hi hj
  rw [hent] at hi hj
  split at hi
  · cases hi
  · split at hj
    · cases hj
    · exact hu i j y z n hi hj

theorem uniq_iff (f : Node) : f.Uniq ↔ ∀ j, j < f.nents → ∀ k, k < f.nents →
    (f.entry j).isSome → (f.entry j).map Prod.snd = (f.entry k).map Prod.snd → j = k := by
  constructor
  · intro hu j _ k _ hsome hsame
    obtain ⟨⟨x, n⟩, hj⟩ := Option.isSome_iff_exists.mp hsome
    rw [hj] at hsame
    obtain ⟨⟨y, m⟩, hk, hm⟩ := Option.map_eq_some_iff.mp hsame.symm
    obtain rfl : m = n := hm
    exact hu j k x y m hj hk
  · intro h j k x y n hj hk
    exact h j (entry_lt hj) k (entry_lt hk) (by simp [hj]) (by simp [hj, hk])

instance (f : Node) : Decidable f.Uniq := decidable_of_iff _ f.uniq_iff.symm

end Node

/-! The routines. -/

def Fs.Space (fs : Fs) (s : Fin NINODE) : Prop :=
  (fs.itable s).d.size + DESIZE ≤ MAXFILE * BSIZE ∧
    fs.needs s (touched (fs.itable s).d.size DESIZE) ≤ fs.freeCount

def Fs.SpaceAt (fs : Fs) (e : Nat) : Prop :=
  (fs.setInode 0 { fs.itable 0 with d := fs.dinode e }).Space 0

theorem Shows.space {fs gs : Fs} {sb : Super} {I : Nat → Option Node} {S : Fin NINODE → Slot}
    {s : Fin NINODE} {e : Nat} (h : Shows gs sb I S) (hl : 0 < (S s).ref) (hv : (S s).valid = true)
    (he : (S s).inum = e) (hst : Still e fs gs) (hsb : fs.sb = sb) :
    gs.Space s ↔ fs.SpaceAt e := by
  have hd := (h.wf.table.cached s (h.live.mpr hl) (h.valid.trans hv)).1
  rw [h.inum, he, hst.dinode] at hd
  simp only [Fs.SpaceAt, Fs.Space, Fs.needs, Fs.fileBlock, Fs.freeCount, Fs.setInode,
    update_self, hd, hst.bitmap, hst.data, h.sb, hsb]

theorem touched_dirent (k : Nat) : touched (DESIZE * k) DESIZE = [DESIZE * k / BSIZE] := by
  have hone : (DESIZE * k + DESIZE - 1) / BSIZE = DESIZE * k / BSIZE := by
    unfold DESIZE BSIZE
    omega
  unfold touched
  rw [if_neg (by decide), hone, Nat.add_sub_cancel_left]
  rfl

theorem needs_present {fs : Fs} {s : Fin NINODE} (h : WellFormed fs) (hl : fs.live s)
    (hv : (fs.itable s).valid = true) (hk : k < (fs.itable s).d.size) :
    fs.needs s [k / BSIZE] = 0 := by
  have hw := h.work hl hv
  have hcov := h.full (fs.itable s).inum
  rw [← h.cur_eq hl hv, cur_self] at hcov
  obtain ⟨p, hp, hne⟩ := (hcov hw.typed).present hk
  rw [refs_self hw.typed] at hne
  have hat : fs.fileBlock s (k / BSIZE) = blockAt fs.data (fs.itable s).d p := by
    simp [Fs.fileBlock, hp]
  rw [needs_singleton, hat, if_neg hne, if_neg]
  exact fun hc => indirect_of_present hp hc.2 hne hc.1

section Routines
variable {fs gs : Fs} {sb : Super} {I : Nat → Option Node} {S : Fin NINODE → Slot}
  {s : Fin NINODE} {f : Node} {E : String → Fs → Prop}

theorem dirent_of_node {d k : Nat} (hf : fs.node d = some f) (hk : k < f.nents) :
    fs.dirent d k = f.dirent k := by
  obtain ⟨-, -, -, -, hb⟩ := node_eq_some hf
  have hlen : (fs.dinode d).size = f.bytes.length := by rw [← hb, file_length]
  have hend : DESIZE * k + DESIZE ≤ f.bytes.length := by
    have := (Nat.le_div_iff_mul_le (by decide)).mp (Nat.succ_le_of_lt hk)
    unfold DESIZE at *
    omega
  have hslice := bytes_eq_file fs d (DESIZE * k) (DESIZE * k + DESIZE)
  rw [hlen, Nat.min_eq_left hend, Nat.add_sub_cancel_left, hb] at hslice
  unfold Fs.dirent Node.dirent
  rw [hslice]

theorem nents_of_node {d : Nat} (hf : fs.node d = some f) : fs.nents d = f.nents := by
  obtain ⟨-, -, -, -, hb⟩ := node_eq_some hf
  rw [Fs.nents, Node.nents, ← hb, file_length]

namespace Shows

section
variable (h : Shows fs sb I S) (hl : 0 < (S s).ref) (hv : (S s).valid = true)
  (hf : I (S s).inum = some f)
include h hl hv hf

theorem wp_dirlookup (hdir : f.type = .dir) (hsize : DESIZE ∣ f.bytes.length) (name : Name)
    (hfull : (∀ t, (S t).ref ≠ 0) → E "iget: no inodes" fs)
    {Q : Option (Fin NINODE × Nat) → Fs → Prop} (hnone : f.lookup name = none → Q none fs)
    (hsome : ∀ x off t v gs, f.lookup name = some (x, off) → Got S x t v →
      Shows gs sb I (update S t v) → (∀ d, Still d fs gs) → Q (some (t, off)) gs) :
    wp (dirlookup s name) Q E fs := by
  obtain ⟨hty, -, -, hsz⟩ := h.copy hl hv hf
  have hl' := h.live.mpr hl
  have hv' := h.valid.trans hv
  have hf' : fs.node (fs.itable s).inum = some f := by rw [h.node, h.inum, hf]
  simp only [dirlookup, wp_bind, wp_get, wp_ite, wp_throw]
  refine ⟨fun _ => ?_, fun hno => absurd (hty.trans (congrArg some hdir)) hno⟩
  have hscan := wp_scan (Q := Q) (E := E) h.wf hl' hv' 0
    (fun hno => absurd (hsz ▸ hsize) hno : ¬ DESIZE ∣ _ → E "dirlookup read" fs)
    (c := fun off de => do
      if de.inum ≠ 0 ∧ namecmp name de.name = 0 then do
        let ip ← iget de.inum
        pure (some (ip, off))
      else pure none)
    (fun k => ∀ z, f.entry k ≠ some (z, cname name)) ?_ ?_
  · exact hscan
  · intro hmiss _
    refine hnone (Node.lookup_eq_none.mpr fun k x hk => ?_)
    exact hmiss k (Nat.zero_le k) (by rw [nents_of_node hf']; exact Node.entry_lt hk) x hk
  · intro k _ hk hprev
    rw [nents_of_node hf'] at hk
    rw [dirent_of_node hf' hk, wp_ite]
    refine ⟨fun hc => ?_, fun hc => ⟨rfl, fun z hz => hc ?_⟩⟩
    · have hent : f.entry k = some ((f.dirent k).inum, cname name) := by
        unfold Node.entry
        rw [if_pos ⟨hk, hc.1⟩, (namecmp_eq_zero _ _).mp hc.2]
      rw [wp_bind]
      refine wp_frame (still_iget _) (h.wp_iget _ hfull fun t v gs hg hgot => ?_)
      exact hsome _ _ t v gs (Node.lookup_eq_some hent fun j hj => hprev j (Nat.zero_le j) hj) hgot hg
    · unfold Node.entry at hz
      split at hz
      · rename_i hin
        simp only [Option.some.injEq, Prod.mk.injEq] at hz
        exact ⟨hin.2, (namecmp_eq_zero _ _).mpr hz.2.symm⟩
      · cases hz

theorem wp_emptyDirent (hsize : DESIZE ∣ f.bytes.length) {Q : Nat → Fs → Prop}
    (hQ : ∀ k, (∀ j, j < k → f.entry j ≠ none) → f.entry k = none →
      (k < f.nents ∨ k = f.nents) → Q (DESIZE * k) fs) : wp (emptyDirent s) Q E fs := by
  obtain ⟨-, -, -, hsz⟩ := h.copy hl hv hf
  have hf' : fs.node (fs.itable s).inum = some f := by rw [h.node, h.inum, hf]
  simp only [emptyDirent, wp_bind, wp_get]
  have hscan := wp_scan (E := E) (Q := fun found t =>
      Q (found.getD (DESIZE * (((fs.itable s).d.size + DESIZE - 1) / DESIZE))) t) h.wf
    (h.live.mpr hl) (h.valid.trans hv) 0
    (fun hno => absurd (hsz ▸ hsize) hno : ¬ DESIZE ∣ _ → E "dirlink read" fs)
    (c := fun off de => pure (if de.inum = 0 then some off else none))
    (fun k => f.entry k ≠ none) ?_ ?_
  · exact hscan
  · intro hmiss _
    rw [nents_of_node hf'] at hmiss
    have hceil : ((fs.itable s).d.size + DESIZE - 1) / DESIZE = f.nents := by
      obtain ⟨m, hm⟩ := hsize
      unfold Node.nents
      rw [hsz, hm]
      unfold DESIZE
      omega
    rw [Option.getD_none, hceil]
    refine hQ _ (fun j hj => hmiss j (Nat.zero_le j) hj) (if_neg fun hc => ?_) (.inr rfl)
    exact absurd hc.1 (Nat.lt_irrefl _)
  · intro k _ hk hprev
    rw [nents_of_node hf'] at hk
    rw [dirent_of_node hf' hk, wp_pure]
    by_cases h0 : (f.dirent k).inum = 0
    · rw [if_pos h0]
      exact hQ k (fun j hj => hprev j (Nat.zero_le j) hj) (if_neg fun hc => hc.2 h0) (.inl hk)
    · rw [if_neg h0]
      refine ⟨rfl, ?_⟩
      unfold Node.entry
      rw [if_pos ⟨hk, h0⟩]
      exact Option.some_ne_none _

theorem wp_writei_dirent {de : Dirent} (hname : de.name.length = DIRSIZ)
    (hle : DESIZE * k ≤ (fs.itable s).d.size) :
    wp (writei s (fun i => de.bytes[i]?) (DESIZE * k) DESIZE) (fun r gs =>
      r ≤ 0 ∧ ((fs.itable s).d.size = DESIZE * k → Shows gs sb I S) ∨ r = DESIZE ∧
        Shows gs sb (update I (S s).inum (some (f.put k de))) S) E fs := by
  have hl' := h.live.mpr hl
  have hv' := h.valid.trans hv
  have hd := (h.wf.table.cached s hl' hv').1
  have hty := (h.wf.table.cached s hl' hv').2
  have hf' : fs.node (fs.itable s).inum = some f := by rw [h.node, h.inum, hf]
  have hlen := Node.bytes_length hname
  have hfit : DESIZE ≤ BSIZE - DESIZE * k % BSIZE := by
    unfold DESIZE BSIZE
    omega
  refine FileSys.wp_writei h.wf hl' hv' _ _ _ (by decide) (.inl ⟨by decide, fun _ => h⟩) ?_
  intro tot gs hg hw
  have hslot := hw.sameTable.slot.trans h.slot
  rcases hw.whole hfit with rfl | rfl
  · refine .inl ⟨Int.le_refl 0, fun hend => ⟨hg, hw.sb.trans h.sb, ?_, hslot⟩⟩
    have hnone : ∀ j, j < ([] : List UInt8).length → de.bytes[j]? = ([] : List UInt8)[j]? :=
      fun j hj => absurd hj (Nat.not_lt_zero j)
    have hnode := hw.node h.wf hg hl' hv' hnone hle (fun j h1 h2 => by omega) hf'
    rw [hnode, overwrite_nil, ← h.node]
    exact update_eq_self_iff.mpr hf'.symm
  · refine .inr ⟨rfl, hg, hw.sb.trans h.sb, ?_, hslot⟩
    have hw' : Written s (fun i => de.bytes[i]?) (DESIZE * k) DESIZE fs de.bytes.length gs := by
      rw [hlen]
      exact hw
    have hnode := hw'.node h.wf hg hl' hv' (fun _ _ => rfl) hle
      (fun j h1 h2 => hw.old _ j (hd ▸ hty) (hd ▸ h2) fun _ => .inr (by omega)) hf'
    rw [hnode, ← h.node, ← h.inum]
    rfl

theorem wp_writeDirent (hsize : DESIZE ∣ f.bytes.length) {de : Dirent}
    (hname : de.name.length = DIRSIZ) (hk : k < f.nents ∨ k = f.nents) {Q : Bool → Fs → Prop}
    (hfail : k = f.nents → ¬ fs.Space s → ∀ gs, Shows gs sb I S → Q false gs)
    (hQ : k < f.nents ∨ fs.Space s → ∀ gs,
      Shows gs sb (update I (S s).inum (some (f.put k de))) S → Q true gs) :
    wp (writeDirent s (DESIZE * k) de) Q E fs := by
  obtain ⟨m, hm⟩ := hsize
  have hn : f.nents = m := by rw [Node.nents, hm, Nat.mul_div_cancel_left _ (by decide)]
  have hl' := h.live.mpr hl
  have hv' := h.valid.trans hv
  have hf' : fs.node (fs.itable s).inum = some f := by rw [h.node, h.inum, hf]
  obtain ⟨hty, -, -, hsz⟩ := h.copy hl hv hf
  have hle : DESIZE * k ≤ (fs.itable s).d.size := by
    rw [hsz, hm]
    exact Nat.mul_le_mul_left _ (by omega)
  have hlen := Node.bytes_length hname
  have hgood : ∀ j, j < DESIZE → de.bytes[j]? ≠ none := by
    intro j hj
    simp [hlen, hj]
  simp only [writeDirent, wp_bind, wp_pure]
  have hleft := h.wp_writei_dirent (E := E) hl hv hf hname hle (k := k)
  by_cases hcan : k < f.nents ∨ fs.Space s
  · have hdone : wp (writei s (fun i => de.bytes[i]?) (DESIZE * k) DESIZE)
        (fun r _ => r = (DESIZE : Nat)) E fs := by
      have hroom : DESIZE * k + DESIZE ≤ MAXFILE * BSIZE ∧
          fs.needs s (touched (DESIZE * k) DESIZE) ≤ fs.freeCount := by
        rcases hk with hk | hk
        · have hin : DESIZE * k + DESIZE ≤ (fs.itable s).d.size := by
            rw [hsz, hm]
            unfold DESIZE
            omega
          have hd := (h.wf.table.cached s hl' hv').1
          have hmax := h.wf.size_le (i := (fs.itable s).inum) (by rw [← hd, hty]; simp)
          rw [← hd] at hmax
          refine ⟨hin.trans hmax, ?_⟩
          rw [touched_dirent, needs_present h.wf hl' hv' (by unfold DESIZE at *; omega)]
          exact Nat.zero_le _
        · have hend : (fs.itable s).d.size = DESIZE * k := by rw [hsz, hm, hk, hn]
          have hsp := hcan.resolve_left (by omega)
          unfold Fs.Space at hsp
          rwa [hend] at hsp
      exact wp_writei_room h.wf hl' hv' _ hgood hle hroom.1 hroom.2
    refine wp_mono (wp_and hleft hdone) ?_ fun _ _ he => he.1
    rintro r gs ⟨hres, rfl⟩
    rw [decide_eq_true rfl]
    obtain ⟨hneg, -⟩ | ⟨-, hs⟩ := hres
    · exact absurd hneg (by decide)
    · exact hQ hcan gs hs
  · have hnot : wp (writei s (fun i => de.bytes[i]?) (DESIZE * k) DESIZE) (fun r _ => r ≤ 0) E fs := by
      have hend : (fs.itable s).d.size = DESIZE * k := by
        rw [hsz, hm, ← hn]
        congr 1
        omega
      by_cases hmax : DESIZE * k + DESIZE ≤ MAXFILE * BSIZE
      · refine wp_writei_full h.wf hl' hv' _ (by decide) (by decide) ?_
        rw [← touched_dirent, ← hend]
        by_contra hge
        exact hcan (.inr ⟨hend ▸ hmax, by omega⟩)
      · have hd := (h.wf.table.cached s hl' hv').1
        have hbound := h.wf.size_le (i := (fs.itable s).inum) (by rw [← hd, hty]; simp)
        rw [← hd, hend] at hbound
        refine wp_writei_over (by omega) _ ?_ (by decide)
        unfold U32 DESIZE at *
        simp only [MAXFILE, NDIRECT, NINDIRECT, BSIZE] at hbound
        omega
    have hend : k = f.nents := by omega
    refine wp_mono (wp_and hleft hnot) ?_ fun _ _ he => he.1
    rintro r gs ⟨hres, hneg⟩
    have hne : r ≠ DESIZE := by
      unfold DESIZE
      omega
    rw [decide_eq_false hne]
    obtain ⟨-, hs⟩ | ⟨he, -⟩ := hres
    · exact hfail hend (fun hsp => hcan (.inr hsp)) gs (hs (by rw [hsz, hm, ← hn, hend]))
    · exact absurd he hne

/-- `dirlink` makes the entry in the first free place. It fails if the name is there, or if
there is no free place and no space for another; then nothing has changed. -/
theorem wp_dirlink (hdir : f.type = .dir) (hsize : DESIZE ∣ f.bytes.length) (name : Name) (x : Nat)
    (hfull : (∀ t, (S t).ref ≠ 0) → E "iget: no inodes" fs) {Q : Bool → Fs → Prop}
    (hfail : ∀ gs S', Shows gs sb I S' → Held S 0 S' → (∀ t, (S' t).locked = (S t).locked) →
      (f.lookup name ≠ none ∨ (∀ j, j < f.nents → f.entry j ≠ none) ∧ ¬ fs.Space s) → Q false gs)
    (hQ : ∀ k gs, f.lookup name = none → (∀ j, j < k → f.entry j ≠ none) → f.entry k = none →
      (k < f.nents ∨ k = f.nents ∧ fs.Space s) →
      Shows gs sb (update I (S s).inum
        (some (f.put k ⟨x, strncpyBytes name DIRSIZ⟩))) S → Q true gs) :
    wp (dirlink s name x) Q E fs := by
  simp only [dirlink, wp_bind]
  refine h.wp_dirlookup hl hv hf hdir hsize name hfull ?_ ?_
  · intro hnew
    rw [wp_bind]
    refine h.wp_emptyDirent hl hv hf hsize fun k hbefore hfree hk => ?_
    refine h.wp_writeDirent hl hv hf hsize (strncpyBytes_length _ _) hk ?_ ?_
    · intro hend hno gs hs
      exact hfail gs S hs (Held.refl S) (fun _ => rfl) (.inr ⟨fun j hj => hbefore j (hend ▸ hj), hno⟩)
    · intro hcan gs hs
      refine hQ k gs hnew hbefore hfree ?_ hs
      by_cases hlt : k < f.nents
      · exact .inl hlt
      · exact .inr ⟨by omega, hcan.resolve_left hlt⟩
  · intro y off t v gs hfound hgot hs _
    rw [wp_bind]
    -- the reference taken by the lookup is not the last one to an inode that was read in
    have hself : update S t v t = v := update_self ..
    have hkept : v.ref = 1 → v.valid = true → False := by
      intro href hval
      have h0 : (S t).ref = 0 := by
        have := hgot.ref
        omega
      rw [(hgot.idle h0).1] at hval
      cases hval
    refine hs.wp_iput (s := t) ?_ ?_ ?_ ?_
    · rw [hself, hgot.ref]
      have := hgot.nonneg
      omega
    · rw [hself]
      exact fun href hval => (hkept href hval).elim
    · rw [hself]
      intro _ ks hks
      rw [wp_pure]
      refine hfail ks _ hks ?_ ?_ (.inl (by rw [hfound]; exact Option.some_ne_none _))
      · have hback := hgot.held.trans (Held.drop (v := { v with ref := v.ref - 1 }) (s := t)
          (by rw [hself]) (by rw [hself]) (by rw [hself]; exact fun hval => hval)) (one_nonneg t)
        exact hback.congr fun u => add_neg_cancel _
      · intro u
        by_cases hu : u = t
        · subst u
          rw [update_self]
          exact hgot.locked
        · rw [update_of_ne hu, update_of_ne hu]
    · rw [hself]
      intro hdead
      exact (hkept hdead.1 hdead.2.1).elim

end

end Shows

end Routines

/-! The map. -/

structure IsDir (fs : Fs) (dp : Fin NINODE) (f : Node) : Prop where
  wf : WellFormed fs
  live : fs.live dp
  valid : (fs.itable dp).valid = true
  node : fs.node (fs.itable dp).inum = some f
  dir : f.type = .dir
  whole : DESIZE ∣ f.bytes.length
  uniq : f.Uniq

def tableFull (fs : Fs) : String → Fs → Prop :=
  fun e _ => e = "iget: no inodes" ∧ ∀ t, (fs.itable t).ref ≠ 0

theorem IsDir.next {fs gs : Fs} {S' : Fin NINODE → Slot} {I : Nat → Option Node} (h : IsDir fs dp f)
    (hs : Shows gs fs.sb I S') (hheld : Held fs.slot 0 S') (hg : I (fs.itable dp).inum = some g)
    (hdir : g.type = .dir) (hw : DESIZE ∣ g.bytes.length) (hu : g.Uniq) :
    (gs.itable dp).inum = (fs.itable dp).inum ∧ IsDir gs dp g := by
  obtain ⟨hinum, hvalid⟩ := hheld.keep dp h.live
  have hi : (gs.itable dp).inum = (fs.itable dp).inum := hs.inum.trans hinum
  refine ⟨hi, hs.wf, hs.live.mpr ?_, hs.valid.trans (hvalid h.valid), ?_, hdir, hw, hu⟩
  · have hl : 0 < (fs.slot dp).ref := h.live
    rw [hheld.ref dp]
    exact (Int.add_zero _).symm ▸ hl
  · rw [hs.node, hi]
    exact hg

theorem IsDir.wp_dirlookup {fs : Fs} (h : IsDir fs dp f) (a : Name) :
    wp (dirlookup dp a) (fun r gs => gs.node = fs.node ∧
      r.map (fun p => ((gs.itable p.1).inum, p.2)) = f.lookup a) (tableFull fs) fs := by
  refine h.wf.shows.wp_dirlookup h.live h.valid h.node h.dir h.whole a (fun hall => ⟨rfl, hall⟩) ?_ ?_
  · intro hnone
    exact ⟨rfl, hnone.symm⟩
  · intro x off t v gs hfound hgot hs _
    refine ⟨hs.node, ?_⟩
    rw [hfound, Option.map_some, hs.inum, update_self, hgot.inum]

theorem IsDir.wp_dirlink {fs : Fs} (h : IsDir fs dp f) (a : Name) {i : Nat} (h0 : 0 < i)
    (hi : i < 65536) : wp (dirlink dp a i) (fun r gs =>
      (gs.itable dp).inum = (fs.itable dp).inum ∧ ∃ g, IsDir gs dp g ∧
      (r = true → ∀ b, g.child b = if cname b = cname a then some i else f.child b) ∧
      (r = false → ∀ b, g.lookup b = f.lookup b) ∧
      (r = true ↔ f.child a = none ∧ ((∃ k, k < f.nents ∧ f.entry k = none) ∨ fs.Space dp)))
      (tableFull fs) fs := by
  have hchild : f.child a = none ↔ f.lookup a = none := Option.map_eq_none_iff
  refine h.wf.shows.wp_dirlink h.live h.valid h.node h.dir h.whole a i (fun hall => ⟨rfl, hall⟩) ?_ ?_
  · intro gs S' hs hheld _ hwhy
    obtain ⟨hinum, hnext⟩ := h.next hs hheld h.node h.dir h.whole h.uniq
    refine ⟨hinum, f, hnext, fun hr => absurd hr (by decide), fun _ _ => rfl,
      fun hr => absurd hr (by decide), ?_⟩
    rintro ⟨hnew, hroom⟩
    rw [hchild] at hnew
    obtain hthere | ⟨hall, hno⟩ := hwhy
    · exact absurd hnew hthere
    · obtain ⟨k, hk, hfree⟩ | hsp := hroom
      · exact absurd hfree (hall k hk)
      · exact absurd hsp hno
  · intro k gs hnew _ hfree hk hs
    have hlen := strncpyBytes_length a DIRSIZ
    have hplace : k < f.nents ∨ k = f.nents := hk.imp_right fun hend => hend.1
    have hent : ∀ j, (f.put k ⟨i, strncpyBytes a DIRSIZ⟩).entry j =
        if j = k then some (i, cname a) else f.entry j := by
      intro j
      rw [Node.put_entry hlen hi h.whole hplace]
      simp only [Node.shown, Nat.ne_of_gt h0, if_false, cname_strncpy]
    obtain ⟨hinum, hnext⟩ := h.next hs (Held.refl _) (update_self ..) h.dir
      (Node.put_nents hlen h.whole hplace).2 (h.uniq.add hent hnew)
    refine ⟨hinum, _, hnext, fun _ => Node.child_add hent hfree hnew, fun hr => absurd hr (by decide),
      fun _ => ⟨hchild.mpr hnew, ?_⟩, fun _ => rfl⟩
    obtain hlt | ⟨-, hsp⟩ := hk
    · exact .inl ⟨k, hlt, hfree⟩
    · exact .inr hsp

theorem IsDir.wp_clear {fs : Fs} (h : IsDir fs dp f) {a : Name} {off : Nat}
    (hfound : f.lookup a = some (x, off)) {E : String → Fs → Prop} :
    wp (writeDirent dp off ⟨0, List.replicate DIRSIZ 0⟩) (fun r gs => r = true ∧
      (gs.itable dp).inum = (fs.itable dp).inum ∧ ∃ g, IsDir gs dp g ∧
      ∀ b, g.child b = if cname b = cname a then none else f.child b) E fs := by
  obtain ⟨k, rfl, hk, -⟩ := Node.lookup_spec hfound
  have hlt := Node.entry_lt hk
  have hlen : (List.replicate DIRSIZ (0 : UInt8)).length = DIRSIZ := List.length_replicate ..
  have hent : ∀ j, (f.put k ⟨0, List.replicate DIRSIZ 0⟩).entry j =
      if j = k then none else f.entry j := by
    intro j
    rw [Node.put_entry hlen (by decide) h.whole (.inl hlt)]
    rfl
  refine h.wf.shows.wp_writeDirent h.live h.valid h.node h.whole hlen (.inl hlt) ?_ ?_
  · intro hend
    omega
  · intro _ gs hs
    obtain ⟨hinum, hnext⟩ := h.next hs (Held.refl _) (update_self ..) h.dir
      (Node.put_nents hlen h.whole (.inl hlt)).2 (h.uniq.clear hent)
    exact ⟨rfl, hinum, _, hnext, Node.child_clear h.uniq hent hk⟩

/-- A directory is a finite map on names cut to `DIRSIZ` bytes. `dirlookup` reads it, `dirlink`
adds to it, and clearing the entry at the offset that `dirlookup` reports takes a name out. -/
theorem directory_is_map (fs : Fs) (dp : Fin NINODE) (f : Node) (h : IsDir fs dp f) :
    (∀ a b : Name, namecmp a b = 0 ↔ (a.take DIRSIZ).takeWhile (· != 0) =
      (b.take DIRSIZ).takeWhile (· != 0)) ∧
    (∀ a : Name, wp (dirlookup dp a) (fun r gs => gs.node = fs.node ∧
      r.map (fun p => ((gs.itable p.1).inum, p.2)) = f.lookup a) (tableFull fs) fs) ∧
    (∀ (a : Name) (i : Nat), 0 < i → i < 65536 → wp (dirlink dp a i) (fun r gs =>
      (gs.itable dp).inum = (fs.itable dp).inum ∧ ∃ g, IsDir gs dp g ∧
      (r = true → ∀ b, g.child b = if cname b = cname a then some i else f.child b) ∧
      (r = false → ∀ b, g.lookup b = f.lookup b) ∧
      (r = true ↔ f.child a = none ∧ ((∃ k, k < f.nents ∧ f.entry k = none) ∨ fs.Space dp)))
      (tableFull fs) fs) ∧
    ∀ (a : Name) (x off : Nat), f.lookup a = some (x, off) →
      wp (writeDirent dp off ⟨0, List.replicate DIRSIZ 0⟩) (fun r gs => r = true ∧
        (gs.itable dp).inum = (fs.itable dp).inum ∧ ∃ g, IsDir gs dp g ∧
        ∀ b, g.child b = if cname b = cname a then none else f.child b) (fun _ _ => False) fs :=
  ⟨namecmp_eq_zero, h.wp_dirlookup, fun a _ h0 hi => h.wp_dirlink a h0 hi,
    fun _ _ _ hfound => h.wp_clear hfound⟩

/-- The root directory of a new image. -/
theorem directory_is_map_root : ∃ f, IsDir rootFs 0 f ∧ f.lookup (ascii ".") = some (1, 0) ∧
    wp (dirlink 0 (ascii "a") 2) (fun r gs => ∃ g, IsDir gs 0 g ∧
      (r = true → g.child (ascii "a") = some 2 ∧ g.child (ascii ".") = some 1)) (tableFull rootFs)
      rootFs := by
  have hnode : (rootFs.node ROOTINO).map (fun f => decide (f.type = .dir ∧
      DESIZE ∣ f.bytes.length ∧ f.Uniq ∧ f.lookup (ascii ".") = some (1, 0))) = some true := by
    decide +kernel
  obtain ⟨f, hf, hd⟩ := Option.map_eq_some_iff.mp hnode
  obtain ⟨hdir, hwhole, huniq, hdot⟩ := of_decide_eq_true hd
  have h : IsDir rootFs 0 f := ⟨rootFs_wellFormed, by decide, by decide, hf, hdir, hwhole, huniq⟩
  refine ⟨f, h, hdot, wp_post ((directory_is_map rootFs 0 f h).2.2.1 (ascii "a") 2 (by decide)
    (by decide)) ?_⟩
  rintro r gs ⟨-, g, hg, hadd, -⟩
  refine ⟨g, hg, fun hr => ⟨?_, ?_⟩⟩
  · rw [hadd hr, if_pos rfl]
  · rw [hadd hr, if_neg (by decide), Node.child, hdot]
    rfl

end Xv6Audit.FileSys
