import Xv6Audit.Fs.View

/-! Looking up names. A call takes references to inodes and gives them back; as long as it
does no more than that, the tree is as before and nothing is freed. -/
namespace Xv6Audit.FileSys

open Prog Disk LinkTree

/-- Between calls: entries in use have been read in, and an inode without links is still
allocated only because something refers to it. -/
structure Ready (fs : Fs) : Prop where
  wf : WellFormed fs
  valid : ∀ t, fs.live t → (fs.itable t).valid = true
  nonneg : ∀ t, 0 ≤ (fs.itable t).ref
  orphan : ∀ i, fs.tree.kind i ≠ none → fs.tree.nlink i = 0 →
    ∃ t, fs.live t ∧ (fs.itable t).inum = i

def noType : String := "ilock: no type"

def one (s : Fin NINODE) : Fin NINODE → Int := fun t => if t = s then 1 else 0

theorem one_nonneg (s t : Fin NINODE) : 0 ≤ one s t := by
  unfold one
  split <;> decide

@[simp] theorem one_self (s : Fin NINODE) : one s s = 1 := if_pos rfl

variable {t : Fin NINODE}

theorem one_other {s : Fin NINODE} (h : t ≠ s) : one s t = 0 := if_neg h

def Keeps (fs gs : Fs) : Prop := ∀ t, fs.live t → (gs.itable t).inum = (fs.itable t).inum

structure Touch (base : Fs) (R : Fin NINODE → Int) (fs : Fs) : Prop where
  wf : WellFormed fs
  sb : fs.sb = base.sb
  dinode : fs.dinode = base.dinode
  data : fs.data = base.data
  refs : ∀ t, (fs.itable t).ref = (base.itable t).ref + R t
  kept : ∀ t, base.live t →
    (fs.itable t).inum = (base.itable t).inum ∧ (fs.itable t).valid = true

section Touch
variable {base fs gs : Fs} {R : Fin NINODE → Int} {s : Fin NINODE} {E : String → Fs → Prop}

theorem Touch.refl (h : Ready fs) : Touch fs 0 fs :=
  ⟨h.wf, rfl, rfl, rfl, fun _ => (Int.add_zero _).symm, fun t ht => ⟨rfl, h.valid t ht⟩⟩

theorem Touch.tree (h : Touch base R fs) : fs.tree = base.tree := tree_congr h.dinode h.data

theorem Touch.live (h : Touch base R fs) (hR : ∀ t, 0 ≤ R t) (ht : base.live t) : fs.live t := by
  have h1 := h.refs t
  have h2 := hR t
  unfold Fs.live at *
  omega

theorem Touch.setInode (h : Touch base R fs) {R' : Fin NINODE → Int} {ip : Inode}
    (hw : WellFormed (fs.setInode s ip)) (href : ∀ t, t ≠ s → R' t = R t)
    (hrefs : ip.ref = (base.itable s).ref + R' s)
    (hkept : base.live s → ip.inum = (fs.itable s).inum ∧ ip.valid = true) :
    Touch base R' (fs.setInode s ip) := by
  have hself : (fs.setInode s ip).itable s = ip := by simp [Fs.setInode]
  have hother : ∀ t, t ≠ s → (fs.setInode s ip).itable t = fs.itable t :=
    fun t ht => Function.update_of_ne ht _ _
  refine ⟨hw, h.sb, h.dinode, h.data, fun t => ?_, fun t ht => ?_⟩
  · by_cases hts : t = s
    · subst t
      rw [hself]
      exact hrefs
    · rw [hother t hts, href t hts]
      exact h.refs t
  · by_cases hts : t = s
    · subst t
      rw [hself]
      exact ⟨(hkept ht).1.trans (h.kept s ht).1, (hkept ht).2⟩
    · rw [hother t hts]
      exact h.kept t ht

theorem Keeps.setInode {ip : Inode} (h : fs.live s → ip.inum = (fs.itable s).inum) :
    Keeps fs (fs.setInode s ip) := by
  intro t ht
  by_cases hts : t = s
  · subst t
    simpa [Fs.setInode] using h ht
  · simp [Fs.setInode, hts]

theorem Touch.iget (h : Touch base R fs) (hR : ∀ t, 0 ≤ R t) (i : Nat)
    (hE : ∀ e gs, e ≠ noType → E e gs) {Q : Fin NINODE → Fs → Prop}
    (hQ : ∀ s gs, Touch base (R + one s) gs → (gs.itable s).inum = i → gs.live s →
      Keeps fs gs → Q s gs) : wp (iget i) Q E fs := by
  refine wp_iget h.wf i (fun _ => hE _ _ (by decide)) fun s ip hw hi href hpos hlive hdead => ?_
  have hself : (fs.setInode s ip).itable s = ip := by simp [Fs.setInode]
  refine hQ s _ (h.setInode hw (fun t ht => ?_) ?_ ?_) (by rw [hself]; exact hi) ?_ ?_
  · simp [one_other ht]
  · rw [href, h.refs s]
    simp [Int.add_assoc]
  · intro hbl
    have hfl := h.live hR hbl
    rw [hlive hfl]
    exact ⟨rfl, (h.kept s hbl).2⟩
  · unfold Fs.live
    rw [hself]
    exact hpos
  · refine Keeps.setInode fun hl => ?_
    rw [hlive hl]

theorem Touch.idup (h : Touch base R fs) (hl : base.live s) (hR : ∀ t, 0 ≤ R t)
    {Q : Fin NINODE → Fs → Prop}
    (hQ : ∀ gs, Touch base (R + one s) gs → (gs.itable s).inum = (fs.itable s).inum → gs.live s →
      Keeps fs gs → Q s gs) : wp (idup s) Q E fs := by
  simp only [FileSys.idup, wp_bind, wp_modify, wp_pure]
  have hfl := h.live hR hl
  have hself : (fs.setInode s { fs.itable s with ref := (fs.itable s).ref + 1 }).itable s =
      { fs.itable s with ref := (fs.itable s).ref + 1 } := by simp [Fs.setInode]
  refine hQ _ (h.setInode (h.wf.retouch hfl _ _) (fun t ht => ?_) ?_ ?_) (by rw [hself]) ?_
    (Keeps.setInode fun _ => rfl)
  · simp [one_other ht]
  · rw [h.refs s]
    simp [Int.add_assoc]
  · exact fun hbl => ⟨rfl, (h.kept s hbl).2⟩
  · unfold Fs.live at *
    rw [hself]
    change 0 < (fs.itable s).ref + 1
    omega

variable {Q : Unit → Fs → Prop} {k d : Nat} {name : Name}

section
variable (h : Touch base R fs)
include h

theorem Touch.ilock (hE : ∀ e gs, (e = noType → base.tree.kind (fs.itable s).inum = none) → E e gs)
    (hQ : ∀ gs, Touch base R gs → (gs.itable s).valid = true → gs.live s →
      (gs.itable s).inum = (fs.itable s).inum → Keeps fs gs → Q () gs) :
    wp (ilock s) Q E fs := by
  refine wp_ilock h.wf (fun e gs he => hE e gs fun hno => ?_) fun ip hw hl hip _ => ?_
  · rw [← h.tree]
    exact kind_none.mpr (he.2 hno)
  have hself : (fs.setInode s ip).itable s = ip := by simp [Fs.setInode]
  refine hQ _ (h.setInode hw (fun _ _ => rfl) ?_ ?_) ?_ ?_ ?_ (Keeps.setInode fun _ => by rw [hip])
  · rw [hip]
    exact h.refs s
  · rw [hip]
    exact fun _ => ⟨rfl, rfl⟩
  · rw [hself, hip]
  · unfold Fs.live at *
    rw [hself, hip]
    exact hl
  · rw [hself, hip]

theorem Touch.iunlock (hE : ∀ e gs, e ≠ noType → E e gs)
    (hQ : ∀ gs, Touch base R gs → gs.live s → (gs.itable s).valid = (fs.itable s).valid →
      (gs.itable s).inum = (fs.itable s).inum → Keeps fs gs → Q () gs) :
    wp (iunlock s) Q E fs := by
  refine wp_iunlock h.wf (fun _ => hE _ _ (by decide)) fun hl hw => ?_
  have hself : (fs.setInode s { fs.itable s with locked := false }).itable s =
      { fs.itable s with locked := false } := by simp [Fs.setInode]
  refine hQ _ (h.setInode hw (fun _ _ => rfl) (h.refs s) fun hbl => ⟨rfl, (h.kept s hbl).2⟩)
    ?_ ?_ ?_ (Keeps.setInode fun _ => rfl)
  · unfold Fs.live at *
    rw [hself]
    exact hl
  · rw [hself]
  · rw [hself]

theorem Touch.iput (hR : ∀ t, 0 ≤ R t) (hs : 0 < R s) (hb : Ready base)
    (hE : ∀ e gs, e ≠ noType → E e gs)
    (hQ : ∀ gs, Touch base (R - one s) gs → Keeps fs gs → Q () gs) :
    wp (iput s) Q E fs := by
  have hrefs := h.refs s
  have hnn := hb.nonneg s
  have hl : fs.live s := by
    unfold Fs.live
    omega
  refine wp_iput h.wf hl (fun _ _ _ => hE _ _ (by decide)) (fun _ hw => ?_) fun href hv hn => ?_
  · refine hQ _ (h.setInode hw (fun t ht => ?_) ?_ fun hbl => ⟨rfl, (h.kept s hbl).2⟩)
      (Keeps.setInode fun _ => rfl)
    · simp [one_other ht]
    · rw [hrefs]
      simp
      omega
  · exfalso
    obtain ⟨hd, hty⟩ := h.wf.table.cached s hl hv
    have hkind : base.tree.kind (fs.itable s).inum ≠ none := by
      rw [← h.tree]
      intro hk
      rw [hd] at hty
      exact hty (kind_none.mp hk)
    have hnl : base.tree.nlink (fs.itable s).inum = 0 := by
      rw [← h.tree, tree_nlink (hd ▸ hty), ← hd]
      exact hn
    obtain ⟨t, ht, hti⟩ := hb.orphan _ hkind hnl
    have hts : t = s :=
      h.wf.table.uniq t s (h.live hR ht) hl ((h.kept t ht).1.trans hti)
    subst t
    unfold Fs.live at ht
    omega

theorem Touch.iunlockput (hR : ∀ t, 0 ≤ R t) (hs : 0 < R s) (hb : Ready base)
    (hE : ∀ e gs, e ≠ noType → E e gs)
    (hQ : ∀ gs, Touch base (R - one s) gs → Keeps fs gs → Q () gs) :
    wp (iunlockput s) Q E fs := by
  simp only [FileSys.iunlockput, wp_bind]
  refine h.iunlock hE fun gs hg _ _ _ hk => ?_
  refine hg.iput hR hs hb hE fun ks hks hk' => hQ ks hks fun t ht => ?_
  have hgl : gs.live t := by
    unfold Fs.live at *
    rw [hg.refs t, ← h.refs t]
    exact ht
  exact (hk' t hgl).trans (hk t ht)

end

/-! Lookup of one name. -/

def Fs.child (fs : Fs) (d : Nat) (name : Name) : Option Nat :=
  (List.range (fs.nents d)).findSome? fun k =>
    match fs.entry d k with
    | some (y, n) => if n = cname name then some y else none
    | none => none

def Fs.resolve (fs : Fs) (d : Nat) : List Name → Option Nat
  | [] => some d
  | n :: ns => (fs.child d n).bind fun x => fs.resolve x ns

theorem findSome_range {α : Type} {f : Nat → Option α} {n : Nat} {a : α} (hk : k < n)
    (ha : f k = some a) (hlt : ∀ j, j < k → f j = none) :
    (List.range n).findSome? f = some a := by
  induction n with
  | zero => omega
  | succ n ih =>
    rw [List.range_succ, List.findSome?_append]
    by_cases hkn : k < n
    · rw [ih hkn]
      rfl
    · obtain rfl : k = n := by omega
      have hnone : (List.range k).findSome? f = none :=
        List.findSome?_eq_none_iff.mpr fun j hj => hlt j (List.mem_range.mp hj)
      simp [hnone, ha]

theorem findSome_range_some {α : Type} {f : Nat → Option α} {n : Nat} {a : α}
    (h : (List.range n).findSome? f = some a) : ∃ k, f k = some a ∧ ∀ j, j < k → f j = none := by
  induction n with
  | zero => simp at h
  | succ n ih =>
    rw [List.range_succ, List.findSome?_append] at h
    cases hn : (List.range n).findSome? f with
    | some b =>
      rw [hn, Option.some_or] at h
      exact ih (hn.trans h)
    | none =>
      rw [hn, Option.none_or] at h
      refine ⟨n, by simpa using h, fun j hj => ?_⟩
      exact List.findSome?_eq_none_iff.mp hn j (List.mem_range.mpr hj)

theorem entry_lt_nents {e : Nat × Name} (h : fs.entry d k = some e) :
    k < fs.nents d := by
  unfold Fs.entry at h
  split at h
  · rename_i hc
    exact hc.2.1
  · cases h

theorem child_eq_some {y : Nat} (h : fs.entry d k = some (y, cname name))
    (hlt : ∀ j, j < k → ∀ z, fs.entry d j ≠ some (z, cname name)) : fs.child d name = some y := by
  refine findSome_range (entry_lt_nents h) (by simp [h]) fun j hj => ?_
  cases he : fs.entry d j with
  | none => rfl
  | some e =>
    obtain ⟨z, n⟩ := e
    have hne : n ≠ cname name := by
      rintro rfl
      exact hlt j hj z he
    simp [hne]

theorem child_spec {y : Nat} (h : fs.child d name = some y) :
    ∃ k, fs.entry d k = some (y, cname name) ∧
      ∀ j, j < k → ∀ z, fs.entry d j ≠ some (z, cname name) := by
  obtain ⟨k, hk, hlt⟩ := findSome_range_some h
  refine ⟨k, ?_, fun j hj z he => ?_⟩
  · cases he : fs.entry d k with
    | none => simp [he] at hk
    | some e =>
      obtain ⟨z, n⟩ := e
      rw [he] at hk
      obtain ⟨rfl, rfl⟩ : n = cname name ∧ z = y := by simpa using hk
      rfl
  · have := hlt j hj
    simp [he] at this

theorem child_congr (h : gs.tree.ent = fs.tree.ent) (d : Nat) (name : Name) :
    gs.child d name = fs.child d name := by
  have hent : gs.entry = fs.entry := h
  refine Option.ext fun y => ⟨fun hy => ?_, fun hy => ?_⟩
  · obtain ⟨k, hk, hlt⟩ := child_spec hy
    rw [hent] at hk hlt
    exact child_eq_some hk hlt
  · obtain ⟨k, hk, hlt⟩ := child_spec hy
    rw [← hent] at hk hlt
    exact child_eq_some hk hlt

theorem resolve_congr (h : gs.tree.ent = fs.tree.ent) (d : Nat) (ns : List Name) :
    gs.resolve d ns = fs.resolve d ns := by
  induction ns generalizing d with
  | nil => rfl
  | cons n ns ih => simp only [Fs.resolve, child_congr h, ih]

theorem resolve_append (d : Nat) (ns : List Name) (n : Name) :
    fs.resolve d (ns ++ [n]) = (fs.resolve d ns).bind fun y => fs.child y n := by
  induction ns generalizing d with
  | nil => cases hc : fs.child d n <;> simp [Fs.resolve, hc]
  | cons m ns ih =>
    cases hc : fs.child d m with
    | none => simp [Fs.resolve, hc]
    | some z => simpa [Fs.resolve, hc] using ih z

theorem entry_of_dirent (hdir : (fs.dinode d).type = some .dir) (hk : k < fs.nents d) :
    fs.entry d k = if (fs.dirent d k).inum = 0 then none
      else some ((fs.dirent d k).inum, cname (fs.dirent d k).name) := by
  unfold Fs.entry
  by_cases h0 : (fs.dirent d k).inum = 0
  · rw [if_pos h0, if_neg (fun h => h.2.2 h0)]
  · rw [if_neg h0, if_pos ⟨hdir, hk, h0⟩]

theorem Touch.dirlookup (h : Touch base R fs) (hR : ∀ t, 0 ≤ R t) (hl : fs.live s)
    (hv : (fs.itable s).valid = true) (hE : ∀ e gs, e ≠ noType → E e gs) (name : Name)
    {Q : Option (Fin NINODE × Nat) → Fs → Prop}
    (hnone : base.tree.kind (fs.itable s).inum = some .dir →
      (∀ k y, base.tree.ent (fs.itable s).inum k ≠ some (y, cname name)) → Q none fs)
    (hsome : ∀ k y t gs, base.tree.ent (fs.itable s).inum k = some (y, cname name) →
      (∀ j, j < k → ∀ z, base.tree.ent (fs.itable s).inum j ≠ some (z, cname name)) →
      Touch base (R + one t) gs → (gs.itable t).inum = y → gs.live t → Keeps fs gs →
      Q (some (t, DESIZE * k)) gs) : wp (dirlookup s name) Q E fs := by
  obtain ⟨hd, hty⟩ := h.wf.table.cached s hl hv
  simp only [FileSys.dirlookup, wp_bind, wp_get, wp_ite, wp_throw]
  refine ⟨fun hdir => ?_, fun _ => hE _ _ (by decide)⟩
  rw [hd] at hdir
  rw [← h.tree] at hnone hsome
  have hscan := wp_scan (Q := Q) h.wf hl hv 0 (fun _ => hE "dirlookup read" fs (by decide))
    (c := fun off de => do
      if de.inum ≠ 0 ∧ namecmp name de.name = 0 then do
        let ip ← FileSys.iget de.inum
        pure (some (ip, off))
      else pure none)
    (fun k => ∀ z, fs.tree.ent (fs.itable s).inum k ≠ some (z, cname name)) ?_ ?_
  · exact hscan
  · intro hmiss _
    refine hnone (kind_dir.mpr hdir) fun k y he => ?_
    exact hmiss k (Nat.zero_le k) (entry_lt_nents he) y he
  · intro k _ hk hprev
    have hent := entry_of_dirent hdir hk
    rw [wp_ite]
    refine ⟨fun hc => ?_, fun hc => ⟨rfl, fun z he => hc ?_⟩⟩
    · rw [if_neg hc.1, ← (namecmp_eq_zero _ _).mp hc.2] at hent
      rw [wp_bind]
      refine h.iget hR _ hE fun t gs hg hi hgl hk' => ?_
      exact hsome k _ t gs hent (fun j hj => hprev j (Nat.zero_le j) hj) hg hi hgl hk'
    · have he' : fs.entry (fs.itable s).inum k = some (z, cname name) := he
      rw [hent] at he'
      split at he'
      · cases he'
      · rename_i h0
        simp only [Option.some.injEq, Prod.mk.injEq] at he'
        exact ⟨h0, (namecmp_eq_zero _ _).mpr he'.2.symm⟩

/-! Paths. -/

theorem Touch.kind (h : Touch base R fs) (hl : fs.live s) (hv : (fs.itable s).valid = true) :
    base.tree.kind (fs.itable s).inum = some .dir ↔ (fs.itable s).d.type = some .dir := by
  rw [← h.tree, kind_dir, (h.wf.table.cached s hl hv).1]

def Found (base : Fs) (parent : Bool) (d : Nat) (ns : List Name) (gs : Fs) (t : Fin NINODE)
    (n : Name) : Prop :=
  if parent then ∃ init, ns = init ++ [n] ∧ base.resolve d init = some (gs.itable t).inum ∧
    (gs.itable t).valid = true ∧ base.tree.kind (gs.itable t).inum = some .dir
  else base.resolve d ns = some (gs.itable t).inum

theorem Found.cons {parent : Bool} {y : Nat} {n : Name} {ns : List Name}
    (hc : base.child d name = some y) (h : Found base parent y ns gs t n) :
    Found base parent d (name :: ns) gs t n := by
  unfold Found at *
  cases parent with
  | true =>
    obtain ⟨init, rfl, hres, hrest⟩ := h
    exact ⟨name :: init, rfl, by simpa [Fs.resolve, hc] using hres, hrest⟩
  | false => simpa [Fs.resolve, hc] using h

def Fs.Dangling (fs : Fs) (d : Nat) : Prop :=
  fs.tree.kind d = none ∨ ∃ e k x n, fs.tree.ent e k = some (x, n) ∧ fs.tree.kind x = none

theorem wp_namexLoop (hb : Ready base) (parent : Bool) (ns : List Name)
    (h : Touch base (one s) fs) (hl : fs.live s)
    (hE : ∀ e gs, (e = noType → base.Dangling (fs.itable s).inum) → E e gs)
    {Q : Option (Fin NINODE × Name) → Fs → Prop}
    (hnone : ∀ gs, Touch base 0 gs → Q none gs)
    (hsome : ∀ t n gs, Touch base (one t) gs → gs.live t →
      Found base parent (fs.itable s).inum ns gs t n → Q (some (t, n)) gs) :
    wp (namexLoop parent ns s) Q E fs := by
  have hzero : ∀ {gs t}, Touch base (one t - one t) gs → Touch base 0 gs := by
    intro gs t hg
    rwa [sub_self] at hg
  induction ns generalizing s fs with
  | nil =>
    simp only [namexLoop, wp_ite, wp_bind, wp_pure]
    refine ⟨fun hp => ?_, fun hp => ?_⟩
    · exact h.iput (one_nonneg s) (by simp) hb (fun e gs he => hE e gs (absurd · he)) fun gs hg _ =>
        hnone gs (hzero hg)
    · refine hsome s [] fs h hl ?_
      simp only [Bool.not_eq_true] at hp
      rw [hp]
      rfl
  | cons name rest ih =>
    have hE' : ∀ e gs, e ≠ noType → E e gs := fun e gs he => hE e gs (absurd · he)
    simp only [namexLoop, wp_bind, wp_get, wp_ite, wp_pure]
    refine h.ilock (fun e gs he => hE e gs fun hno => .inl (he hno)) fun gs hg hv hgl hi _ => ?_
    have hkind := hg.kind hgl hv
    have hput : wp (iunlockput s) (fun _ s' => Q none s') E gs :=
      hg.iunlockput (one_nonneg s) (by simp) hb hE' fun ks hk _ => hnone ks (hzero hk)
    refine ⟨fun hdir => ⟨fun hlast => ?_, fun hlast => ?_⟩, fun _ => hput⟩
    · obtain ⟨hp, rfl⟩ := hlast
      refine hg.iunlock hE' fun ks hk hkl hkv hki _ => hsome s name ks hk hkl ?_
      unfold Found
      rw [if_pos hp, hki, hi]
      exact ⟨[], rfl, rfl, hkv.trans hv, by rw [← hi]; exact hkind.mpr hdir⟩
    · refine hg.dirlookup (one_nonneg s) hgl hv hE' name (fun _ _ => (wp_bind _ _ _).mpr hput) ?_
      intro k y t ks hent hfirst hk hkt hktl _
      have hR : ∀ u, 0 ≤ (one s + one t) u := fun u => by
        have h1 := one_nonneg s u
        have h2 := one_nonneg t u
        simp only [Pi.add_apply]
        omega
      have hpos : 0 < (one s + one t) s := by
        have := one_nonneg t s
        simp only [Pi.add_apply, one_self]
        omega
      refine (wp_bind _ _ _).mpr (hk.iunlockput hR hpos hb hE' fun ls hls hkeep => ?_)
      rw [add_sub_cancel_left] at hls
      have hlt : ls.live t := by
        have h1 := hls.refs t
        have h2 := hb.nonneg t
        unfold Fs.live
        rw [one_self] at h1
        omega
      have hty : (ls.itable t).inum = y := (hkeep t hktl).trans hkt
      refine ih hls hlt (fun e vs he => hE e vs fun hno => ?_) fun u n vs hvs hvl hfound =>
        hsome u n vs hvs hvl ?_
      · rcases he hno with hd | hd
        · exact .inr ⟨_, k, y, _, hent, hty ▸ hd⟩
        · exact .inr hd
      rw [hty] at hfound
      rw [← hi]
      exact hfound.cons (child_eq_some hent hfirst)

def Fs.start (fs : Fs) (cwd : Fin NINODE) (path : List UInt8) : Nat :=
  if path.head? = some SLASH then ROOTINO else (fs.itable cwd).inum

theorem wp_namex (hb : Ready fs) {cwd : Fin NINODE} (hcwd : fs.live cwd)
    (path : List UInt8) (parent : Bool)
    (hE : ∀ e gs, (e = noType → fs.Dangling (fs.start cwd path)) → E e gs)
    {Q : Option (Fin NINODE × Name) → Fs → Prop}
    (hnone : ∀ gs, Touch fs 0 gs → Q none gs)
    (hsome : ∀ t n gs, Touch fs (one t) gs → gs.live t →
      Found fs parent (fs.start cwd path) (elems path) gs t n → Q (some (t, n)) gs) :
    wp (namex cwd path parent) Q E fs := by
  simp only [namex, wp_bind, wp_ite]
  have h0 := Touch.refl hb
  have hR : ∀ t : Fin NINODE, (0 : Int) ≤ (0 : Fin NINODE → Int) t := fun _ => Int.le_refl 0
  refine ⟨fun habs => ?_, fun hrel => ?_⟩
  · refine h0.iget hR _ (fun e gs he => hE e gs (absurd · he)) fun s gs hg hi hgl _ => ?_
    have hstart : (gs.itable s).inum = fs.start cwd path := by rw [hi, Fs.start, if_pos habs]
    rw [zero_add] at hg
    rw [← hstart] at hE hsome
    exact wp_namexLoop hb parent _ hg hgl hE hnone hsome
  · refine h0.idup hcwd hR fun gs hg hi hgl _ => ?_
    have hstart : (gs.itable cwd).inum = fs.start cwd path := by rw [hi, Fs.start, if_neg hrel]
    rw [zero_add] at hg
    rw [← hstart] at hE hsome
    exact wp_namexLoop hb parent _ hg hgl hE hnone hsome

end Touch

end Xv6Audit.FileSys
