import Xv6Audit.Fs.Directory
import Xv6Audit.Fs.LinkCount

/-! Path names: the elements `skipelem` cuts from them, and the walk of `namex` along these. -/
namespace Xv6Audit.FileSys
open Function

open Prog Disk
open Audit (ascii)

/-! Elements. -/

def components (path : List UInt8) : List (List UInt8) := (path.splitOn SLASH).filter (· ≠ [])

theorem components_slash (path : List UInt8) : components (SLASH :: path) = components path := by
  have hsplit : (SLASH :: path).splitOn SLASH = [] :: path.splitOn SLASH := by
    rw [List.splitOn_eq_splitOnP, List.splitOnP_cons_eq_if_modifyHead, if_pos (by decide),
      List.splitOn_eq_splitOnP]
  rw [components, hsplit]
  rfl

theorem components_slashes (path : List UInt8) :
    components (path.dropWhile (· == SLASH)) = components path := by
  induction path with
  | nil => rfl
  | cons c path ih =>
    by_cases hc : c = SLASH
    · rw [List.dropWhile_cons_of_pos (by simp [hc]), ih, hc, components_slash]
    · rw [List.dropWhile_cons_of_neg (by simp [hc])]

variable {path : List UInt8}

theorem components_cons (hne : path ≠ []) (h : path.head? ≠ some SLASH) :
    components path = path.takeWhile (· != SLASH) ::
      components (path.dropWhile (· != SLASH)) := by
  have hno : ∀ x ∈ path.takeWhile (· != SLASH), (x == SLASH) = false := by
    intro x hx
    have := List.mem_takeWhile_imp hx
    simpa using this
  have hfirst : path.takeWhile (· != SLASH) ≠ [] := by
    cases path with
    | nil => exact absurd rfl hne
    | cons c path =>
      have hc : c ≠ SLASH := fun he => h (by rw [he]; rfl)
      simp [hc]
  have hsplit := List.takeWhile_append_dropWhile (p := (· != SLASH)) (l := path)
  cases hrest : path.dropWhile (· != SLASH) with
  | nil =>
    rw [hrest, List.append_nil] at hsplit
    have hwhole : path.splitOn SLASH = [path] := by
      rw [hsplit] at hno
      rw [List.splitOn_eq_splitOnP, List.splitOnP_eq_singleton hno]
    have hnil : components [] = [] := rfl
    rw [hsplit, hnil, components, hwhole, List.filter_cons_of_pos (by simp [hne])]
    rfl
  | cons c rest =>
    have hc : c = SLASH := by
      have := List.head?_dropWhile_not (· != SLASH) path
      rw [hrest] at this
      simpa using this
    subst c
    rw [hrest] at hsplit
    have hcut : path.splitOn SLASH = path.takeWhile (· != SLASH) :: rest.splitOn SLASH := by
      conv_lhs => rw [← hsplit]
      rw [List.splitOn_eq_splitOnP, List.splitOn_eq_splitOnP]
      exact List.splitOnP_append_cons_of_forall_mem hno SLASH (by decide) rest
    rw [components_slash, components, hcut, List.filter_cons_of_pos (by simp [hfirst])]
    rfl

theorem skipelem_none :
    skipelem path = none ↔ path.dropWhile (· == SLASH) = [] := by
  unfold skipelem
  cases path.dropWhile (· == SLASH) <;> simp

theorem skipelem_some {rest : List UInt8} {name : Name} (h : skipelem path = some (rest, name)) :
    ∃ c, components path = c :: components rest ∧ name = c.take DIRSIZ ∧
      rest.length < path.length ∧ (rest = [] ↔ components rest = []) := by
  obtain ⟨s, hs⟩ : ∃ s, s = path.dropWhile (· == SLASH) := ⟨_, rfl⟩
  have hne : s ≠ [] := by
    intro hnil
    rw [skipelem_none.mpr (hs ▸ hnil)] at h
    cases h
  have hskip : skipelem path = some ((s.dropWhile (· != SLASH)).dropWhile (· == SLASH),
      (s.takeWhile (· != SLASH)).take DIRSIZ) := by
    unfold skipelem
    rw [← hs]
    cases s with
    | nil => exact absurd rfl hne
    | cons a s => rfl
  rw [hskip] at h
  obtain ⟨hrest, rfl⟩ := Prod.mk.inj (Option.some.inj h)
  have hnoslash : ∀ l : List UInt8, (l.dropWhile (· == SLASH)).head? ≠ some SLASH := by
    intro l he
    have := List.head?_dropWhile_not (· == SLASH) l
    rw [he] at this
    simp at this
  have hcons := components_cons hne (hs ▸ hnoslash path)
  refine ⟨s.takeWhile (· != SLASH), ?_, rfl, ?_, ?_⟩
  · rw [← components_slashes path, ← hs, hcons, ← hrest, components_slashes]
  · have h1 : rest.length ≤ (s.dropWhile (· != SLASH)).length := by
      rw [← hrest]
      exact (List.dropWhile_suffix _).length_le
    have h2 : s.length ≤ path.length := by
      rw [hs]
      exact (List.dropWhile_suffix _).length_le
    have h3 : (s.dropWhile (· != SLASH)).length < s.length := by
      cases s with
      | nil => exact absurd rfl hne
      | cons a s =>
        have ha : a ≠ SLASH := by
          rintro rfl
          exact hnoslash path (by rw [← hs]; rfl)
        rw [List.dropWhile_cons_of_pos (by simp [ha])]
        exact Nat.lt_succ_of_le (List.dropWhile_suffix _).length_le
    omega
  · constructor
    · rintro rfl
      rfl
    · intro hnil
      by_contra hr
      rw [components_cons hr (hrest ▸ hnoslash _)] at hnil
      cases hnil

theorem elemsUpto_eq (fuel : Nat) (path : List UInt8) (h : path.length ≤ fuel) :
    elemsUpto fuel path = (components path).map (·.take DIRSIZ) := by
  induction fuel generalizing path with
  | zero =>
    obtain rfl : path = [] := List.eq_nil_of_length_eq_zero (by omega)
    rfl
  | succ fuel ih =>
    unfold elemsUpto
    cases hs : skipelem path with
    | none =>
      have hnil : components path = [] := by
        rw [← components_slashes, skipelem_none.mp hs]
        rfl
      rw [hnil]
      rfl
    | some r =>
      obtain ⟨rest, name⟩ := r
      obtain ⟨c, hc, rfl, hlen, -⟩ := skipelem_some hs
      rw [hc, List.map_cons]
      exact congrArg _ (ih rest (by omega))

theorem elems_eq (path : List UInt8) : elems path = (components path).map (·.take DIRSIZ) :=
  elemsUpto_eq _ path (Nat.le_refl _)

/-! The loop of `namex` over the path itself. -/

def namexFrom (nameiparent : Bool) :
    Nat → List UInt8 → Fin NINODE → FsProg (Option (Fin NINODE × Name))
  | 0, _, ip => pure (some (ip, []))
  | fuel+1, path, ip =>
    match skipelem path with
    | none =>
      if nameiparent then do
        iput ip
        pure none
      else pure (some (ip, []))
    | some (rest, name) => do
      ilock ip
      if ((← get).itable ip).d.type = some .dir then
        if nameiparent = true ∧ rest = [] then do
          -- stop one level early
          iunlock ip
          pure (some (ip, name))
        else do
          match ← dirlookup ip name with
          | none =>
            iunlockput ip
            pure none
          | some (next, _) =>
            iunlockput ip
            namexFrom nameiparent fuel rest next
      else do
        iunlockput ip
        pure none

theorem namexFrom_eq (parent : Bool) (fuel : Nat) (path : List UInt8) (ip : Fin NINODE)
    (h : path.length < fuel) : namexFrom parent fuel path ip = namexLoop parent (elems path) ip := by
  induction fuel generalizing path ip with
  | zero => omega
  | succ fuel ih =>
    unfold namexFrom
    cases hs : skipelem path with
    | none =>
      have hnil : elems path = [] := by
        rw [elems_eq, ← components_slashes, skipelem_none.mp hs]
        rfl
      rw [hnil]
      rfl
    | some r =>
      obtain ⟨rest, name⟩ := r
      obtain ⟨c, hc, rfl, hlen, hrest⟩ := skipelem_some hs
      have hcons : elems path = c.take DIRSIZ :: elems rest := by
        rw [elems_eq, hc, elems_eq]
        rfl
      have hlast : rest = [] ↔ elems rest = [] := by
        rw [elems_eq, List.map_eq_nil_iff]
        exact hrest
      have hstop : ∀ a b : FsProg (Option (Fin NINODE × Name)),
          (if parent = true ∧ rest = [] then a else b) =
            if parent = true ∧ elems rest = [] then a else b :=
        fun a b => if_congr (and_congr_right' hlast) rfl rfl
      have hnext : namexFrom parent fuel rest = namexLoop parent (elems rest) :=
        funext fun next => ih rest next (by omega)
      rw [hcons]
      simp only [hnext, hstop]
      rfl

/-! What a path names. -/

def down (I : Nat → Option Node) (d : Nat) (name : Name) : Option Nat :=
  (I d).bind fun f => if f.type = .dir then f.child name else none

def walk (I : Nat → Option Node) (d : Nat) (names : List Name) : Option Nat :=
  names.foldlM (down I) d

def resolve (I : Nat → Option Node) (parent : Bool) : List Name → Nat → Option (Nat × Name)
  | [], d => if parent then none else some (d, [])
  | name :: rest, d => (I d).bind fun f =>
    if f.type = .dir then
      if parent = true ∧ rest = [] then some (d, name)
      else (f.child name).bind (resolve I parent rest)
    else none

theorem resolve_false (I : Nat → Option Node) (names : List Name) (d : Nat) :
    resolve I false names d = (walk I d names).map fun x => (x, []) := by
  induction names generalizing d with
  | nil => rfl
  | cons name rest ih =>
    have hstep : walk I d (name :: rest) = (down I d name).bind fun x => walk I x rest := rfl
    rw [hstep, Option.map_bind]
    unfold down
    cases hd : I d with
    | none => simp [resolve, hd]
    | some f =>
      by_cases hdir : f.type = .dir
      · simp only [resolve, hd, Option.bind_some, hdir, if_true, Bool.false_eq_true, false_and,
          if_false]
        exact congrArg _ (funext fun x => ih x)
      · simp [resolve, hd, hdir]

theorem resolve_true (I : Nat → Option Node) (front : List Name) (name : Name) (d : Nat) :
    resolve I true (front ++ [name]) d = (walk I d front).bind fun x =>
      (I x).bind fun f => if f.type = .dir then some (x, name) else none := by
  induction front generalizing d with
  | nil =>
    change resolve I true [name] d = _
    simp [resolve, walk]
  | cons n front ih =>
    have hstep : walk I d (n :: front) = (down I d n).bind fun x => walk I x front := rfl
    have hne : front ++ [name] ≠ [] := by simp
    rw [hstep, List.cons_append, resolve, Option.bind_assoc]
    unfold down
    rw [Option.bind_assoc]
    refine congrArg _ (funext fun f => ?_)
    by_cases hdir : f.type = .dir
    · rw [if_pos hdir, if_pos hdir, if_neg fun hc => hne hc.2]
      exact congrArg _ (funext fun x => ih x)
    · rw [if_neg hdir, if_neg hdir]
      rfl

theorem walk_eq_none {I : Nat → Option Node} {names : List Name} {d : Nat} :
    walk I d names = none ↔ ∃ front name rest x, names = front ++ name :: rest ∧
      walk I d front = some x ∧ down I x name = none := by
  constructor
  · intro h
    induction names generalizing d with
    | nil => cases h
    | cons name rest ih =>
      have hstep : walk I d (name :: rest) = (down I d name).bind fun x => walk I x rest := rfl
      rw [hstep] at h
      cases hd : down I d name with
      | none => exact ⟨[], name, rest, d, rfl, rfl, hd⟩
      | some x =>
        rw [hd] at h
        obtain ⟨front, n, rest', y, rfl, hy, hn⟩ := ih h
        refine ⟨name :: front, n, rest', y, rfl, ?_, hn⟩
        change (down I d name).bind (fun x => walk I x front) = some y
        rw [hd]
        exact hy
  · rintro ⟨front, name, rest, x, rfl, hx, hn⟩
    unfold walk at hx ⊢
    rw [List.foldlM_append, hx]
    change (down I x name).bind _ = none
    rw [hn]
    rfl

/-! The walk over nodes finds what following the entries on disk finds. -/

theorem node_nents {fs : Fs} {d : Nat} {f : Node} (h : fs.node d = some f) :
    f.nents = fs.nents d := by
  rw [Node.nents, ← (node_eq_some h).2.2.2.2, file_length]
  rfl

theorem node_entry {fs : Fs} {d : Nat} {f : Node} (h : fs.node d = some f) (hdir : f.type = .dir)
    (k : Nat) : f.entry k = fs.entry d k := by
  obtain ⟨hty, -, -, -, hbytes⟩ := node_eq_some h
  have hdirent : k < fs.nents d → f.dirent k = fs.dirent d k := by
    intro hk
    have hsize : DESIZE * k + DESIZE ≤ (fs.dinode d).size := by
      unfold Fs.nents DESIZE at *
      omega
    rw [Node.dirent, Fs.dirent, ← hbytes, ← bytes_eq_file, Nat.min_eq_left hsize,
      Nat.add_sub_cancel_left]
  unfold Node.entry Fs.entry
  rw [node_nents h, hty, hdir]
  by_cases hk : k < fs.nents d
  · simp only [hk, hdirent hk, true_and]
  · simp [hk]

theorem down_node (fs : Fs) (d : Nat) (name : Name) : down fs.node d name = fs.child d name := by
  have hno : (fs.dinode d).type ≠ some .dir → fs.child d name = none := by
    intro hty
    refine List.findSome?_eq_none_iff.mpr fun k _ => ?_
    rw [Fs.entry, if_neg fun h => hty h.1]
  unfold down
  cases hf : fs.node d with
  | none =>
    refine (hno fun hty => ?_).symm
    simp [Fs.node, hty] at hf
  | some f =>
    have hty := (node_eq_some hf).1
    by_cases hdir : f.type = .dir
    · rw [Option.bind_some, if_pos hdir]
      rw [Node.child, Node.lookup, Fs.child, List.map_findSome?, node_nents hf]
      refine congrArg (List.findSome? · _) (funext fun k => ?_)
      rw [Function.comp_apply, node_entry hf hdir]
      cases fs.entry d k with
      | none => rfl
      | some e =>
        dsimp only
        split <;> rfl
    · rw [Option.bind_some, if_neg hdir, hno (by rw [hty]; simpa using hdir)]

theorem walk_node (fs : Fs) (d : Nat) (names : List Name) :
    walk fs.node d names = fs.resolve d names := by
  induction names generalizing d with
  | nil => rfl
  | cons name rest ih =>
    change (down fs.node d name).bind (fun x => walk fs.node x rest) = _
    rw [down_node, Fs.resolve]
    exact congrArg _ (funext ih)

/-! The loop over the nodes. -/

def Named (I : Nat → Option Node) (x : Nat) : Prop :=
  x = ROOTINO ∨ ∃ d f name, I d = some f ∧ f.type = .dir ∧ f.child name = some x

def InUse (S : Fin NINODE → Slot) (x : Nat) : Prop := ∃ t, 0 < (S t).ref ∧ (S t).inum = x

/-- Between calls, no inode is locked. Directories hold whole entries, and one that is named has
links or is in use, so that giving it back after a lookup does not free it. -/
structure Navigable (I : Nat → Option Node) (S : Fin NINODE → Slot) : Prop where
  whole : ∀ d f, I d = some f → f.type = .dir → DESIZE ∣ f.bytes.length
  linked : ∀ x f, Named I x → I x = some f → f.type = .dir → f.nlink = 0 → InUse S x
  nonneg : ∀ t, 0 ≤ (S t).ref
  unlocked : ∀ t, (S t).locked = false

def Crowded (S : Fin NINODE → Slot) : Prop := ∀ t u, (S t).ref = 0 → (S u).ref = 0 → t = u

def Missing (I : Nat → Option Node) (d : Nat) (names : List Name) : Prop :=
  ∃ front name rest x, names = front ++ name :: rest ∧ walk I d front = some x ∧ I x = none

/-- The nodes after a walk that failed: as before, unless it ended at a file that had names but
no links and was not in use. -/
def Strayed (I : Nat → Option Node) (S : Fin NINODE → Slot) (I' : Nat → Option Node) : Prop :=
  I' = I ∨ ∃ x f, Named I x ∧ ¬ InUse S x ∧ I x = some f ∧ f.type ≠ .dir ∧ f.nlink = 0 ∧
    I' = update I x none

section Loop
variable {fs : Fs} {sb : Super} {I : Nat → Option Node} {S S' : Fin NINODE → Slot}
  {s : Fin NINODE} {E : String → Fs → Prop}

structure Walking (fs : Fs) (sb : Super) (I : Nat → Option Node) (S S' : Fin NINODE → Slot)
    (s : Fin NINODE) : Prop where
  shows : Shows fs sb I S'
  held : Held S (one s) S'
  unlocked : ∀ t, (S' t).locked = false
  origin : Named I (S' s).inum ∨ InUse S (S' s).inum

variable {I' : Nat → Option Node}

theorem Walking.kept (h : Walking fs sb I S S' s) (hn : Navigable I S) {f : Node}
    (hf : I (S' s).inum = some f) (hdir : f.type = .dir) (hrel : Dropped I S (S' s).inum I') :
    I' = I := by
  obtain hsame | ⟨-, ⟨g, hg, h0⟩, hout⟩ := hrel
  · exact hsame
  · obtain rfl := Option.some.inj (hf.symm.trans hg)
    obtain ⟨t, ht, hi⟩ := h.origin.elim (fun hnm => hn.linked _ f hnm hf hdir h0) fun hin => hin
    exact absurd hi (hout t ht)

theorem Walking.strayed (h : Walking fs sb I S S' s) (hn : Navigable I S)
    (hrel : Dropped I S (S' s).inum I') : Strayed I S I' := by
  obtain hsame | ⟨rfl, ⟨f, hf, h0⟩, hout⟩ := hrel
  · exact .inl hsame
  · have hnot : ¬ InUse S (S' s).inum := fun ⟨t, ht, hi⟩ => hout t ht hi
    have hnamed := h.origin.resolve_right hnot
    exact .inr ⟨_, f, hnamed, hnot, hf, fun hdir => hnot (hn.linked _ f hnamed hf hdir h0), h0, rfl⟩

def Ended (fs : Fs) (sb : Super) (I : Nat → Option Node) (S : Fin NINODE → Slot)
    (r : Option (Nat × Name)) : Option (Fin NINODE × Name) → Fs → Prop
  | some (ip, name), gs => (∃ S', Walking gs sb I S S' ip ∧ r = some ((S' ip).inum, name)) ∧
    ∀ d, Still d fs gs
  | none, gs => r = none ∧ ∃ I' S', Shows gs sb I' S' ∧ Held S 0 S' ∧
    (∀ t, (S' t).locked = false) ∧ Strayed I S I'

theorem Walking.fail (h : Walking fs sb I S S' s) {r : Option (Nat × Name)} (hr : r = none)
    {v : Slot} {gs ks : Fs} (hstray : Strayed I S I') (hvl : v.locked = false)
    (hheld : Held S (one s - one s) (update S' s v))
    (hg : Shows gs sb I' (update S' s v)) : Ended ks sb I S r none gs := by
  refine ⟨hr, I', _, hg, hheld.congr fun t => sub_self _, fun t => ?_, hstray⟩
  by_cases hts : t = s
  · subst hts
    rw [update_self]
    exact hvl
  · rw [update_of_ne hts]
    exact h.unlocked t

theorem Ended.from {fs gs ks : Fs} {r : Option (Nat × Name)} {o : Option (Fin NINODE × Name)}
    (h : Ended gs sb I S r o ks) (hst : ∀ d, Still d fs gs) : Ended fs sb I S r o ks := by
  cases o with
  | none => exact h
  | some q => exact ⟨h.1, fun d => (hst d).trans (h.2 d)⟩

section
variable (h : Walking fs sb I S S' s)
include h

theorem Walking.wp_ilock (hn : Navigable I S)
    (hgone : I (S' s).inum = none → ∀ gs, E "ilock: no type" gs) {Q : Unit → Fs → Prop}
    (hQ : ∀ gs f, I (S' s).inum = some f → (gs.itable s).d.type = some f.type →
      Shows gs sb I (update S' s (S' s).lock) → (∀ d, Still d fs gs) →
      Q () gs) : wp (ilock s) Q E fs := by
  have hl : 0 < (S' s).ref := by
    have h1 := h.held.ref s
    have h2 := hn.nonneg s
    unfold one at h1
    rw [if_pos rfl] at h1
    omega
  refine wp_frame still_ilock (h.shows.wp_ilock hl (h.unlocked s) hgone fun gs hg => ?_)
  have hlive : 0 < (update S' s (S' s).lock s).ref := by
    rw [update_self]
    exact hl
  have hvalid : (update S' s (S' s).lock s).valid = true := by
    rw [update_self]
    rfl
  obtain ⟨f, hf⟩ := hg.cached hlive hvalid
  have htype := (hg.copy hlive hvalid hf).1
  rw [update_self] at hf
  exact hQ gs f hf htype hg

theorem Walking.wp_next (hn : Navigable I S) {f : Node} (hf : I (S' s).inum = some f)
    (hdir : f.type = .dir) {gs : Fs} {x : Nat} {name : Name} {t : Fin NINODE} {v : Slot}
    (hx : f.child name = some x) (hgot : Got (update S' s (S' s).lock) x t v)
    (hg : Shows gs sb I (update (update S' s
      (S' s).lock) t v)) {Q : Unit → Fs → Prop}
    (hQ : ∀ ks S'', Walking ks sb I S S'' t → (S'' t).inum = x → (∀ d, Still d gs ks) →
      Q () ks) : wp (iunlockput s) Q E gs := by
  obtain ⟨L, hL⟩ : ∃ L, L = update S' s (S' s).lock :=
    ⟨_, rfl⟩
  rw [← hL] at hgot hg
  have hLs : L s = (S' s).lock := by
    rw [hL, update_self]
  have hLt : ∀ u, u ≠ s → L u = S' u := by
    intro u hu
    rw [hL, update_of_ne hu]
  have hheld : Held S (one s + one t) (update L t v) := by
    have h1 : Held S (one s) L := by
      rw [hL]
      exact h.held.retouch rfl rfl fun _ => rfl
    exact h1.trans hgot.held (one_nonneg s)
  have hpos : 0 < (L s).ref := by
    have h1 := h.held.ref s
    have h2 := hn.nonneg s
    unfold one at h1
    rw [if_pos rfl] at h1
    rw [hLs]
    change 0 < (S' s).ref
    omega
  have hslot : (update L t v s).inum = (S' s).inum ∧
      (update L t v s).locked = true := by
    by_cases hst : s = t
    · subst hst
      rw [update_self, hgot.locked, hgot.inum, ← (hgot.live hpos).1, hLs]
      exact ⟨rfl, rfl⟩
    · rw [update_of_ne hst, hLs]
      exact ⟨rfl, rfl⟩
  have hone : 0 < (one s + one t) s := by
    have := one_nonneg t s
    rw [Pi.add_apply, one_self]
    omega
  have hlive : 0 < (update L t v s).ref := by
    have h1 := hheld.ref s
    have h2 := hn.nonneg s
    omega
  refine wp_frame (hg.still_iunlockput hlive)
    (hg.wp_iunlockput hheld (fun u => ?_) hone (hn.nonneg s) hslot.2 ?_)
  · have h1 := one_nonneg s u
    have h2 := one_nonneg t u
    rw [Pi.add_apply]
    omega
  · intro I' w ks hwi hwl hheld' hrel hdead hk hstill
    rw [hslot.1] at hwi hrel hdead
    obtain rfl := h.kept hn hf hdir hrel
    have halive : ¬ Dead I' (update L t v s) := by
      intro hd
      rw [hdead hd, update_self] at hf
      cases hf
    have hinum : (update (update L t v) s w t).inum = x := by
      by_cases hts : t = s
      · subst hts
        rw [update_self, hwi, ← hslot.1, update_self, hgot.inum]
      · rw [update_of_ne hts, update_self, hgot.inum]
    refine hQ ks _ ⟨hk, hheld'.congr fun u => ?_, fun u => ?_, ?_⟩ hinum (hstill halive)
    · rw [Pi.sub_apply, Pi.add_apply]
      omega
    · by_cases hus : u = s
      · subst hus
        rw [update_self]
        exact hwl
      · rw [update_of_ne hus]
        by_cases hut : u = t
        · subst hut
          rw [update_self, hgot.locked, hLt u hus]
          exact h.unlocked u
        · rw [update_of_ne hut, hLt u hus]
          exact h.unlocked u
    · rw [hinum]
      exact .inl (.inr ⟨_, f, name, hf, hdir, hx⟩)

/-- The loop of `namex` ends as its elements say. It stops with a panic only if the inode table
has no two entries left. -/
theorem Walking.wp_namexLoop (hn : Navigable I S) (hfull : ∀ gs, Crowded S → E "iget: no inodes" gs)
    (parent : Bool) (names : List Name)
    (hgone : Missing I (S' s).inum names → ∀ gs, E "ilock: no type" gs) :
    wp (namexLoop parent names s) (Ended fs sb I S (resolve I parent names (S' s).inum)) E fs := by
  induction names generalizing fs S' s with
  | nil =>
    cases parent with
    | false => exact ⟨⟨S', h, rfl⟩, fun _ => ⟨rfl, rfl, rfl⟩⟩
    | true =>
      simp only [namexLoop, if_true, wp_bind, wp_pure]
      refine h.shows.wp_release h.held (one_nonneg s) (by rw [one_self]; decide) (hn.nonneg s)
        (h.unlocked s) fun I' v gs _ hvl hheld hrel _ hg => ?_
      refine h.fail (by rfl) ?_ hvl hheld hg
      exact h.strayed hn hrel
  | cons name rest ih =>
    simp only [namexLoop, wp_bind]
    refine h.wp_ilock hn (fun hno => hgone ⟨[], name, rest, _, rfl, rfl, hno⟩)
      fun gs f hf htype hg hlock => ?_
    have hL : Held S (one s) (update S' s (S' s).lock) :=
      h.held.retouch rfl rfl fun _ => rfl
    have hlk : (update S' s (S' s).lock s).locked = true := by
      rw [update_self]
      rfl
    have hinum : (update S' s (S' s).lock s).inum =
        (S' s).inum := by
      rw [update_self]
      rfl
    have hpos : (0 : Int) < one s s := by rw [one_self]; decide
    have hl : 0 < (update S' s (S' s).lock s).ref := by
      rw [hL.ref]
      have := hn.nonneg s
      omega
    simp only [wp_bind, wp_get, wp_ite, htype]
    refine ⟨fun ht => ?_, fun hno => ?_⟩
    · have hdir : f.type = .dir := Option.some.inj ht
      refine ⟨fun hlast => ?_, fun hlast => ?_⟩
      · simp only [wp_pure]
        refine wp_frame still_iunlock (hg.wp_iunlock hl hlk fun ks hk hopen => ?_)
        rw [update_idem, update_self] at hk
        refine ⟨⟨_, ⟨hk, h.held.retouch rfl rfl fun _ => rfl, fun t => ?_, ?_⟩, ?_⟩,
          fun d => (hlock d).trans (hopen.1 d)⟩
        · by_cases hts : t = s
          · subst hts
            rw [update_self]
            rfl
          · rw [update_of_ne hts]
            exact h.unlocked t
        · rw [update_self]
          exact h.origin
        · rw [update_self]
          simp only [resolve, hf, Option.bind_some, if_pos hdir, if_pos hlast]
          rfl
      · have hstep : resolve I parent (name :: rest) (S' s).inum =
            (f.child name).bind (resolve I parent rest) := by
          simp only [resolve, hf, Option.bind_some, if_pos hdir, if_neg hlast]
        refine hg.wp_dirlookup hl (by rw [update_self]; rfl) (by rw [hinum]; exact hf) hdir
          (hn.whole _ f hf hdir) name (fun hall => hfull _ fun t u ht hu => ?_) ?_ ?_
        · have hidle : ∀ w, (S w).ref = 0 → w = s := by
            intro w hw
            by_contra hne
            refine hall w ?_
            rw [hL.ref, hw]
            unfold one
            rw [if_neg hne]
            rfl
          rw [hidle t ht, hidle u hu]
        · intro hnone
          simp only [wp_bind, wp_pure]
          refine hg.wp_iunlockput hL (one_nonneg s) hpos (hn.nonneg s) hlk ?_
          intro I' v ks _ hvl hheld hrel _ hk
          rw [hinum] at hrel
          rw [update_idem] at hheld hk
          refine h.fail ?_ (.inl (h.kept hn hf hdir hrel)) hvl hheld hk
          rw [hstep, Node.child, hnone]
          rfl
        · intro x off t v ks hfound hgot hk hget
          have hx : f.child name = some x := by rw [Node.child, hfound]; rfl
          simp only [wp_bind]
          refine h.wp_next hn hf hdir hx hgot hk fun ls S'' hw hi hput => ?_
          rw [hstep, hx, Option.bind_some, ← hi]
          have hback : ∀ d, Still d fs ls := fun d => ((hlock d).trans (hget d)).trans (hput d)
          refine wp_post (ih hw fun hmiss => hgone ?_) fun r ms hr => hr.from hback
          obtain ⟨front, n, rest', y, rfl, hy, hgoneAt⟩ := hmiss
          refine ⟨name :: front, n, rest', y, rfl, ?_, hgoneAt⟩
          have hdown : down I (S' s).inum name = some x := by
            rw [down, hf, Option.bind_some, if_pos hdir, hx]
          change (down I (S' s).inum name).bind (fun z => walk I z front) = some y
          rw [hdown, ← hi]
          exact hy
    · simp only [wp_pure]
      have hndir : f.type ≠ .dir := fun he => hno (congrArg some he)
      refine hg.wp_iunlockput hL (one_nonneg s) hpos (hn.nonneg s) hlk ?_
      intro I' v ks _ hvl hheld hrel _ hk
      rw [hinum] at hrel
      rw [update_idem] at hheld hk
      refine h.fail ?_ (h.strayed hn hrel) hvl hheld hk
      simp only [resolve, hf, Option.bind_some, if_neg hndir]

end

def startOf (S : Fin NINODE → Slot) (cwd : Fin NINODE) (path : List UInt8) : Nat :=
  if path.head? = some SLASH then ROOTINO else (S cwd).inum

theorem Shows.wp_namex (h : Shows fs sb I S) (hn : Navigable I S) {cwd : Fin NINODE}
    (hcwd : 0 < (S cwd).ref) (path : List UInt8) (parent : Bool)
    (hfull : ∀ gs, Crowded S → E "iget: no inodes" gs)
    (hgone : Missing I (startOf S cwd path) (elems path) → ∀ gs, E "ilock: no type" gs) :
    wp (namex cwd path parent)
      (Ended fs sb I S (resolve I parent (elems path) (startOf S cwd path))) E fs := by
  unfold startOf at hgone ⊢
  unfold namex
  by_cases habs : path.head? = some SLASH
  · rw [if_pos habs] at hgone ⊢
    rw [if_pos habs, wp_bind]
    refine wp_frame (still_iget _)
      (h.wp_iget ROOTINO (fun hall => hfull _ fun t _ ht => absurd ht (hall t)) ?_)
    intro t v gs hg hgot hget
    have hinum : (update S t v t).inum = ROOTINO := by
      rw [update_self, hgot.inum]
    have hw : Walking gs sb I S (update S t v) t := by
      refine ⟨hg, hgot.held, fun u => ?_, .inl (.inl hinum)⟩
      by_cases hu : u = t
      · subst hu
        rw [update_self, hgot.locked]
        exact hn.unlocked u
      · rw [update_of_ne hu]
        exact hn.unlocked u
    have hloop := hw.wp_namexLoop (E := E) hn hfull parent (elems path) (by rw [hinum]; exact hgone)
    rw [hinum] at hloop
    exact wp_post hloop fun r ks hr => hr.from hget
  · rw [if_neg habs] at hgone ⊢
    rw [if_neg habs, wp_bind]
    refine wp_frame still_idup (h.wp_idup hcwd fun gs hg hdup => ?_)
    obtain ⟨v, hv⟩ : ∃ v : Slot, v = { S cwd with ref := (S cwd).ref + 1 } := ⟨_, rfl⟩
    rw [← hv] at hg
    have hinum : (update S cwd v cwd).inum = (S cwd).inum := by
      rw [update_self, hv]
    have hw : Walking gs sb I S (update S cwd v) cwd := by
      refine ⟨hg, ?_, fun u => ?_, .inr ⟨cwd, hcwd, hinum.symm⟩⟩
      · refine (Held.set (fun _ => by rw [hv]) fun _ hval => by rw [hv]; exact hval).congr
          fun u => ?_
        unfold one
        rw [hv]
        split <;> simp
      · by_cases hu : u = cwd
        · subst hu
          rw [update_self, hv]
          exact hn.unlocked u
        · rw [update_of_ne hu]
          exact hn.unlocked u
    have hloop := hw.wp_namexLoop (E := E) hn hfull parent (elems path) (by rw [hinum]; exact hgone)
    rw [hinum] at hloop
    exact wp_post hloop fun r ks hr => hr.from hdup

end Loop

/-! Paths. -/

def walkParent (I : Nat → Option Node) (d : Nat) (names : List Name) : Option (Nat × Name) :=
  names.getLast?.bind fun name => (walk I d names.dropLast).bind fun x =>
    (I x).bind fun f => if f.type = .dir then some (x, name) else none

theorem resolve_true_eq (I : Nat → Option Node) (names : List Name) (d : Nat) :
    resolve I true names d = walkParent I d names := by
  rcases List.eq_nil_or_concat names with rfl | ⟨front, name, rfl⟩
  · rfl
  · rw [List.concat_eq_append, resolve_true, walkParent, List.getLast?_concat, Option.bind_some,
      List.dropLast_concat]

def taken : Option (Fin NINODE) → Fin NINODE → Int
  | some ip => one ip
  | none => 0

/-- The panics of a lookup: the inode table has no two entries left, or the path goes through an
inode that is free. -/
def lookupPanics (fs : Fs) (cwd : Fin NINODE) (path : List UInt8) : String → Fs → Prop :=
  fun e _ => e = "iget: no inodes" ∧ Crowded fs.slot ∨
    e = "ilock: no type" ∧ Missing fs.node (startOf fs.slot cwd path) (elems path)

/-- Path resolution follows the components of the path. -/
theorem path_follows_components {fs : Fs} (h : WellFormed fs) (hn : Navigable fs.node fs.slot)
    {cwd : Fin NINODE} (hcwd : fs.live cwd) (path : List UInt8) :
    elems path = ((path.splitOn SLASH).filter (· ≠ [])).map (·.take DIRSIZ) ∧
    (∀ parent ip, namexFrom parent (path.length + 1) path ip = namexLoop parent (elems path) ip) ∧
    wp (namei cwd path) (fun r gs =>
      r.map (fun ip => (gs.slot ip).inum) = walk fs.node (startOf fs.slot cwd path) (elems path) ∧
      ∀ t, (gs.slot t).ref = (fs.slot t).ref + taken r t) (lookupPanics fs cwd path) fs ∧
    (walk fs.node (startOf fs.slot cwd path) (elems path) = none ↔
      ∃ front name rest x, elems path = front ++ name :: rest ∧
        walk fs.node (startOf fs.slot cwd path) front = some x ∧
        ∀ f, fs.node x = some f → f.type = .dir → f.child name = none) ∧
    wp (nameiparent cwd path) (fun r gs =>
      r.map (fun p => ((gs.slot p.1).inum, p.2)) =
        walkParent fs.node (startOf fs.slot cwd path) (elems path) ∧
      ∀ t, (gs.slot t).ref = (fs.slot t).ref + taken (r.map Prod.fst) t)
      (lookupPanics fs cwd path) fs := by
  have hx : ∀ parent, wp (namex cwd path parent) (Ended fs fs.sb fs.node fs.slot
      (resolve fs.node parent (elems path) (startOf fs.slot cwd path))) (lookupPanics fs cwd path)
      fs := fun parent => h.shows.wp_namex hn hcwd path parent (fun _ hc => .inl ⟨rfl, hc⟩)
        fun hm _ => .inr ⟨rfl, hm⟩
  refine ⟨elems_eq path, fun parent ip => namexFrom_eq parent _ path ip (Nat.lt_succ_self _),
    ?_, ?_, ?_⟩
  · simp only [namei, wp_bind, wp_pure]
    refine wp_post (hx false) fun r gs hr => ?_
    rw [resolve_false] at hr
    cases r with
    | none =>
      obtain ⟨hnone, I', S', hs, hheld, -⟩ := hr
      refine ⟨(Option.map_eq_none_iff.mp hnone).symm, fun t => ?_⟩
      rw [hs.slot]
      exact hheld.ref t
    | some p =>
      obtain ⟨ip, name⟩ := p
      obtain ⟨⟨S', hw, hsome⟩, -⟩ := hr
      obtain ⟨x, hx, he⟩ := Option.map_eq_some_iff.mp hsome
      simp only [Prod.mk.injEq] at he
      rw [hw.shows.slot, hx, he.1]
      exact ⟨rfl, hw.held.ref⟩
  · rw [walk_eq_none]
    refine exists_congr fun front => exists_congr fun name => exists_congr fun rest =>
      exists_congr fun x => and_congr_right fun _ => and_congr_right fun _ => ?_
    unfold down
    cases fs.node x with
    | none => simp
    | some f =>
      by_cases hdir : f.type = .dir
      · simp [hdir]
      · simp [hdir]
  · refine wp_post (hx true) fun r gs hr => ?_
    rw [resolve_true_eq] at hr
    cases r with
    | none =>
      obtain ⟨hnone, I', S', hs, hheld, -⟩ := hr
      refine ⟨hnone.symm, fun t => ?_⟩
      rw [hs.slot]
      exact hheld.ref t
    | some p =>
      obtain ⟨ip, name⟩ := p
      obtain ⟨⟨S', hw, hsome⟩, -⟩ := hr
      rw [hw.shows.slot, hsome]
      exact ⟨rfl, hw.held.ref⟩

/-- Between calls: no inode is locked, what is in use is allocated, and an inode without links
is there only because it is in use. Directories hold whole entries, and link counts are values of
a `short`. -/
structure AtRest (I : Nat → Option Node) (S : Fin NINODE → Slot) : Prop where
  whole : ∀ d f, I d = some f → f.type = .dir → DESIZE ∣ f.bytes.length
  orphan : ∀ x f, I x = some f → f.nlink = 0 → InUse S x
  used : ∀ x, InUse S x → I x ≠ none
  counted : ∀ x f, I x = some f → -32768 ≤ f.nlink ∧ f.nlink ≤ 32767
  nonneg : ∀ t, 0 ≤ (S t).ref
  unlocked : ∀ t, (S t).locked = false

theorem Ready.atRest {fs : Fs} (h : Ready fs)
    (hw : ∀ d f, fs.node d = some f → f.type = .dir → DESIZE ∣ f.bytes.length)
    (hc : ∀ x f, fs.node x = some f → -32768 ≤ f.nlink ∧ f.nlink ≤ 32767)
    (hu : ∀ t, (fs.slot t).locked = false) : AtRest fs.node fs.slot := by
  refine ⟨hw, fun x f hf h0 => ?_, ?_, hc, h.nonneg, hu⟩
  · obtain ⟨hty, -, -, hnl, -⟩ := node_eq_some hf
    have hne : (fs.dinode x).type ≠ none := by
      rw [hty]
      exact Option.some_ne_none _
    obtain ⟨t, ht, hi⟩ := h.orphan x (fun hk => hne (kind_none.mp hk))
      (by rw [tree_nlink hne, hnl, h0])
    exact ⟨t, ht, hi⟩
  · rintro x ⟨t, ht, rfl⟩
    obtain ⟨f, hf⟩ := h.wf.shows.cached ht (h.valid t ht)
    rw [hf]
    exact Option.some_ne_none f

theorem AtRest.navigable (h : AtRest I S) : Navigable I S :=
  ⟨h.whole, fun x f _ hf _ h0 => h.orphan x f hf h0, h.nonneg, h.unlocked⟩

/-- Of the first `n` inodes the directories hold whole entries and the link counts are values of a
`short`; no inode is locked. -/
def Fs.Orderly (fs : Fs) (n : Nat) : Prop :=
  (∀ d, d < n → (fs.dinode d).type = some .dir → DESIZE ∣ (fs.dinode d).size) ∧
  (∀ d, d < n → -32768 ≤ (fs.dinode d).nlink ∧ (fs.dinode d).nlink ≤ 32767) ∧
  ∀ t, (fs.slot t).locked = false

instance (fs : Fs) (n : Nat) : Decidable (fs.Orderly n) := inferInstanceAs (Decidable (_ ∧ _ ∧ _))

theorem Ready.atRest_of_orderly {fs : Fs} {n : Nat} (h : Ready fs) (ho : fs.Orderly n)
    (hb : ∀ i, (fs.dinode i).type ≠ none → i < n) : AtRest fs.node fs.slot := by
  obtain ⟨hwhole, hcount, hlock⟩ := ho
  have hlt : ∀ {d f}, fs.node d = some f → d < n := by
    intro d f hf
    refine hb d ?_
    rw [(node_eq_some hf).1]
    exact Option.some_ne_none _
  refine h.atRest (fun d f hf hdir => ?_) (fun d f hf => ?_) hlock
  · obtain ⟨hty, -, -, -, hbytes⟩ := node_eq_some hf
    rw [← hbytes, file_length]
    exact hwhole d (hlt hf) (hty.trans (congrArg some hdir))
  · obtain ⟨-, -, -, hnl, -⟩ := node_eq_some hf
    rw [← hnl]
    exact hcount d (hlt hf)

theorem atRest_of_run {z : Sys} {calls : List PathCall}
    (hal : Run.Along Sys.step Meets rootSys calls) (hrun : Run.exec Sys.step rootSys calls = some z)
    (hord : z.fs.Orderly z.fs.sb.ninodes) : WellFormed z.fs ∧ AtRest z.fs.node z.fs.slot := by
  have hok := (rootSys_ok.run hal hrun).sound
  exact ⟨hok.ready.wf, hok.ready.atRest_of_orderly hord fun i hi =>
    (hok.numbered.alloc i fun hk => hi (kind_none.mp hk)).2⟩

theorem f_noNul : 0 ∉ ascii "f" := by decide

theorem f_short : (ascii "f").length < MAXPATH := by decide

def oneFile : List PathCall := [.openFile 1 (userPath "f" f_noNul f_short) 0x202, .close 1 0]

section
attribute [local irreducible] Run.exec Run.Along

theorem oneFile_run : ∃ z, Run.exec Sys.step rootSys oneFile = some z ∧ z.fs.live 0 ∧
    WellFormed z.fs ∧ Navigable z.fs.node z.fs.slot ∧ startOf z.fs.slot 0 (ascii "f/x") = ROOTINO ∧
    walk z.fs.node ROOTINO [ascii "f"] = some 2 ∧
    (nameiparent 0 (ascii "f/x") z.fs).1.toOption = some none := by
  have hal : Run.Along Sys.step Meets rootSys oneFile := by decide +kernel
  have hrun : (Run.exec Sys.step rootSys oneFile).map (fun z => decide (z.fs.live 0 ∧
      z.fs.Orderly z.fs.sb.ninodes ∧ startOf z.fs.slot 0 (ascii "f/x") = ROOTINO ∧
      walk z.fs.node ROOTINO [ascii "f"] = some 2 ∧
      (nameiparent 0 (ascii "f/x") z.fs).1.toOption = some none)) = some true := by decide +kernel
  obtain ⟨z, hz, hd⟩ := Option.map_eq_some_iff.mp hrun
  obtain ⟨hlive, hord, hrest⟩ := of_decide_eq_true hd
  obtain ⟨hwf, hquiet⟩ := atRest_of_run hal hz hord
  exact ⟨z, hz, hlive, hwf, hquiet.navigable, hrest⟩

theorem path_follows_components_oneFile : ∃ fs, WellFormed fs ∧ Navigable fs.node fs.slot ∧
    fs.live 0 ∧ wp (namei 0 (ascii "f")) (fun r gs => r.map (fun ip => (gs.slot ip).inum) = some 2 ∧
      ∀ t, (gs.slot t).ref = (fs.slot t).ref + taken r t) (lookupPanics fs 0 (ascii "f")) fs := by
  obtain ⟨z, -, hl, hw, hn, hstart, hwalk, -⟩ := oneFile_run
  refine ⟨z.fs, hw, hn, hl, ?_⟩
  have hname := (path_follows_components hw hn hl (ascii "f")).2.2.1
  have hstart' : startOf z.fs.slot 0 (ascii "f") = ROOTINO := hstart
  have helems : elems (ascii "f") = [ascii "f"] := by decide +kernel
  rwa [hstart', helems, hwalk] at hname

/-- The fold over all components but the last is a file here, and `nameiparent` returns 0. -/
theorem nameiparent_through_file : ∃ fs gs, WellFormed fs ∧ Navigable fs.node fs.slot ∧
    fs.live 0 ∧ elems (ascii "f/x") = [ascii "f"] ++ [ascii "x"] ∧
    walk fs.node (startOf fs.slot 0 (ascii "f/x")) [ascii "f"] = some 2 ∧
    nameiparent 0 (ascii "f/x") fs = (.ok none, gs) := by
  obtain ⟨z, -, hl, hw, hn, hstart, hwalk, hret⟩ := oneFile_run
  refine ⟨z.fs, (nameiparent 0 (ascii "f/x") z.fs).2, hw, hn, hl, by decide +kernel,
    by rw [hstart]; exact hwalk, ?_⟩
  exact Prod.ext (toOption_eq_some hret) rfl

end

end Xv6Audit.FileSys
