import Xv6Audit.File.Counts
import Xv6Audit.Fs.Holders

/-! References to the inode table of `kernel/fs.c`, in the calls of several processes at once. A
step is a critical section under `itable.lock` with the private work before it. What the
directories name and which inodes are free is not decided here: a call comes with the answers of
the layers below. All inodes are on `ROOTDEV`. -/
namespace Xv6Audit.FileSys
open Function

open Prog
open Ftable (Files Released)

/-- What a call does with references: `iget`, `idup(cwd)`, `iput` of the one got `k` before the
last, and what takes over the last one. -/
inductive RefOp where
  | get (inum : Nat)
  | dup
  | put (k : Nat)
  | sysOpen (omode : Nat) (type : InodeType) (major : Int)
  | helperOpen (omode : Nat) (type : InodeType) (major : Int)
  | chdir
deriving DecidableEq

/-- `namex`: the inodes that `dirlookup` finds, one after the other, and whether it gets to the
end of the path. -/
structure Walk where
  absolute : Bool
  path : List Nat
  found : Bool

def Walk.ops (w : Walk) (next : List RefOp) : List RefOp :=
  (if w.absolute then .get ROOTINO else .dup) ::
    (w.path.flatMap fun inum => [.get inum, .put 1]) ++ if w.found then next else []

/-- `create`: what `dirlookup` finds under the name and whether `create` may return it, or what
`ialloc` finds, what a `dirlink` finds in its way, and whether all of them succeed. -/
structure Creation where
  parent : Walk
  entry : Option Nat
  inum : Option Nat
  clash : Option Nat
  good : Bool

def Creation.ops (c : Creation) (next : List RefOp) : List RefOp :=
  c.parent.ops <|
    match c.entry, c.inum, c.clash with
    | some inum, _, _ => .get inum :: .put 1 :: if c.good then next else []
    | none, none, _ => []
    | none, some inum, some other => [.get inum, .get other, .put 0]
    | none, some inum, none => .get inum :: if c.good then .put 1 :: next else []

inductive Lookup where
  | namei (w : Walk)
  | create (c : Creation)

def Lookup.ops : Lookup → List RefOp → List RefOp
  | .namei w, next => w.ops next
  | .create c, next => c.ops next

/-- The calls that look up paths: the two `open`s, `sys_chdir`, `sys_mkdir` or `sys_mknod`,
`sys_link`, `sys_unlink`, and those that put the inode again, as `exec` does. -/
inductive PathUse where
  | sysOpen (l : Lookup) (omode : Nat) (type : InodeType) (major : Int)
  | helperOpen (l : Lookup) (omode : Nat) (type : InodeType) (major : Int)
  | chdir (w : Walk) (dir : Bool)
  | make (c : Creation)
  | link (old : Walk) (dir : Bool) (new : Walk) (clash : Option Nat)
  | unlink (parent : Walk) (entry : Option Nat) (removed : Bool)
  | look (w : Walk)

def PathUse.ops : PathUse → List RefOp
  | .sysOpen l omode type major => l.ops [.sysOpen omode type major]
  | .helperOpen l omode type major => l.ops [.helperOpen omode type major]
  | .chdir w dir => w.ops (if dir then [.chdir] else [])
  | .make c => c.ops []
  | .link old dir new clash => old.ops <| if dir then [] else new.ops <|
      match clash with
      | some inum => [.get inum, .put 0]
      | none => []
  | .unlink parent entry removed => parent.ops <|
      match entry with
      | some inum => .get inum :: if removed then [.put 1] else []
      | none => []
  | .look w => w.ops []

/-- Where a process is. `call`: in a call that has the references `hands`, the last one first,
and has `ops` to do. `puts`: inodes to be put before the call ends. `closing`: in `exit`, before
descriptor `fd`. -/
inductive Phase where
  | user
  | call (hands : List (Fin NINODE)) (ops : List RefOp)
  | puts (ips : List (Fin NINODE))
  | closing (fd : Nat) (ips : List (Fin NINODE))

structure Entry where
  inum : Nat
  ref : Nat
deriving DecidableEq

structure Lookups where
  entry : Fin NINODE → Entry
  files : Files
  cwd : Fin NPROC → Option (Fin NINODE)
  phase : Fin NPROC → Phase

inductive LookAct where
  | call (p : Fin NPROC) (c : PathUse)
  | go (p : Fin NPROC)
  | dup (p : Fin NPROC) (fd : Int)
  | close (p : Fin NPROC) (fd : Int)
  | fork (p np : Fin NPROC)
  | exit (p : Fin NPROC)

namespace Lookups

def move (s : Lookups) (p : Fin NPROC) (x : Phase) : Lookups :=
  { s with phase := update s.phase p x }

def setEntry (s : Lookups) (i : Fin NINODE) (e : Entry) : Lookups :=
  { s with entry := update s.entry i e }

def inTable? (s : Lookups) (inum : Nat) : Option (Fin NINODE) :=
  (List.finRange NINODE).find? fun i => 0 < (s.entry i).ref ∧ (s.entry i).inum = inum

def empty? (s : Lookups) : Option (Fin NINODE) :=
  (List.finRange NINODE).find? fun i => (s.entry i).ref = 0

def idup (s : Lookups) (i : Fin NINODE) : Lookups :=
  s.setEntry i { s.entry i with ref := (s.entry i).ref + 1 }

def iget (s : Lookups) (inum : Nat) : Except Halt (Fin NINODE × Lookups) :=
  match s.inTable? inum with
  | some i => .ok (i, s.idup i)
  | none =>
    match s.empty? with
    | some i => .ok (i, s.setEntry i ⟨inum, 1⟩)
    | none => .error (.panic "iget: no inodes")

def iput (s : Lookups) (i : Fin NINODE) : Lookups :=
  s.setEntry i { s.entry i with ref := (s.entry i).ref - 1 }

def get (s : Lookups) (p : Fin NPROC) (inum : Nat) (next : Fin NINODE → Phase) :
    Except Halt (Lookups) :=
  (s.iget inum).map fun r => r.2.move p (next r.1)

def inodes : Released → List (Fin NINODE)
  | .inode ip => [Fin.ofNat NINODE ip]
  | .page _ | .nothing => []

def onTable {α : Type} (s : Lookups) (p : Fin NPROC) (c : Ftable.FileProg α)
    (next : α → Phase) : Except Halt (Lookups) :=
  match c s.files with
  | (.ok a, t) => .ok ({ s with files := t }.move p (next a))
  | (.error e, _) => .error (.panic e)

def refOp (s : Lookups) (p : Fin NPROC) (hands : List (Fin NINODE)) (ops : List RefOp) :
    RefOp → Except Halt Lookups
  | .get inum => s.get p inum fun ip => .call (ip :: hands) ops
  | .dup =>
    match s.cwd p with
    | some cwd => .ok ((s.idup cwd).move p (.call (cwd :: hands) ops))
    | none => .error .blocked
  | .put k =>
    match hands[k]? with
    | some ip => .ok ((s.iput ip).move p (.call (hands.eraseIdx k) ops))
    | none => .error .blocked
  | .sysOpen omode type major =>
    match hands with
    | [ip] => s.onTable p (Ftable.sysOpen p (some ⟨ip.val, type, major⟩) omode)
        fun r => .puts (r.2.flatMap inodes)
    | _ => .error .blocked
  | .helperOpen omode type major =>
    match hands with
    | [ip] => s.onTable p (Ftable.helperOpen p (some ⟨ip.val, type, major⟩) omode)
        fun r => .puts (r.2.flatMap inodes)
    | _ => .error .blocked
  | .chdir =>
    match hands, s.cwd p with
    | [ip], some old => .ok { (s.iput old).move p .user with cwd := update s.cwd p (some ip) }
    | _, _ => .error .blocked

def go (s : Lookups) (p : Fin NPROC) : Except Halt Lookups :=
  match s.phase p with
  | .user => .error .blocked
  | .call hands (op :: ops) => s.refOp p hands ops op
  | .call hands [] => .ok (s.move p (.puts hands))
  | .puts [] => .ok (s.move p .user)
  | .puts (ip :: ips) => .ok ((s.iput ip).move p (.puts ips))
  | .closing fd (ip :: ips) => .ok ((s.iput ip).move p (.closing fd ips))
  | .closing fd [] =>
    if fd < NOFILE then
      s.onTable p (Ftable.exitFd p (Fin.ofNat NOFILE fd)) fun r => .closing (fd + 1) (inodes r)
    else
      match s.cwd p with
      | some old => .ok { (s.iput old).move p .user with cwd := update s.cwd p none }
      | none => .error .blocked

def act (s : Lookups) : LookAct → Except Halt (Lookups)
  | .call p c =>
    match s.phase p, s.cwd p with
    | .user, some _ => .ok (s.move p (.call [] c.ops))
    | _, _ => .error .blocked
  | .go p => s.go p
  | .dup p fd =>
    match s.phase p, s.cwd p with
    | .user, some _ => s.onTable p (Ftable.sysDup p fd) fun _ => .user
    | _, _ => .error .blocked
  | .close p fd =>
    match s.phase p, s.cwd p with
    | .user, some _ => s.onTable p (Ftable.sysClose p fd) fun r => .puts (inodes r.2)
    | _, _ => .error .blocked
  | .fork p np =>
    match s.phase p, s.cwd p, s.cwd np with
    | .user, some cwd, none => (s.onTable p (Ftable.forkFiles p np) fun _ => .user).map fun t =>
        { t.idup cwd with cwd := update s.cwd np (some cwd) }
    | _, _, _ => .error .blocked
  | .exit p =>
    match s.phase p, s.cwd p with
    | .user, some _ =>
      if p = Ftable.initproc then .error (.panic "init exiting") else .ok (s.move p (.closing 0 []))
    | _, _ => .error .blocked

def boot : Lookups where
  entry := update (fun _ => ⟨0, 0⟩) 0 ⟨ROOTINO, 1⟩
  files := Ftable.bootFiles
  cwd := update (fun _ => none) Ftable.initproc (some 0)
  phase := fun _ => .user

end Lookups

def Phase.hands : Phase → List (Fin NINODE)
  | .user => []
  | .call hands _ => hands
  | .puts ips => ips
  | .closing _ ips => ips

namespace Lookups

def references (s : Lookups) : Nat :=
  (Finset.univ.filter fun i => 0 < (s.files.file i).ref ∧
    ((s.files.file i).type = .inode ∨ (s.files.file i).type = .device)).card +
  (Finset.univ.filter fun p => (s.cwd p).isSome = true).card +
  ∑ p, (s.phase p).hands.length

def wants (s : Lookups) : LookAct → Option Nat
  | .go p =>
    match s.phase p with
    | .call _ (.get inum :: _) => some inum
    | _ => none
  | .call _ _ | .dup _ _ | .close _ _ | .fork _ _ | .exit _ => none

/-- When `iget` is called for an inode that is not in the table, fewer references than entries
are around. -/
def Roomy (s : Lookups) (a : LookAct) : Prop :=
  ∀ inum ∈ s.wants a, s.inTable? inum = none → s.references < NINODE

instance (s : Lookups) (a : LookAct) : Decidable (s.Roomy a) :=
  decidable_of_iff ((s.wants a).all
    (fun inum => decide (s.inTable? inum = none → s.references < NINODE)) = true) <| by
    cases h : s.wants a with
    | none => simp [Roomy, h]
    | some inum =>
      simp only [Roomy, h, Option.all_some, decide_eq_true_eq, Option.mem_some_iff, forall_eq']

def hand (s : Lookups) (i : Fin NINODE) : Int := ∑ p, ((s.phase p).hands.count i : Int)

structure Exactly (s : Lookups) : Prop where
  refs : ∀ i, ((s.entry i).ref : Int) =
    held s.files i + ∑ p, cwdWeight (s.cwd p) i + s.hand i
  cleared : Cleared s.files

/-! With fewer references than entries, one is empty. -/

theorem sum_weight (f : Ftable.File) :
    ∑ i, weight f i = if 0 < f.ref ∧ (f.type = .inode ∨ f.type = .device) then 1 else 0 := by
  by_cases hf : 0 < f.ref ∧ (f.type = .inode ∨ f.type = .device)
  · rw [if_pos hf]
    simp only [weight_inode hf.1 hf.2, one, Finset.sum_ite_eq', Finset.mem_univ, if_true]
  · rw [if_neg hf]
    exact Finset.sum_eq_zero fun i _ => if_neg fun hc => hf ⟨hc.1, hc.2.1⟩

theorem sum_held (F : Files) : ∑ i, held F i =
    (Finset.univ.filter fun i => 0 < (F.file i).ref ∧
      ((F.file i).type = .inode ∨ (F.file i).type = .device)).card := by
  unfold held
  rw [Finset.sum_comm, Finset.card_filter]
  push_cast
  exact Finset.sum_congr rfl fun i _ => sum_weight _

theorem sum_cwds (cwd : Fin NPROC → Option (Fin NINODE)) :
    ∑ i, ∑ p, cwdWeight (cwd p) i = (Finset.univ.filter fun p => (cwd p).isSome = true).card := by
  rw [Finset.sum_comm, Finset.card_filter]
  push_cast
  refine Finset.sum_congr rfl fun p _ => ?_
  cases cwd p with
  | none | some c => simp [cwdWeight]

theorem sum_count (l : List (Fin NINODE)) : ∑ i, (l.count i : Int) = l.length := by
  induction l with
  | nil => simp
  | cons x l ih =>
    simp only [List.count_cons, List.length_cons]
    push_cast
    rw [Finset.sum_add_distrib, ih]
    simp

theorem Exactly.sum_refs {s : Lookups} (h : s.Exactly) :
    ∑ i, ((s.entry i).ref : Int) = s.references := by
  simp only [h.refs, Finset.sum_add_distrib]
  rw [sum_held, sum_cwds]
  unfold hand references
  rw [Finset.sum_comm]
  simp only [sum_count]
  push_cast
  rfl

theorem Exactly.spare {s : Lookups} (h : s.Exactly) (hr : s.references < NINODE) :
    s.empty? ≠ none := by
  unfold empty?
  rw [Ne, List.find?_eq_none]
  intro hall
  have hone : ∀ i, (1 : Int) ≤ (s.entry i).ref := fun i => by
    have hi := hall i (List.mem_finRange i)
    simp only [decide_eq_true_eq] at hi
    omega
  have hsum : ∑ _i : Fin NINODE, (1 : Int) ≤ ∑ i, ((s.entry i).ref : Int) :=
    Finset.sum_le_sum fun i _ => hone i
  rw [h.sum_refs] at hsum
  simp only [Finset.sum_const, Finset.card_univ, Fintype.card_fin, nsmul_eq_mul, mul_one] at hsum
  omega

variable {inum : Nat}

theorem Exactly.iget_ok {s : Lookups} (h : s.Exactly)
    (hr : s.inTable? inum = none → s.references < NINODE) (e : Halt) :
    s.iget inum ≠ .error e := by
  unfold iget
  cases ht : s.inTable? inum with
  | some i => simp
  | none =>
    obtain ⟨i, hi⟩ := Option.ne_none_iff_exists'.mp (h.spare (hr ht))
    simp [hi]

/-! Steps. -/

section Steps
attribute [local irreducible] Ftable.forkFiles
variable {s t : Lookups} {p q : Fin NPROC}

theorem count_cons_one (i ip : Fin NINODE) (l : List (Fin NINODE)) :
    ((ip :: l).count i : Int) = l.count i + one ip i := by
  rw [List.count_cons]
  unfold one
  by_cases h : i = ip
  · simp [h]
  · simp [h, Ne.symm h]

theorem count_one (i ip : Fin NINODE) : (([ip] : List (Fin NINODE)).count i : Int) = one ip i := by
  rw [count_cons_one]
  exact Int.zero_add _

theorem count_inodes (i : Fin NINODE) (r : Released) : ((inodes r).count i : Int) = handed r i := by
  cases r with
  | inode ip => simp [inodes, handed, count_cons_one]
  | page pi | nothing => rfl

theorem count_flatMap (i : Fin NINODE) (rs : List Released) :
    ((rs.flatMap inodes).count i : Int) = handedAll rs i := by
  induction rs with
  | nil => rfl
  | cons r rs ih =>
    rw [List.flatMap_cons, List.count_append, handedAll, Pi.add_apply, ← ih, ← count_inodes]
    push_cast
    rfl

variable {x : Phase} {i : Fin NINODE}

theorem Exactly.next (h : s.Exactly) {c : Option (Fin NINODE)}
    (ht : t.cwd = update s.cwd q c) (hx : t.phase = update s.phase p x)
    (hc : Cleared t.files)
    (hr : ∀ i, ((t.entry i).ref : Int) - (s.entry i).ref = held t.files i - held s.files i +
      (cwdWeight c i - cwdWeight (s.cwd q) i) +
      ((x.hands.count i : Int) - (s.phase p).hands.count i)) : t.Exactly := by
  refine ⟨fun i => ?_, hc⟩
  have h0 := h.refs i
  have h1 := Shared.sum_update s.cwd q c fun c => cwdWeight c i
  have h2 := Shared.sum_update s.phase p x fun x => (x.hands.count i : Int)
  have h3 := hr i
  unfold hand at h0 ⊢
  rw [ht, hx]
  omega

theorem Exactly.step (h : s.Exactly) (ht : t.cwd = s.cwd)
    (hx : t.phase = update s.phase p x) (hc : Cleared t.files)
    (hr : ∀ i, ((t.entry i).ref : Int) - (s.entry i).ref = held t.files i - held s.files i +
      ((x.hands.count i : Int) - (s.phase p).hands.count i)) : t.Exactly := by
  refine h.next (q := p) (c := s.cwd p) (by rw [ht, update_eq_self]) hx hc fun i => ?_
  rw [hr i]
  omega

theorem idup_ref (s : Lookups) (j i : Fin NINODE) :
    (((s.idup j).entry i).ref : Int) = (s.entry i).ref + one j i := by
  unfold one idup setEntry
  by_cases h : i = j
  · simp [h]
  · simp [h]

theorem iput_ref {j : Fin NINODE} (hj : 1 ≤ (s.entry j).ref) (i : Fin NINODE) :
    (((s.iput j).entry i).ref : Int) = (s.entry i).ref - one j i := by
  unfold one iput setEntry
  by_cases h : i = j
  · subst h
    simp only [update_self, if_true]
    omega
  · simp [h]

theorem iget_spec (hs : s.iget inum = .ok (i, t)) :
    t.files = s.files ∧ t.cwd = s.cwd ∧ t.phase = s.phase ∧
    ∀ j, ((t.entry j).ref : Int) = (s.entry j).ref + one i j := by
  unfold iget at hs
  cases hin : s.inTable? inum with
  | some k =>
    rw [hin] at hs
    cases hs
    exact ⟨rfl, rfl, rfl, idup_ref s i⟩
  | none =>
    rw [hin] at hs
    cases he : s.empty? with
    | none => simp [he] at hs
    | some k =>
      simp only [he] at hs
      cases hs
      have hz : (s.entry i).ref = 0 := by simpa using List.find?_some he
      refine ⟨rfl, rfl, rfl, fun j => ?_⟩
      unfold one setEntry
      by_cases hj : j = i
      · simp [hj, hz]
      · simp [hj]

theorem Exactly.pos_of_hand (h : s.Exactly) (hi : i ∈ (s.phase p).hands) :
    1 ≤ (s.entry i).ref := by
  have h0 := h.refs i
  have h1 : ((s.phase p).hands.count i : Int) ≤ s.hand i :=
    Finset.single_le_sum (f := fun p => ((s.phase p).hands.count i : Int))
      (fun _ _ => Int.natCast_nonneg _) (Finset.mem_univ p)
  have h2 := List.count_pos_iff.mpr hi
  have h3 := held_nonneg s.files i
  have h4 : 0 ≤ ∑ p, cwdWeight (s.cwd p) i := Finset.sum_nonneg fun _ _ => cwdWeight_nonneg _ _
  omega

theorem Exactly.pos_of_cwd (h : s.Exactly) (hi : s.cwd p = some i) :
    1 ≤ (s.entry i).ref := by
  have h0 := h.refs i
  have h1 : cwdWeight (s.cwd p) i ≤ ∑ p, cwdWeight (s.cwd p) i :=
    Finset.single_le_sum (f := fun p => cwdWeight (s.cwd p) i)
      (fun _ _ => cwdWeight_nonneg _ _) (Finset.mem_univ p)
  have h2 : cwdWeight (s.cwd p) i = 1 := by simp [cwdWeight, hi]
  have h3 := held_nonneg s.files i
  have h4 : 0 ≤ s.hand i := Finset.sum_nonneg fun _ _ => Int.natCast_nonneg _
  omega

def Served {α : Type} (x : Except Halt α) : Prop := x ≠ .error (.panic "iget: no inodes")

theorem Exactly.get (h : s.Exactly) {next : Fin NINODE → Phase}
    (hn : ∀ i j, ((next i).hands.count j : Int) = (s.phase p).hands.count j + one i j)
    (hr : s.inTable? inum = none → s.references < NINODE) :
    Served (s.get p inum next) ∧ ∀ t, s.get p inum next = .ok t → t.Exactly := by
  unfold Lookups.get
  cases hg : s.iget inum with
  | error e => exact absurd hg (h.iget_ok hr e)
  | ok r =>
    obtain ⟨i, u⟩ := r
    obtain ⟨hf, hc, hp, href⟩ := iget_spec hg
    refine ⟨by simp [Served, Except.map], fun t ht => ?_⟩
    cases ht
    refine h.step (p := p) (x := next i) hc (by rw [← hp]; rfl) (hf.symm ▸ h.cleared) fun j => ?_
    have h1 := href j
    have h2 := hn i j
    change ((u.entry j).ref : Int) - _ = held u.files j - _ + _
    rw [hf]
    omega

theorem Exactly.put (h : s.Exactly) (hi : i ∈ (s.phase p).hands)
    (hx : ∀ j, ((s.phase p).hands.count j : Int) = x.hands.count j + one i j) :
    ((s.iput i).move p x).Exactly := by
  refine h.step (p := p) (x := x) rfl rfl h.cleared fun j => ?_
  have h1 := iput_ref (h.pos_of_hand hi) j
  have h2 := hx j
  change (((s.iput i).entry j).ref : Int) - _ = held s.files j - held s.files j + _
  omega

theorem Exactly.goOn (h : s.Exactly) (hx : x.hands = (s.phase p).hands) :
    (s.move p x).Exactly := by
  refine h.step (p := p) (x := x) rfl rfl h.cleared fun j => ?_
  rw [hx]
  change ((s.entry j).ref : Int) - _ = held s.files j - _ + _
  omega

theorem Exactly.onTable {α : Type} (h : s.Exactly) {c : Ftable.FileProg α} {next : α → Phase}
    (hw : wp c (fun a G => Cleared G ∧ ∀ i, held G i + ((next a).hands.count i : Int) =
      held s.files i + (s.phase p).hands.count i) (fun e _ => e ≠ "iget: no inodes") s.files) :
    Served (s.onTable p c next) ∧ ∀ t, s.onTable p c next = .ok t → t.Exactly := by
  unfold wp at hw
  unfold Lookups.onTable
  split at hw
  · rename_i a G hc
    rw [hc]
    refine ⟨by simp [Served], fun t ht => ?_⟩
    cases ht
    refine h.step (p := p) (x := next a) rfl rfl hw.1 fun j => ?_
    have hj := hw.2 j
    change ((s.entry j).ref : Int) - _ = held G j - _ + _
    omega
  · rename_i e G hc
    rw [hc]
    refine ⟨fun he => ?_, fun t ht => by cases ht⟩
    cases he
    exact hw rfl

def Good (x : Except Halt (Lookups)) : Prop := Served x ∧ ∀ t, x = .ok t → t.Exactly

theorem good_ok (h : t.Exactly) : Good (.ok t) := by
  refine ⟨by simp [Served], fun u hu => ?_⟩
  cases hu
  exact h

theorem good_blocked : Good (.error .blocked : Except Halt (Lookups)) :=
  ⟨by simp [Served], fun _ ht => by cases ht⟩

theorem Exactly.refOp (h : s.Exactly) {hands : List (Fin NINODE)} {op : RefOp} {ops : List RefOp}
    (hp : s.phase p = .call hands (op :: ops)) (hr : s.Roomy (.go p)) :
    Good (s.refOp p hands ops op) := by
  have hhands : (s.phase p).hands = hands := by rw [hp]; rfl
  cases op with
  | get inum =>
    change Good (s.get p inum fun ip => .call (ip :: hands) ops)
    refine h.get (fun i j => ?_) (hr inum (by simp [wants, hp]))
    rw [hhands]
    exact count_cons_one j i hands
  | dup =>
    simp only [Lookups.refOp]
    cases hc : s.cwd p with
    | none => exact good_blocked
    | some cwd =>
      refine good_ok (h.step (p := p) (x := .call (cwd :: hands) ops) rfl rfl h.cleared fun i => ?_)
      have h1 := idup_ref s cwd i
      change (((s.idup cwd).entry i).ref : Int) - _ = held s.files i - held s.files i + _
      rw [hhands]
      simp only [Phase.hands, count_cons_one]
      omega
  | put k =>
    simp only [Lookups.refOp]
    cases hk : hands[k]? with
    | none => exact good_blocked
    | some ip =>
      obtain ⟨hlt, hget⟩ := List.getElem?_eq_some_iff.mp hk
      have hmem : ip ∈ (s.phase p).hands := by
        rw [hhands, ← hget]
        exact List.getElem_mem hlt
      refine good_ok (h.put hmem fun j => ?_)
      rw [hhands, ← (List.getElem_cons_eraseIdx_perm hlt).count_eq j, hget]
      exact count_cons_one j ip _
  | sysOpen omode type major =>
    simp only [Lookups.refOp]
    split
    · rename_i ip
      refine h.onTable (wp_sysOpen h.cleared _ _ (by simp) fun r G hG hheld => ⟨hG, fun i => ?_⟩)
      change _ + ((r.2.flatMap inodes).count i : Int) = _
      rw [hhands, count_one, count_flatMap, ← Fin.ofNat_val_eq_self ip]
      exact hheld i
    · exact good_blocked
  | helperOpen omode type major =>
    simp only [Lookups.refOp]
    split
    · rename_i ip
      refine h.onTable (wp_helperOpen h.cleared _ _ (by simp) fun r G hG hheld => ⟨hG, fun i => ?_⟩)
      change _ + ((r.2.flatMap inodes).count i : Int) = _
      rw [hhands, count_one, count_flatMap, ← Fin.ofNat_val_eq_self ip]
      exact hheld i
    · exact good_blocked
  | chdir =>
    simp only [Lookups.refOp]
    split
    · rename_i ip old hc
      refine good_ok (h.next (q := p) (p := p) (c := some ip) (x := .user) rfl rfl h.cleared
        fun i => ?_)
      have h1 := iput_ref (h.pos_of_cwd hc) i
      change (((s.iput old).entry i).ref : Int) - _ = held s.files i - held s.files i + _ + _
      rw [hhands, count_one, hc, cwdWeight_some, cwdWeight_some]
      simp only [Phase.hands, List.count_nil]
      omega
    · exact good_blocked

theorem Exactly.go (h : s.Exactly) (hr : s.Roomy (.go p)) : Good (s.go p) := by
  unfold Lookups.go
  cases hp : s.phase p with
  | user => exact good_blocked
  | call hands ops =>
    cases ops with
    | nil => exact good_ok (h.goOn (by rw [hp]; rfl))
    | cons op ops => exact h.refOp hp hr
  | puts ips =>
    cases ips with
    | nil => exact good_ok (h.goOn (by rw [hp]; rfl))
    | cons ip ips =>
      refine good_ok (h.put (by simp [hp, Phase.hands]) fun j => ?_)
      rw [hp]
      exact count_cons_one j ip ips
  | closing fd ips =>
    cases ips with
    | cons ip ips =>
      refine good_ok (h.put (by simp [hp, Phase.hands]) fun j => ?_)
      rw [hp]
      exact count_cons_one j ip ips
    | nil =>
      simp only
      split
      · refine h.onTable (wp_exitFd h.cleared _ (by simp) fun r G hG hheld => ⟨hG, fun i => ?_⟩)
        rw [hp]
        change _ + ((inodes r).count i : Int) = _ + (([] : List (Fin NINODE)).count i : Int)
        rw [count_inodes]
        simpa using hheld i
      · cases hc : s.cwd p with
        | none => exact good_blocked
        | some old =>
          refine good_ok (h.next (q := p) (p := p) (c := none) (x := .user) rfl rfl h.cleared
            fun i => ?_)
          have h1 := iput_ref (h.pos_of_cwd hc) i
          change (((s.iput old).entry i).ref : Int) - _ = held s.files i - held s.files i + _ + _
          rw [hc, cwdWeight_some, hp]
          simp only [Phase.hands, cwdWeight, List.count_nil, reduceCtorEq, if_false]
          omega

theorem Exactly.fork (h : s.Exactly) (cwd : Fin NINODE) (hp : s.phase p = .user)
    (hq : s.cwd q = none) :
    Good ((s.onTable p (Ftable.forkFiles p q) fun _ => .user).map fun t =>
      { t.idup cwd with cwd := update s.cwd q (some cwd) }) := by
  have hw : wp (Ftable.forkFiles p q) (fun _ G => Cleared G ∧ ∀ i, held G i = held s.files i)
      (fun e _ => e ≠ "iget: no inodes") s.files :=
    wp_forkFiles h.cleared (by simp) fun G hG hheld => ⟨hG, hheld⟩
  unfold wp at hw
  unfold Lookups.onTable
  split at hw
  · rename_i a G hrun
    rw [hrun]
    refine good_ok (h.next (q := q) (p := p) (c := some cwd) (x := .user) rfl rfl hw.1 fun i => ?_)
    have h1 := idup_ref s cwd i
    change (((s.idup cwd).entry i).ref : Int) - _ = held G i - held s.files i + _ + _
    rw [hw.2 i, hq, cwdWeight_some, hp]
    simp only [cwdWeight, reduceCtorEq, if_false]
    omega
  · rename_i e G hrun
    rw [hrun]
    refine ⟨fun he => ?_, fun t ht => by cases ht⟩
    cases he
    exact hw rfl

theorem Exactly.act (h : s.Exactly) {a : LookAct} (hr : s.Roomy a) : Good (s.act a) := by
  cases a with
  | go p => exact h.go hr
  | call p c =>
    unfold Lookups.act
    simp only
    split
    · rename_i hp hc
      exact good_ok (h.goOn (by rw [hp]; rfl))
    · exact good_blocked
  | dup p fd =>
    unfold Lookups.act
    simp only
    split
    · rename_i hp hc
      refine h.onTable (wp_sysDup h.cleared _ (by simp) fun r G hG hheld => ⟨hG, fun i => ?_⟩)
      rw [hp, hheld i]
    · exact good_blocked
  | close p fd =>
    unfold Lookups.act
    simp only
    split
    · rename_i hp hc
      refine h.onTable (wp_sysClose h.cleared _ (by simp) fun r G hG hheld => ⟨hG, fun i => ?_⟩)
      rw [hp]
      change _ + ((inodes r.2).count i : Int) = _ + (([] : List (Fin NINODE)).count i : Int)
      rw [count_inodes]
      simpa using hheld i
    · exact good_blocked
  | fork p np =>
    unfold Lookups.act
    simp only
    split
    · rename_i cwd hp hc hnp
      exact h.fork cwd hp hnp
    · exact good_blocked
  | exit p =>
    unfold Lookups.act
    simp only
    split
    · rename_i hp hc
      split
      · exact ⟨by simp [Served], fun _ ht => by cases ht⟩
      · exact good_ok (h.goOn (by rw [hp]; rfl))
    · exact good_blocked

end Steps

theorem boot_exactly : boot.Exactly := by
  refine ⟨fun i => ?_, fun _ _ => rfl⟩
  have hheld : held boot.files i = 0 := Finset.sum_eq_zero fun _ _ => rfl
  have hhand : boot.hand i = 0 := Finset.sum_eq_zero fun _ _ => rfl
  have hcwd := Shared.sum_update (fun _ : Fin NPROC => (none : Option (Fin NINODE)))
    Ftable.initproc (some 0) fun c => cwdWeight c i
  have hnone : ∑ _p : Fin NPROC, cwdWeight none i = 0 := Finset.sum_eq_zero fun _ _ => rfl
  rw [hheld, hhand]
  change _ = 0 + ∑ p, cwdWeight (update (fun _ => none) Ftable.initproc (some 0) p) i + 0
  rw [hcwd, hnone]
  by_cases hi : i = 0
  · simp [boot, hi, cwdWeight]
  · simp [boot, hi, cwdWeight, Ne.symm hi]

/-- In every interleaving in which fewer references than entries are around whenever `iget` is
called for an inode that is not in the table, the panic of `iget` is not met. -/
theorem iget_never_full (acts : List LookAct) (s : Lookups)
    (hroom : Run.Along (Shared.step act) Roomy boot acts)
    (hrun : Run.exec (Shared.step act) boot acts = some s) (a : LookAct) (ha : s.Roomy a) :
    s.act a ≠ .error (.panic "iget: no inodes") := by
  have h : s.Exactly := Run.exec_inv (fun hi hr hs => (hi.act hr).2 _ (Shared.step_eq_some.mp hs))
    boot_exactly hroom hrun
  exact (h.act ha).1

def rootWalk : Walk := ⟨false, [], true⟩

def whole (p : Fin NPROC) (c : PathUse) (steps : Nat) : List LookAct :=
  .call p c :: List.replicate steps (.go p)

/-- In the root directory: `mkdir("d")`, which makes inode 2, `open("d/f", O_CREATE|O_RDWR)`, which
makes inode 3, `link("d/f", "g")`, `unlink("d/f")` and `chdir("d")`. -/
def makeAndLink (p : Fin NPROC) : List LookAct :=
  whole p (.make ⟨rootWalk, none, some 2, none, true⟩) 6 ++
    whole p (.sysOpen (.create ⟨⟨false, [2], true⟩, none, some 3, none, true⟩) 0x202 .file 0) 7 ++
    whole p (.link ⟨false, [2, 3], true⟩ false rootWalk none) 10 ++
    whole p (.unlink ⟨false, [2], true⟩ (some 3) true) 8 ++
    whole p (.chdir ⟨false, [2], true⟩ true) 4

theorem iget_never_full_makeAndLink : ∃ s : Lookups,
    Run.exec (Shared.step act) boot (makeAndLink 0 ++ [.call 0 (.look ⟨true, [], true⟩)]) = some s ∧
    s.act (.go 0) ≠ .error (.panic "iget: no inodes") := by
  have hroom : Run.Along (Shared.step act) Roomy boot
      (makeAndLink 0 ++ [.call 0 (.look ⟨true, [], true⟩)]) := by decide +kernel
  have hrun : (Run.exec (Shared.step act) boot (makeAndLink 0 ++
      [.call 0 (.look ⟨true, [], true⟩)])).map (fun s => decide (s.Roomy (.go 0))) = some true := by
    decide +kernel
  obtain ⟨s, hs, hst⟩ := Option.map_eq_some_iff.mp hrun
  exact ⟨s, hs, iget_never_full _ s hroom hs _ (of_decide_eq_true hst)⟩

def openOne (p : Fin NPROC) (inum : Nat) : List LookAct :=
  whole p (.sysOpen (.namei ⟨false, [inum], true⟩) 0 .file 0) 5

def fourProcesses (p q r t : Fin NPROC) : List LookAct :=
  [.fork p q, .fork p r, .fork p t] ++ (List.range 16).flatMap (fun k => openOne p (k + 2)) ++
    (List.range 16).flatMap (fun k => openOne q (k + 18)) ++
    (List.range 16).flatMap (fun k => openOne r (k + 34)) ++ openOne t 50 ++
    [.call t (.sysOpen (.namei ⟨false, [51], true⟩) 0 .file 0), .go t]

/-- The fiftieth open panics. -/
theorem iget_full_at_fiftieth_open : ∃ s : Lookups,
    Run.exec (Shared.step act) boot (fourProcesses 0 1 2 3) = some s ∧
    s.act (.go 3) = .error (.panic "iget: no inodes") := by
  have hrun : (Run.exec (Shared.step act) boot (fourProcesses 0 1 2 3)).map
      (fun s => Prog.stopped (s.act (.go 3))) = some (some (.panic "iget: no inodes")) := by
    decide +kernel
  obtain ⟨s, hs, hst⟩ := Option.map_eq_some_iff.mp hrun
  exact ⟨s, hs, Prog.stopped_eq_some.mp hst⟩

end Lookups

end Xv6Audit.FileSys
