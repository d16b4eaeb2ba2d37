import Xv6Audit.Bio.Transparent

/-! When `bget()` finds no buffer. -/
namespace Xv6Audit.Bio
open Disk Log

namespace Store

/-- The references of the processes, one for each buffer a process waits for or has, and the
pinned blocks. -/
def references (s : Store) : Nat :=
  (Finset.univ.filter fun q : Fin NPROC × Fin NBUF => (s.cache.hold q.1 q.2).isSome = true).card +
    s.pins.length

/-- `Fits`, and when a process asks for a block that is not cached, or `commit()` begins with a
block, there are fewer references than buffers. -/
def Roomy (s : Store) (a : StoreAct) : Prop :=
  s.Fits a ∧ match a with
    | .bget _ dev blockno => s.cache.cached? dev blockno = none → s.references < NBUF
    | .commit _ => s.body = .top → s.references < NBUF
    | .acquiresleep _ _ | .fill _ _ | .modify _ _ _ | .bwrite _ _ | .logWrite _ _ | .brelse _ _
    | .unref _ _ | .beginOp _ | .endOp _ | .kill _ => True

instance (s : Store) : (a : StoreAct) → Decidable (s.Roomy a)
  | .bget _ _ _ | .commit _ => inferInstanceAs (Decidable (s.Fits _ ∧ (_ → _)))
  | .acquiresleep _ _ | .fill _ _ | .modify _ _ _ | .bwrite _ _ | .logWrite _ _ | .brelse _ _
  | .unref _ _ | .beginOp _ | .endOp _ | .kill _ => inferInstanceAs (Decidable (s.Fits _ ∧ True))

def Served {α : Type} (x : Except Halt α) : Prop := x ≠ .error (.panic "bget: no buffers")

section Served
variable {s : Store} {p : Fin NPROC} {b : Fin NBUF} {k : Nat} {α β : Type}

theorem served_ok (a : α) : Served (.ok a) := by simp [Served]

theorem served_blocked : Served (.error .blocked : Except Halt α) := by simp [Served]

theorem Served.map {x : Except Halt α} (h : Served x) (f : α → β) : Served (x.map f) := by
  cases x with
  | ok a => exact served_ok (f a)
  | error e =>
    intro he
    cases he
    exact h rfl

theorem served_ite {c : Prop} [Decidable c] {x y : Except Halt α} (hx : c → Served x)
    (hy : ¬ c → Served y) : Served (if c then x else y) := by
  split
  · exact hx ‹_›
  · exact hy ‹_›

/-! Counting. -/

theorem sum_users (s : Store) : ∑ b, s.cache.users b =
    (Finset.univ.filter fun q : Fin NPROC × Fin NBUF =>
      (s.cache.hold q.1 q.2).isSome = true).card := by
  rw [Finset.card_filter]
  push_cast
  rw [Fintype.sum_prod_type, Finset.sum_comm]
  rfl

theorem sum_pinned {dev : Nat} {pins : List Nat} {c : Cache Block} (h : c.Clear dev pins) :
    ∑ b, (c.buf b).pinned pins ≤ pins.length := by
  have hcard : ∑ b, (c.buf b).pinned pins =
      (Finset.univ.filter fun b => (c.buf b).dev ≠ 0 ∧ (c.buf b).blockno ∈ pins).card := by
    rw [Finset.card_filter]
    push_cast
    rfl
  rw [hcard]
  have hinj : Set.InjOn (fun b => (c.buf b).blockno)
      (Finset.univ.filter fun b => (c.buf b).dev ≠ 0 ∧ (c.buf b).blockno ∈ pins) := by
    intro b hb b' hb' heq
    simp only [Finset.coe_filter, Finset.mem_univ, true_and, Set.mem_ofPred_eq] at hb hb'
    exact h.uniq b b' _ ⟨hb.1, rfl⟩ ⟨hb'.1, heq.symm⟩
  have hle := Finset.card_le_card_of_injOn (t := pins.toFinset) (fun b => (c.buf b).blockno)
    (fun b hb => by
      simp only [Finset.coe_filter, Finset.mem_univ, true_and, Set.mem_ofPred_eq] at hb
      simpa using hb.2) hinj
  have hlen := pins.toFinset_card_le
  omega

theorem Whole.spare (h : Whole s) (hr : s.references < NBUF) : ∃ b, (s.cache.buf b).refcnt = 0 := by
  by_contra hall
  push Not at hall
  have hone : ∀ b, 1 ≤ s.cache.users b + (s.cache.buf b).pinned s.pins := fun b => by
    have hrefs := h.clear.refs b
    have hne : (s.cache.buf b).refcnt.toNat ≠ 0 := fun h0 => hall b (BitVec.eq_of_toNat_eq h0)
    omega
  have hsum : ∑ _b : Fin NBUF, (1 : Int) ≤
      ∑ b, (s.cache.users b + (s.cache.buf b).pinned s.pins) :=
    Finset.sum_le_sum fun b _ => hone b
  rw [Finset.sum_add_distrib, sum_users, Finset.sum_const, Finset.card_univ, Fintype.card_fin,
    nsmul_eq_mul, mul_one] at hsum
  have hpin := sum_pinned h.clear
  unfold references at hr
  omega

theorem Whole.bget_served (h : Whole s) {dev : Nat}
    (hk : s.cache.cached? dev k = none → s.references < NBUF) :
    Served (s.cache.bget p dev k) := by
  unfold Cache.bget
  cases hc : s.cache.cached? dev k with
  | some b => exact served_ite (fun _ => served_blocked) fun _ => served_ok _
  | none =>
    obtain ⟨b, hb⟩ := h.spare (hk hc)
    have hu : s.cache.unused? ≠ none := by
      unfold Cache.unused?
      rw [Ne, List.find?_eq_none]
      intro hno
      exact hno b (List.mem_reverse.mpr (h.clear.listed b)) (by simp [hb])
    obtain ⟨c, hcu⟩ := Option.ne_none_iff_exists'.mp hu
    simp only [hcu]
    exact served_ok _

theorem Whole.pinned_cached (h : Whole s) (hk : k ∈ s.pins) : s.cache.cached? s.dev k ≠ none := by
  obtain ⟨b, hb, -⟩ := h.clear.kept k hk
  unfold Cache.cached?
  rw [Ne, List.find?_eq_none]
  intro hno
  have hdev : (s.cache.buf b).dev = s.dev := (h.clear.one_dev b).resolve_left hb.1
  exact hno b (h.clear.listed b) (by simp [hdev, hb.2])

theorem Whole.take_served (h : Whole s) {next : Fin NBUF → Body}
    (hk : s.cache.cached? s.dev k = none → s.references < NBUF) : Served (s.take p k next) :=
  (h.bget_served hk).map _

theorem bwrite_served : Served (s.cache.bwrite p b) :=
  served_ite (fun _ => by simp [Served]) fun _ => served_ite (fun _ => served_ok _)
    fun _ => served_blocked

theorem brelse_served : Served (s.cache.brelse p b) :=
  served_ite (fun _ => by simp [Served]) fun _ => served_ite (fun _ => served_ok _)
    fun _ => served_blocked

theorem modify_served {x : Block} : Served (s.cache.modify p b x) :=
  served_ite (fun _ => served_ok _) fun _ => served_blocked

theorem logAct_served (l : Logger NPROC) (a : LogAct NPROC) : Served (l.act a) := by
  cases a with
  | beginOp q | kill q => exact served_ite (fun _ => served_ok _) fun _ => served_blocked
  | logWrite q j =>
    refine served_ite (fun _ => ?_) fun _ => served_blocked
    exact served_ite (fun _ => by simp [Served]) fun _ => served_ite (fun _ => by simp [Served])
      fun _ => served_ok _
  | endOp q =>
    refine served_ite (fun _ => ?_) fun _ => served_blocked
    exact served_ite (fun _ => by simp [Served]) fun _ => served_ite (fun _ => served_ok _)
      fun _ => served_ok _
  | commit q =>
    unfold Logger.act
    simp only
    split
    · exact served_ok _
    · exact served_blocked

/-! `commit()`: in the body of a loop the second block is a logged one. -/

theorem go_served {x : Except Halt (Cache Block)} {body : Body} (h : Served x) :
    Served (s.go x body) := h.map _

theorem Whole.writeLog_served {t : Nat} (h : Whole s)
    (hp : s.log.place p = .commit (.writeLog t)) (ht : t < s.log.lh.n)
    (hr : s.body = .top → s.references < NBUF) : Served (s.writeLog p t) := by
  have hpl := h.place p _ hp
  unfold Store.writeLog
  cases hb : s.body with
  | top => exact h.take_served fun _ => hr hb
  | one b =>
    have hpin : s.log.lh.block t ∈ s.pins :=
      mem_pins.mpr ⟨t, by rw [hpl.1]; exact Nat.zero_le t, ht, rfl⟩
    exact served_ite (fun _ => h.take_served fun hn => absurd hn (h.pinned_cached hpin))
      fun _ => served_blocked
  | two b b' =>
    exact served_ite (fun _ => (go_served modify_served).map _) fun _ => served_blocked
  | copied b b' => exact go_served bwrite_served
  | written b b' => exact go_served brelse_served
  | last b => exact (go_served brelse_served).map _
  | unpinned b b' | rest b => exact served_blocked

theorem Whole.installTrans_served {t : Nat} (h : Whole s)
    (hp : s.log.place p = .commit (.install t)) (ht : t < s.log.lh.n)
    (hr : s.body = .top → s.references < NBUF) : Served (s.installTrans p t) := by
  have hpl := h.place p _ hp
  unfold Store.installTrans
  cases hb : s.body with
  | top => exact h.take_served fun _ => hr hb
  | one b =>
    have hinst : s.installed = t := by
      have hi := hpl.2.1
      rw [hb] at hi
      exact hi
    have hpin : s.log.lh.block t ∈ s.pins := mem_pins.mpr ⟨t, hinst.le, ht, rfl⟩
    exact served_ite (fun _ => h.take_served fun hn => absurd hn (h.pinned_cached hpin))
      fun _ => served_blocked
  | two b b' => exact served_ite (fun _ => served_ok _) fun _ => served_blocked
  | copied b b' => exact go_served bwrite_served
  | written b b' => exact served_ok _
  | unpinned b b' => exact go_served brelse_served
  | last b => exact (go_served brelse_served).map _
  | rest b => exact served_blocked

theorem Whole.writeHead_served {c : CommitAt} (h : Whole s)
    (hr : s.body = .top → s.references < NBUF) : Served (s.writeHead p c) := by
  unfold Store.writeHead
  cases hb : s.body with
  | top => exact h.take_served fun _ => hr hb
  | one b => exact served_ite (fun _ => go_served modify_served) fun _ => served_blocked
  | copied b b' => exact (go_served bwrite_served).map _
  | two b b' | written b b' | unpinned b b' | last b | rest b => exact served_blocked

theorem afterHead_served {x : Except Halt Store} (h : Served x) : Served (s.afterHead p x) := by
  unfold afterHead
  split
  · exact go_served brelse_served
  all_goals exact h

theorem Whole.commitStep_served {c : CommitAt} (h : Whole s) (hp : s.log.place p = .commit c)
    (hr : s.body = .top → s.references < NBUF) : Served (s.commitStep p c) := by
  cases c with
  | enter => exact served_ok _
  | writeLog t => exact served_ite (fun ht => h.writeLog_served hp ht hr) fun _ => served_ok _
  | writeHead => exact h.writeHead_served hr
  | install t =>
    exact afterHead_served
      (served_ite (fun ht => h.installTrans_served hp ht hr) fun _ => served_ok _)
  | clear => exact served_ok _
  | eraseHead => exact h.writeHead_served hr
  | leave => exact afterHead_served (served_ok _)

theorem Whole.act_served {a : StoreAct} (h : Whole s) (ha : s.Roomy a) : Served (s.act a) := by
  have hno : ∀ x : Except Halt Store, Served x → ∀ c : Bool,
      Served (if c then x else .error .blocked) :=
    fun x hx c => served_ite (fun _ => hx) fun _ => served_blocked
  cases a with
  | bget q dev j => exact hno _ (((h.bget_served ha.2).map _).map _) _
  | acquiresleep q c | fill q c | unref q c =>
    exact Served.map (served_ite (fun _ => served_ok _) fun _ => served_blocked) _
  | modify q c x => exact hno _ (modify_served.map _) _
  | bwrite q c => exact hno _ (bwrite_served.map _) _
  | logWrite q c =>
    exact hno _ (served_ite (fun _ => (logAct_served _ _).map _) fun _ => served_blocked) _
  | brelse q c => exact hno _ (brelse_served.map _) _
  | beginOp q | endOp q => exact hno _ ((logAct_served _ _).map _) _
  | kill q => exact (logAct_served _ _).map _
  | commit q =>
    unfold Store.act
    simp only
    split
    · rename_i c hc
      exact hno _ (h.commitStep_served hc ha.2) _
    all_goals exact served_blocked

end Served

/-- In every run in which there are fewer references than buffers whenever a buffer may be
needed, no step ends in the panic of `bget()`. -/
theorem bget_never_dry (dev start : Nat) (size : Int) (disk : Nat → Block) (hdev : dev ≠ 0)
    (acts : List StoreAct) (s : Store)
    (hroom : Run.Along (Shared.step act) Roomy (boot dev start size disk) acts)
    (hrun : Run.exec (Shared.step act) (boot dev start size disk) acts = some s) (a : StoreAct)
    (ha : s.Roomy a) : s.act a ≠ .error (.panic "bget: no buffers") := by
  have h : Whole s := Run.exec_inv
    (fun hi hf hs => (hi.act hf.1 (Shared.step_eq_some.mp hs)).whole) (Whole.boot hdev size disk)
    hroom hrun
  exact h.act_served ha

def readers (ps : List (Fin NPROC)) : List StoreAct :=
  ps.flatMap fun p => [.bget p 1 (100 + p), .acquiresleep p (Fin.ofNat NBUF p)]

theorem bget_never_dry_readers :
    ∃ s, Run.exec (Shared.step act) (boot 1 2 LOGSIZE fun _ => Block.zero)
        (readers ((List.finRange NPROC).take 4)) = some s ∧
      s.act (.bget 4 1 200) ≠ .error (.panic "bget: no buffers") := by
  have hroom : Run.Along (Shared.step act) Roomy (boot 1 2 LOGSIZE fun _ => Block.zero)
      (readers ((List.finRange NPROC).take 4)) := by
    decide +kernel
  have hrun : (Run.exec (Shared.step act) (boot 1 2 LOGSIZE fun _ => Block.zero)
      (readers ((List.finRange NPROC).take 4))).map (fun s => decide (s.Roomy (.bget 4 1 200))) =
      some true := by
    decide +kernel
  obtain ⟨s, hs, hst⟩ := Option.map_eq_some_iff.mp hrun
  exact ⟨s, hs, bget_never_dry 1 2 LOGSIZE _ (by decide) _ s hroom hs _ (of_decide_eq_true hst)⟩

/-- 30 processes wait for the disk with a buffer each, and one more calls `bread()`. -/
theorem bget_panics_with_31_readers :
    ∃ s, Run.exec (Shared.step act) (boot 1 2 LOGSIZE fun _ => Block.zero)
        (readers ((List.finRange NPROC).take 30)) = some s ∧
      s.pins = [] ∧ s.act (.bget 30 1 130) = .error (.panic "bget: no buffers") := by
  have hrun : (Run.exec (Shared.step act) (boot 1 2 LOGSIZE fun _ => Block.zero)
      (readers ((List.finRange NPROC).take 30))).map
      (fun s => (s.pins, Prog.stopped (s.act (.bget 30 1 130)))) =
      some ([], some (.panic "bget: no buffers")) := by
    decide +kernel
  obtain ⟨s, hs, hst⟩ := Option.map_eq_some_iff.mp hrun
  simp only [Prod.mk.injEq] at hst
  exact ⟨s, hs, hst.1, Prog.stopped_eq_some.mp hst.2⟩

end Store

end Xv6Audit.Bio
