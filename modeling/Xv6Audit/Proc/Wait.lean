import Xv6Audit.Proc.Parents

/-! Exit statuses are delivered exactly once. -/
namespace Xv6Audit.Procs
open Function

namespace Pc

def waiting : Pc → ProcState → Bool
  | .sleepLocked, _ => true
  | .sleepFree, _ => true
  | .sleepSet, st => st == .sleeping
  | .asleep, st => st == .sleeping
  | _, _ => false

def scanned : Pc → Fin NPROC → Bool
  | .waitScan pp _, q => q < pp
  | .waitSleep, _ => true
  | _, _ => false

end Pc

namespace Family
open Pc
variable {s s' : Family} {p q : Fin NPROC}

def Waiting (s : Family) (p : Fin NPROC) : Prop := (s.pc p).waiting (s.proc p).state = true

def Passed (s : Family) (x p : Fin NPROC) : Prop :=
  (∃ status next, s.pc x = .exitWake status next ∧ (s.proc x).parent = some p ∧ p < next) ∨
    ∃ status pp next, s.pc x = .reparentWake status pp next ∧ p = s.initproc ∧ p < next

def Rousing (s : Family) : Prop :=
  ∃ x status pp next, s.pc x = .reparentWake status pp next ∧ next ≤ s.initproc

structure Awake (s : Family) : Prop where
  chan : ∀ p, (s.proc p).state = .sleeping →
    ((s.proc p).chan = .slot p ↔ s.pc p ≠ .otherAsleep)
  passed : ∀ x p, s.Passed x p → ¬ s.Waiting p
  waits : ∀ p q, s.Waiting p → (s.proc q).parent = some p → (s.proc q).state = .zombie →
    p = s.initproc ∧ s.Rousing
  scanned : ∀ p q, (s.pc p).scanned q = true → (s.proc q).parent = some p →
    (s.proc q).state ≠ .zombie

variable {status : BitVec 32} {t : Family}

namespace Awake

theorem own (h : Awake s) (hinit : s'.initproc = s.initproc)
    (hproc : ∀ q, q ≠ p → s'.proc q = s.proc q) (hpc : ∀ q, q ≠ p → s'.pc q = s.pc q)
    (hparent : ∀ r, (s'.proc p).parent = some r → (s'.proc p).state = .zombie →
      (s.proc p).parent = some r ∧ (s.proc p).state = .zombie)
    (hchan : (s'.proc p).state = .sleeping →
      ((s'.proc p).chan = .slot p ↔ s'.pc p ≠ .otherAsleep))
    (hwait : s'.Waiting p → s.Waiting p) (hpass : ∀ q, s'.Passed p q → s.Passed p q)
    (hrouse : ∀ status pp next, s.pc p = .reparentWake status pp next →
      s'.pc p = s.pc p ∨ NPROC ≤ next)
    (hscan : ∀ q, (s'.pc p).scanned q = true → (s.pc p).scanned q = true ∨
      ((s.proc q).parent = some p → (s.proc q).state ≠ .zombie)) : Awake s' := by
  have hkid : ∀ r q, (s'.proc q).parent = some r → (s'.proc q).state = .zombie →
      (s.proc q).parent = some r ∧ (s.proc q).state = .zombie := by
    intro r q hq hz
    rcases eq_or_ne q p with rfl | hne
    · exact hparent r hq hz
    · exact ⟨hproc q hne ▸ hq, hproc q hne ▸ hz⟩
  have hwaits : ∀ q, s'.Waiting q → s.Waiting q := by
    intro q hq
    rcases eq_or_ne q p with rfl | hne
    · exact hwait hq
    · unfold Waiting at hq ⊢
      rwa [hproc q hne, hpc q hne] at hq
  refine ⟨fun q hst => ?_, fun y q hy hq => ?_, fun r q hr hq hz => ?_, fun r q hr hq hz => ?_⟩
  · rcases eq_or_ne q p with rfl | hne
    · exact hchan hst
    · rw [hproc q hne] at hst ⊢
      rw [hpc q hne]
      exact h.chan q hst
  · refine h.passed y q ?_ (hwaits q hq)
    rcases eq_or_ne y p with rfl | hne
    · exact hpass q hy
    · unfold Passed at hy ⊢
      rwa [hproc y hne, hpc y hne, hinit] at hy
  · obtain ⟨hq, hz⟩ := hkid r q hq hz
    obtain ⟨hi, y, status, pp, next, hy, hn⟩ := h.waits r q (hwaits r hr) hq hz
    refine ⟨hinit ▸ hi, y, status, pp, next, ?_, hinit ▸ hn⟩
    rcases eq_or_ne y p with rfl | hne
    · rcases hrouse status pp next hy with he | hge
      · exact he.trans hy
      · omega
    · exact (hpc y hne).trans hy
  · obtain ⟨hq, hz⟩ := hkid r q hq hz
    rcases eq_or_ne r p with rfl | hne
    · rcases hscan q hr with hr | hr
      · exact h.scanned r q hr hq hz
      · exact hr hq hz
    · exact h.scanned r q (hpc r hne ▸ hr) hq hz

variable {f : Proc → Proc} {x : Pc}

theorem setProc (h : Awake s)
    (hparent : ∀ r, (f (s.proc q)).parent = some r → (f (s.proc q)).state = .zombie →
      (s.proc q).parent = some r ∧ (s.proc q).state = .zombie)
    (hchan : (f (s.proc q)).state = .sleeping →
      ((f (s.proc q)).chan = .slot q ↔ s.pc q ≠ .otherAsleep))
    (hwait : (s.pc q).waiting (f (s.proc q)).state = true → s.Waiting q)
    (hpass : (s.pc q).exits = true → (f (s.proc q)).parent = (s.proc q).parent) :
    Awake (s.setProc q f) := by
  have hself : (s.setProc q f).proc q = f (s.proc q) := update_self ..
  refine h.own (p := q) rfl (fun r hr => update_of_ne hr ..) (fun _ _ => rfl) ?_ ?_ ?_ ?_
    (fun _ _ _ _ => .inl rfl) (fun _ hr => .inl hr)
  · rwa [hself]
  · rwa [hself]
  · unfold Waiting
    rwa [hself]
  · rintro r (⟨status, next, hx, hr, hn⟩ | hr)
    · rw [hself, hpass (by rw [show s.pc q = _ from hx]; rfl)] at hr
      exact .inl ⟨status, next, hx, hr, hn⟩
    · exact .inr hr

theorem go (h : Awake s) (hproc : s'.proc = s.proc) (hinit : s'.initproc = s.initproc)
    (hpc : s'.pc = update s.pc p x) (hchan : x = .otherAsleep ↔ s.pc p = .otherAsleep)
    (hwait : x.waiting (s.proc p).state = true → s.Waiting p)
    (hpass : x.exits = true → ∃ status, x = .exitWake status 0 ∨ ∃ pp, x = .reparent status pp)
    (hrouse : ∀ status pp next, s.pc p = .reparentWake status pp next → NPROC ≤ next)
    (hscan : ∀ q, x.scanned q = true → (s.pc p).scanned q = true ∨
      ((s.proc q).parent = some p → (s.proc q).state ≠ .zombie)) : Awake s' := by
  have hself : s'.pc p = x := by rw [hpc, update_self]
  refine h.own (p := p) hinit (fun q _ => by rw [hproc])
    (fun q hq => by rw [hpc, update_of_ne hq]) ?_ ?_ ?_ ?_
    (fun status pp next hp => .inr (hrouse status pp next hp)) ?_
  · rw [hproc]
    exact fun _ => .intro
  · rw [hproc, hself]
    intro hst
    rw [h.chan p hst, not_iff_not, hchan]
  · unfold Waiting
    rwa [hproc, hself]
  · rintro q (⟨status, next, hx, -, hn⟩ | ⟨status, pp, next, hx, -⟩)
    · rw [hself] at hx
      subst hx
      obtain ⟨status', he | ⟨pp, he⟩⟩ := hpass rfl
      · cases he
        exact absurd hn (Nat.not_lt_zero q)
      · cases he
    · rw [hself] at hx
      subst hx
      obtain ⟨status', he | ⟨pp', he⟩⟩ := hpass rfl <;> cases he
  · rwa [hself]

theorem ownGo (h : Awake s) (hzombie : (f (s.proc p)).state ≠ .zombie)
    (hchan : (f (s.proc p)).state = .sleeping → ((f (s.proc p)).chan = .slot p ↔ x ≠ .otherAsleep))
    (hwait : x.waiting (f (s.proc p)).state = true → s.Waiting p) (hpass : x.exits = false)
    (hrouse : (s.pc p).exits = false) (hscan : ∀ q, x.scanned q = false) :
    Awake ((s.setProc p f).go p x) := by
  have hself : ((s.setProc p f).go p x).proc p = f (s.proc p) := update_self ..
  have hpc : ((s.setProc p f).go p x).pc p = x := update_self ..
  refine h.own (p := p) rfl (fun q hq => update_of_ne hq ..)
    (fun q hq => update_of_ne hq ..) ?_ ?_ ?_ ?_ ?_ ?_
  · rw [hself]
    exact fun _ _ hz => absurd hz hzombie
  · rwa [hself, hpc]
  · unfold Waiting
    rwa [hself, hpc]
  · rintro q (⟨status, next, hx, -⟩ | ⟨status, pp, next, hx, -⟩) <;> rw [hpc] at hx <;>
      rw [hx] at hpass <;> cases hpass
  · intro status pp next hx
    rw [hx] at hrouse
    cases hrouse
  · intro q hq
    rw [hpc, hscan q] at hq
    cases hq

theorem resumed_quiet (hx : x.fits .runnable = true) :
    x.resumed.exits = false ∧ x.exits = false ∧ x.resumed.waiting .running = false ∧
      ∀ q, x.resumed.scanned q = false := by
  match x, hx with
  | .born, _ | .user, _ | .forkParent _, _ | .forkReady _, _ | .waitAgain, _ | .otherAsleep, _
  | .asleep, _ => exact ⟨rfl, rfl, rfl, fun _ => rfl⟩

theorem open_quiet (hx : x.open = true) : x.waiting .runnable = false := by
  match x, hx with
  | .user, _ | .forkParent _, _ | .forkReady _, _ | .waitAgain, _ => rfl

theorem lent (h : Awake s) (hf : Lent (s.proc q) (f (s.proc q))) :
    Awake (s.setProc q f) := by
  obtain ⟨⟨hparent, -, -⟩, hf⟩ := hf
  rcases hf with ⟨hst, hch⟩ | ⟨hst, hst'⟩
  · refine h.setProc (fun r hr hz => ⟨hparent ▸ hr, hst ▸ hz⟩) (fun hs => ?_) ?_ (fun _ => hparent)
    · rw [hch]
      exact h.chan q (hst ▸ hs)
    · rw [hst]
      exact id
  · refine h.setProc (fun r _ hz => ?_) (fun hs => ?_) (fun hw => ?_) (fun _ => hparent)
    · cases hz.symm.trans hst'
    · cases hs.symm.trans hst'
    · rw [hst'] at hw
      unfold Waiting
      cases hx : s.pc q <;> rw [hx] at hw <;> first | rfl | cases hw

theorem alone (hs : Seated s) (hp : (s.pc p).hasWait = true) {x : Fin NPROC}
    (hx : (s.pc x).hasWait = true) : x = p :=
  Option.some.inj (((hs.wait x).mpr hx).symm.trans ((hs.wait p).mpr hp))

theorem hasWait_of_scanned (hx : x.scanned q = true) : x.hasWait = true := by
  cases x <;> first | rfl | cases hx

theorem no_rousing (hs : Seated s) (hp : (s.pc p).hasWait = true)
    (hne : ∀ status pp next, s.pc p ≠ .reparentWake status pp next) : ¬ s.Rousing := by
  rintro ⟨x, status, pp, next, hx, -⟩
  cases alone hs hp (x := x) (by rw [hx]; rfl)
  exact hne status pp next hx

theorem waiting_back {r : Fin NPROC} (hpc : s'.pc r = s.pc r)
    (hst : (s'.proc r).state = .sleeping → (s.proc r).state = .sleeping) (hw : s'.Waiting r) :
    s.Waiting r := by
  unfold Waiting at hw ⊢
  rw [hpc] at hw
  cases hx : s.pc r <;> rw [hx] at hw <;> first | rfl | cases hw | skip
  all_goals exact beq_iff_eq.mpr (hst (eq_of_beq hw))

theorem not_waiting (hp : s.pc p = x) (hx : ∀ st, x.waiting st = false) : ¬ s.Waiting p := by
  unfold Waiting
  rw [hp, hx]
  exact Bool.false_ne_true

theorem inside (h : Awake s) (hs : Seated s) (hs' : Seated s') (hp : (s.pc p).hasWait = true)
    (hself : s'.pc p = x) (hx : x.hasWait = true) (hscan : ∀ q, x.scanned q = false)
    (hpc : ∀ q, q ≠ p → s'.pc q = s.pc q)
    (hchan : ∀ q, (s'.proc q).state = .sleeping →
      (s.proc q).state = .sleeping ∧ (s'.proc q).chan = (s.proc q).chan)
    (hpassed : ∀ r, s'.Waiting r → (r ≠ p → s.Waiting r) → ¬ s'.Passed p r)
    (hwaits : ∀ r q, s'.Waiting r → (r ≠ p → s.Waiting r) → (s'.proc q).parent = some r →
      (s'.proc q).state = .zombie → r = s'.initproc ∧ s'.Rousing) : Awake s' := by
  have hback : ∀ r, s'.Waiting r → r ≠ p → s.Waiting r := fun r hr hne =>
    waiting_back (hpc r hne) (fun hst => (hchan r hst).1) hr
  rw [← hself] at hx hscan
  refine ⟨fun q hst => ?_, fun y r hy hr => ?_, fun r q hr => hwaits r q hr (hback r hr),
    fun r q hr => ?_⟩
  · obtain ⟨hst, hch⟩ := hchan q hst
    have hne : q ≠ p := by
      rintro rfl
      exact hs.not_sleeping hp hst
    rw [hch, hpc q hne]
    exact h.chan q hst
  · have hyp : y = p := by
      apply alone hs' hx
      rcases hy with ⟨status, next, hy, -⟩ | ⟨status, pp, next, hy, -⟩ <;> rw [hy] <;> rfl
    exact hpassed r hr (hback r hr) (hyp ▸ hy)
  · cases alone hs' hx (hasWait_of_scanned hr)
    cases (hscan q).symm.trans hr

theorem sleepLock (h : Awake s) (hs : Seated s) (hp : s.pc p = .waitSleep)
    (hs' : Seated ((s.setLock p (some p)).go p .sleepLocked)) :
    Awake ((s.setLock p (some p)).go p .sleepLocked) := by
  have hhas : (s.pc p).hasWait = true := by rw [hp]; rfl
  have hno : ¬ s.Rousing := no_rousing hs hhas (by simp [hp])
  have hself : ((s.setLock p (some p)).go p .sleepLocked).pc p = .sleepLocked := update_self ..
  refine h.inside hs hs' hhas hself rfl (fun _ => rfl) (fun q hq => update_of_ne hq ..)
    (fun q hq => ⟨hq, rfl⟩) (fun r _ _ hr => ?_) (fun r q _ hback hq hz => ?_)
  · rcases hr with ⟨status, next, hx, -⟩ | ⟨status, pp, next, hx, -⟩ <;> cases hself.symm.trans hx
  · rcases eq_or_ne r p with rfl | hne
    · exact absurd hz (h.scanned r q (by rw [hp]; rfl) hq)
    · exact absurd (h.waits r q (hback hne) hq hz).2 hno

theorem hand (h : Awake s) (hs : Seated s) (hp : s.pc p = .reparent status q)
    (hs' : Seated ((s.setProc q fun x => { x with parent := some s.initproc }).go p
      (.reparentWake status q 0))) :
    Awake ((s.setProc q fun x => { x with parent := some s.initproc }).go p
      (.reparentWake status q 0)) := by
  set t := (s.setProc q fun x => { x with parent := some s.initproc }).go p
    (.reparentWake status q 0) with ht
  have hself : t.pc p = .reparentWake status q 0 := update_self ..
  have hhas : (s.pc p).hasWait = true := by rw [hp]; rfl
  have hno : ¬ s.Rousing := no_rousing hs hhas (by simp [hp])
  have hproc : ∀ r, (t.proc r).state = (s.proc r).state ∧ (t.proc r).chan = (s.proc r).chan := by
    intro r
    rcases eq_or_ne r q with rfl | hne <;> simp [Family.go, Family.setProc, *]
  refine h.inside hs hs' hhas hself rfl (fun _ => rfl) (fun r hr => update_of_ne hr ..)
    (fun r hr => ⟨(hproc r).1 ▸ hr, (hproc r).2⟩) (fun r _ _ hr => ?_) (fun r c hr hback hc hz => ?_)
  · rcases hr with ⟨_, next, hx, -⟩ | ⟨_, pp, next, hx, -, hn⟩ <;> cases hself.symm.trans hx
    exact absurd hn (Nat.not_lt_zero r)
  · have hne : r ≠ p := fun he => not_waiting hself (fun _ => rfl) (he ▸ hr)
    rcases eq_or_ne c q with rfl | hcq
    · have hri : s.initproc = r := by simpa [ht, Family.go, Family.setProc] using hc
      exact ⟨hri.symm, p, status, c, 0, hself, Nat.zero_le _⟩
    · have hc' : (s.proc c).parent = some r := by
        simpa [ht, Family.go, Family.setProc, hcq] using hc
      exact absurd (h.waits r c (hback hne) hc' ((hproc c).1 ▸ hz)).2 hno

theorem not_waiting_of_woken (h : Awake s) (hs : Seated s) (hl : s.lock q = none) :
    ¬ (s.setProc q fun x => x.woken (.slot q)).Waiting q := by
  intro hw
  have hown : (s.pc q).hasOwn = false := by
    by_contra ho
    cases hl.symm.trans (hs.held q (Bool.eq_true_of_not_eq_false ho))
  have hself : (s.setProc q fun x => x.woken (.slot q)).proc q = (s.proc q).woken (.slot q) :=
    update_self ..
  unfold Waiting at hw
  rw [hself] at hw
  match hx : s.pc q, hown, hw with
  | .asleep, _, hw =>
    have hst := eq_of_beq hw
    unfold Proc.woken at hst
    split at hst
    · cases hst
    case isFalse hno => exact hno ⟨hst, (h.chan q hst).mpr (by simp [hx])⟩

theorem woken_state {chan : Chan}
    (ht : p = q ∧ t = s ∨ s.lock q = none ∧ t = s.setProc q fun x => x.woken chan) (r : Fin NPROC) :
    (t.proc r).parent = (s.proc r).parent ∧ (t.proc r).chan = (s.proc r).chan ∧
      ((t.proc r).state = .sleeping → (s.proc r).state = .sleeping) ∧
      ((t.proc r).state = .zombie → (s.proc r).state = .zombie) := by
  rcases ht with ⟨-, rfl⟩ | ⟨-, rfl⟩
  · exact ⟨rfl, rfl, id, id⟩
  · rcases eq_or_ne r q with rfl | hne
    · simp only [Family.setProc, update_self]
      unfold Proc.woken
      split <;> simp_all
    · rw [show (s.setProc q fun x => x.woken chan).proc r = s.proc r from
        update_of_ne hne ..]
      exact ⟨rfl, rfl, id, id⟩

theorem wakeInit {pp : Nat} (h : Awake s) (hf : Fathered s)
    (hp : s.pc p = .reparentWake status pp q)
    (ht : p = q ∧ t = s ∨ s.lock q = none ∧ t = s.setProc q fun x => x.woken (.slot s.initproc))
    (hs' : Seated (t.go p (.reparentWake status pp (q + 1)))) :
    Awake (t.go p (.reparentWake status pp (q + 1))) := by
  have hstate := woken_state ht
  have hinit : t.initproc = s.initproc := by rcases ht with ⟨-, rfl⟩ | ⟨-, rfl⟩ <;> rfl
  have hself : (t.go p (.reparentWake status pp (q + 1))).pc p = .reparentWake status pp (q + 1) :=
    update_self ..
  have hother : ∀ r, r ≠ p → (t.go p (.reparentWake status pp (q + 1))).pc r = s.pc r :=
    fun r hr => (update_of_ne hr ..).trans (congrFun (Seated.wakeAt_pc ht) r)
  have hhas : (s.pc p).hasWait = true := by rw [hp]; rfl
  have hpi : p ≠ s.initproc := hf.leaves p (by rw [hp]; rfl)
  have hnp : ∀ r, (t.go p (.reparentWake status pp (q + 1))).Waiting r → r ≠ p :=
    fun r hr he => not_waiting hself (fun _ => rfl) (he ▸ hr)
  have hq : q = s.initproc → ¬ (t.go p (.reparentWake status pp (q + 1))).Waiting q := by
    rintro rfl hw
    rcases ht with ⟨rfl, -⟩ | ⟨hl, rfl⟩
    · exact hpi rfl
    · exact h.not_waiting_of_woken hf.seated hl (waiting_back (hother _ hpi.symm) id hw)
  refine h.inside hf.seated hs' hhas hself rfl (fun _ => rfl) hother
    (fun r hr => ⟨(hstate r).2.2.1 hr, (hstate r).2.1⟩) (fun r hw hback hr => ?_)
    (fun r c hr hback hc hz => ?_)
  · rcases hr with ⟨_, next, hx, -⟩ | ⟨_, pp', next, hx, hri, hn⟩ <;> cases hself.symm.trans hx
    have hri : r = s.initproc := hri.trans hinit
    rcases Nat.lt_succ_iff_lt_or_eq.mp hn with hn | hn
    · exact h.passed p r (.inr ⟨status, pp, q, hp, hri, hn⟩) (hback (hnp r hw))
    · cases Fin.ext hn
      exact hq hri hw
  · obtain ⟨hri, x, status', pp', next, hx, hn⟩ := h.waits r c (hback (hnp r hr))
      ((hstate c).1 ▸ hc) ((hstate c).2.2.2 hz)
    cases alone hf.seated hhas (x := x) (by rw [hx]; rfl)
    cases hp.symm.trans hx
    refine ⟨hri.trans hinit.symm, p, status, pp, q + 1, hself, ?_⟩
    have hne : (q : Nat) ≠ s.initproc := by
      intro he
      cases Fin.ext he
      exact hq rfl (hri ▸ hr)
    show (q : Nat) + 1 ≤ t.initproc
    rw [hinit]
    omega

theorem wakeParent (h : Awake s) (hf : Fathered s) (hp : s.pc p = .exitWake status q)
    (ht : p = q ∧ t = s ∨ s.lock q = none ∧ t = s.setProc q fun x => x.woken (s.parentChan p))
    (hs' : Seated (t.go p (.exitWake status (q + 1)))) :
    Awake (t.go p (.exitWake status (q + 1))) := by
  have hstate := woken_state ht
  have hself : (t.go p (.exitWake status (q + 1))).pc p = .exitWake status (q + 1) :=
    update_self ..
  have hhas : (s.pc p).hasWait = true := by rw [hp]; rfl
  have hno : ¬ s.Rousing := no_rousing hf.seated hhas (by simp [hp])
  have hnp : ∀ r, (t.go p (.exitWake status (q + 1))).Waiting r → r ≠ p :=
    fun r hr he => not_waiting hself (fun _ => rfl) (he ▸ hr)
  refine h.inside hf.seated hs' hhas hself rfl (fun _ => rfl)
    (fun r hr => (update_of_ne hr ..).trans (congrFun (Seated.wakeAt_pc ht) r))
    (fun r hr => ⟨(hstate r).2.2.1 hr, (hstate r).2.1⟩) (fun r hw hback hr => ?_)
    (fun r c hr hback hc hz => ?_)
  · rcases hr with ⟨_, next, hx, hpar, hn⟩ | ⟨_, pp', next, hx, -⟩ <;> cases hself.symm.trans hx
    replace hpar : (s.proc p).parent = some r := (hstate p).1 ▸ hpar
    rcases Nat.lt_succ_iff_lt_or_eq.mp hn with hn | hn
    · exact h.passed p r (.inl ⟨status, q, hp, hpar, hn⟩) (hback (hnp r hw))
    · cases Fin.ext hn
      rcases ht with ⟨rfl, -⟩ | ⟨hl, rfl⟩
      · exact hnp p hw rfl
      · have hne := hnp q hw
        have hch : s.parentChan p = .slot q := by
          unfold parentChan
          rw [hpar]
        rw [hch] at hw
        refine h.not_waiting_of_woken hf.seated hl (waiting_back ?_ (fun hst => ?_) hw)
        · exact update_of_ne hne ..
        · exact hst
  · exact absurd (h.waits r c (hback (hnp r hr)) ((hstate c).1 ▸ hc) ((hstate c).2.2.2 hz)).2 hno

theorem die {next : Nat} {e : List Exit} (h : Awake s) (hs : Seated s)
    (hp : s.pc p = .exitWake status next) (hn : NPROC ≤ next)
    (hs' : Seated { ((s.setProc p fun x => { x with xstate := status, state := .zombie }).setLock p
      (some p)).go p .exitZombie with exited := e }) :
    Awake { ((s.setProc p fun x => { x with xstate := status, state := .zombie }).setLock p
      (some p)).go p .exitZombie with exited := e } := by
  set t : Family := { ((s.setProc p fun x => { x with xstate := status, state := .zombie }).setLock p
    (some p)).go p .exitZombie with exited := e } with ht
  have hself : t.pc p = .exitZombie := update_self ..
  have hproc : ∀ r, r ≠ p → t.proc r = s.proc r := fun r hr => update_of_ne hr ..
  have hhas : (s.pc p).hasWait = true := by rw [hp]; rfl
  have hno : ¬ s.Rousing := no_rousing hs hhas (by simp [hp])
  refine h.inside hs hs' hhas hself rfl (fun _ => rfl) (fun r hr => update_of_ne hr ..)
    (fun r hr => ?_) (fun r _ _ hr => ?_) (fun r c hr hback hc hz => ?_)
  · have hne : r ≠ p := by
      rintro rfl
      simp [ht, Family.go, Family.setLock, Family.setProc] at hr
    rw [hproc r hne] at hr ⊢
    exact ⟨hr, rfl⟩
  · rcases hr with ⟨_, next, hx, -⟩ | ⟨_, pp', next, hx, -⟩ <;> cases hself.symm.trans hx
  · have hw := hback fun he => not_waiting hself (fun _ => rfl) (he ▸ hr)
    rcases eq_or_ne c p with rfl | hcp
    · have hpar : (s.proc c).parent = some r := by
        simpa [ht, Family.go, Family.setLock, Family.setProc] using hc
      exact absurd hw (h.passed c r (.inl ⟨status, next, hp, hpar, lt_of_lt_of_le r.isLt hn⟩))
    · rw [hproc c hcp] at hc hz
      exact absurd (h.waits r c hw hc hz).2 hno

theorem waiting_of_chan (h : Awake s) (hs : Seated s) (hst : (s.proc p).state = .sleeping)
    (hch : (s.proc p).chan = .slot p) : s.Waiting p := by
  have hpc := (h.chan p hst).mp hch
  have hfit := hs.fits p
  unfold Waiting
  rw [hst] at hfit ⊢
  match hx : s.pc p, hfit with
  | .asleep, _ | .sleepSet, _ => rfl
  | .otherAsleep, _ => exact absurd hx hpc

theorem step (hf : Fathered s) (h : Awake s) (hs : Step s s') : Awake s' := by
  have hfit := hf.seated.fits
  have hseat := hf.seated.step hs
  cases hs with
  | forkRelease p q hp | exit p st hp | handed p st pp hp | exitRelease p hp | exitSwitch p hp
  | skip p q st hp | waitEnd p _ _ hp | sleepFree p hp =>
    refine h.go rfl rfl rfl ?_ ?_ ?_ ?_ ?_ <;>
      simp [hp, Pc.waiting, Pc.scanned, Waiting, exits]
  | sleepSwitch p hp =>
    have hst : (s.proc p).state = .sleeping := by simpa [hp, Pc.fits] using hfit p
    refine h.go rfl rfl rfl ?_ ?_ ?_ ?_ ?_ <;>
      simp [hp, hst, Pc.waiting, Pc.scanned, Waiting, exits]
  | wait p hp hr hw =>
    rcases hp with hp | hp <;> refine h.go rfl rfl rfl ?_ ?_ ?_ ?_ ?_ <;>
      simp [hp, Pc.waiting, Pc.scanned, exits]
  | scanOn p q k k' hp hq =>
    refine h.go rfl rfl rfl ?_ ?_ ?_ ?_ (fun r hr => ?_) <;> simp [hp, Pc.waiting, exits]
    have hr : (r : Nat) < q + 1 := of_decide_eq_true hr
    rcases eq_or_ne r q with rfl | hne
    · exact .inr hq
    · exact .inl (decide_eq_true (by have := Fin.val_ne_of_ne hne; omega))
  | waitSleep p pp k hp hn =>
    refine h.go rfl rfl rfl ?_ ?_ ?_ ?_ (fun r _ => .inl ?_) <;> simp [hp, Pc.waiting, exits]
    exact decide_eq_true (lt_of_lt_of_le r.isLt hn)
  | wokenInit p st pp n hp hn =>
    refine h.go rfl rfl rfl ?_ ?_ ?_ ?_ ?_ <;> simp [hp, Pc.waiting, Pc.scanned, exits, hn]
  | lent q f hl hf => exact h.lent hf
  | yield p hp hr =>
    refine h.setProc (by simp) (by simp) (fun hw => ?_) (fun _ => rfl)
    rw [open_quiet hp] at hw
    cases hw
  | schedule p f hl hr hf hf' =>
    have hx := resumed_quiet (hr ▸ hfit p)
    refine h.ownGo (by simp [hf']) (by simp [hf']) ?_ hx.1 hx.2.1 hx.2.2.2
    rw [hf', hx.2.2.1]
    exact fun hw => absurd hw Bool.false_ne_true
  | sleepOther p a hp hr =>
    refine h.ownGo ?_ ?_ ?_ ?_ ?_ ?_ <;> simp [hp, Pc.waiting, exits, Pc.scanned]
  | sleepSet p hp =>
    refine h.ownGo ?_ ?_ ?_ ?_ ?_ ?_ <;> simp [hp, Pc.waiting, Waiting, exits, Pc.scanned]
  | alloc p q hp hr hl hu =>
    have hq := hf.seated.pc_of_unused hu
    have hne : p ≠ q := by
      rintro rfl
      cases hq.symm.trans hp
    have hkid : Awake ((s.setProc q fun x => x.found s.nextpid).go q .born) := by
      refine h.ownGo ?_ ?_ ?_ ?_ ?_ ?_ <;> simp [hq, Pc.waiting, exits, Pc.scanned, Proc.found]
    have hpc : ((s.setProc q fun x => x.found s.nextpid).go q .born).pc p = .user := by
      simpa [Family.go, Family.setProc, hne] using hp
    refine hkid.go (p := p) (x := .forkAlloc q) rfl rfl rfl ?_ ?_ ?_ ?_ ?_ <;>
      simp [hpc, Pc.waiting, exits, Pc.scanned]
  | abandon p q hp =>
    have hq := (hf.seated.child p q (by rw [hp]; rfl)).2
    have hne : p ≠ q := by
      rintro rfl
      cases hq.symm.trans hp
    have hkid : Awake ((s.setProc q Proc.freeproc).go q .free) := by
      refine h.ownGo ?_ ?_ ?_ ?_ ?_ ?_ <;> simp [hq, Pc.waiting, exits, Pc.scanned, Proc.freeproc]
    have hpc : ((s.setProc q Proc.freeproc).go q .free).pc p = .forkAlloc q := by
      simpa [Family.go, Family.setProc, hne] using hp
    refine hkid.go (p := p) (x := .user) rfl rfl rfl ?_ ?_ ?_ ?_ ?_ <;>
      simp [hpc, Pc.waiting, exits, Pc.scanned]
  | setParent p q hp hw hr =>
    obtain ⟨hu, hq⟩ := hf.seated.child p q (by rw [hp]; rfl)
    have hkid : Awake (s.setProc q fun x => { x with parent := some p }) := by
      refine h.setProc ?_ ?_ ?_ ?_ <;> simp [hu, hq, Pc.waiting, exits]
    refine hkid.go (p := p) (x := .forkReady q) rfl rfl rfl ?_ ?_ ?_ ?_ ?_ <;>
      simp [Family.setProc, hp, Pc.waiting, exits, Pc.scanned]
  | ready p q hp hl hr =>
    obtain ⟨hu, hq⟩ := hf.seated.child p q (by rw [hp]; rfl)
    have hkid : Awake (s.setProc q fun x => { x with state := .runnable }) := by
      refine h.setProc ?_ ?_ ?_ ?_ <;> simp [hq, Pc.waiting]
    refine hkid.go (p := p) (x := .user) rfl rfl rfl ?_ ?_ ?_ ?_ ?_ <;>
      simp [Family.setProc, hp, Pc.waiting, exits, Pc.scanned]
  | reap p q k hp hq hl hz =>
    have hgone := hf.seated.pc_of_zombie hl hz
    have hne : p ≠ q := by
      rintro rfl
      cases hgone.symm.trans hp
    have hkid : Awake ((s.setProc q Proc.freeproc).go q .free) := by
      refine h.ownGo ?_ ?_ ?_ ?_ ?_ ?_ <;>
        simp [hgone, Pc.waiting, exits, Pc.scanned, Proc.freeproc]
    have hpc : ((s.setProc q Proc.freeproc).go q .free).pc p = .waitScan q k := by
      simpa [Family.go, Family.setProc, hne] using hp
    refine hkid.go (p := p) (x := .user) rfl rfl rfl ?_ ?_ ?_ ?_ ?_ <;>
      simp [hpc, Pc.waiting, exits, Pc.scanned]
  | hand p q st hp hq => exact h.hand hf.seated hp hseat
  | wakeInit p q st pp t hp ht => exact h.wakeInit hf hp ht hseat
  | wakeParent p q st t hp ht => exact h.wakeParent hf hp ht hseat
  | die p st n hp hn => exact h.die hf.seated hp hn hseat
  | sleepLock p hp => exact h.sleepLock hf.seated hp hseat

end Awake

/-! What is in the books. -/

structure Recorded (s : Family) : Prop where
  died : ∀ q, (s.proc q).state = .zombie →
    ⟨q, s.gen q, (s.proc q).pid, (s.proc q).xstate⟩ ∈ s.exited
  exited : ∀ e ∈ s.exited, e.gen ≤ s.gen e.slot ∧
    (e.gen = s.gen e.slot → (s.proc e.slot).state = .zombie ∨ (s.proc e.slot).state = .unused)
  exitedOnce : (s.exited.map Exit.key).Nodup
  waited : ∀ w ∈ s.waited, w.found ∈ s.exited ∧ w.parent = some w.who ∧
    (w.found.gen = s.gen w.found.slot → (s.proc w.found.slot).state = .unused)
  waitedOnce : (s.waited.map fun w => w.found.key).Nodup

namespace Recorded

section
variable (h : Recorded s)
include h

section
variable (hgen : s'.gen = s.gen) (hexited : s'.exited = s.exited) (hwaited : s'.waited = s.waited)
include hgen hexited hwaited

theorem frame (hzombie : ∀ q, (s'.proc q).state = .zombie → (s.proc q).state = .zombie ∧
      (s'.proc q).pid = (s.proc q).pid ∧ (s'.proc q).xstate = (s.proc q).xstate)
    (hstate : ∀ q, (s.proc q).state = .zombie ∨ (s.proc q).state = .unused →
      (s'.proc q).state = (s.proc q).state) : Recorded s' := by
  refine ⟨fun q hz => ?_, fun e he => ?_, ?_, fun w hw => ?_, ?_⟩
  · obtain ⟨hz, hpid, hx⟩ := hzombie q hz
    rw [hgen, hexited, hpid, hx]
    exact h.died q hz
  · rw [hexited] at he
    rw [hgen]
    refine ⟨(h.exited e he).1, fun hg => ?_⟩
    have hst := (h.exited e he).2 hg
    rwa [hstate e.slot hst]
  · rw [hexited]
    exact h.exitedOnce
  · rw [hwaited] at hw
    obtain ⟨hfound, hwho, hfree⟩ := h.waited w hw
    rw [hexited, hgen]
    refine ⟨hfound, hwho, fun hg => ?_⟩
    rw [hstate _ (.inr (hfree hg)), hfree hg]
  · rw [hwaited]
    exact h.waitedOnce

theorem setProc {x : Proc} (hproc : s'.proc = update s.proc q x)
    (hx : (s.proc q).state ≠ .zombie ∧ (s.proc q).state ≠ .unused ∧ x.state ≠ .zombie ∨
      x.state = (s.proc q).state ∧ x.pid = (s.proc q).pid ∧ x.xstate = (s.proc q).xstate) :
    Recorded s' := by
  have hself : s'.proc q = x := by rw [hproc, update_self]
  have hother : ∀ r, r ≠ q → s'.proc r = s.proc r := fun r hr => by
    rw [hproc, update_of_ne hr]
  refine h.frame hgen hexited hwaited (fun r hz => ?_) (fun r hr => ?_)
  · rcases eq_or_ne r q with rfl | hne
    · rw [hself] at hz ⊢
      rcases hx with ⟨-, -, hx⟩ | ⟨hst, hpid, hx⟩
      · exact absurd hz hx
      · exact ⟨hst ▸ hz, hpid, hx⟩
    · rw [hother r hne] at hz ⊢
      exact ⟨hz, rfl, rfl⟩
  · rcases eq_or_ne r q with rfl | hne
    · rw [hself]
      rcases hx with ⟨hz, hu, -⟩ | ⟨hst, -⟩
      · exact absurd hr (by simp [hz, hu])
      · exact hst
    · rw [hother r hne]

theorem lent {x : Proc} (hproc : s'.proc = update s.proc q x) (hx : Lent (s.proc q) x) :
    Recorded s' := by
  refine h.setProc hgen hexited hwaited hproc ?_
  rcases hx with ⟨⟨-, hpid, hx⟩, ⟨hst, -⟩ | ⟨hst, hst'⟩⟩
  · exact .inr ⟨hst, hpid, hx⟩
  · exact .inl (by simp [hst, hst'])

end

theorem alloc {n : BitVec 32} (hu : (s.proc q).state = .unused)
    (hgen : s'.gen = update s.gen q (s.gen q + 1)) (hexited : s'.exited = s.exited)
    (hwaited : s'.waited = s.waited)
    (hproc : s'.proc = update s.proc q ((s.proc q).found n)) : Recorded s' := by
  have hself : (s'.proc q).state = .used := by
    rw [hproc, update_self]
    rfl
  have hother : ∀ r, r ≠ q → s'.proc r = s.proc r ∧ s'.gen r = s.gen r := fun r hr => by
    rw [hproc, hgen, update_of_ne hr, update_of_ne hr]
    exact ⟨rfl, rfl⟩
  have hnew : s'.gen q = s.gen q + 1 := by rw [hgen, update_self]
  refine ⟨fun r hz => ?_, fun e he => ?_, hexited ▸ h.exitedOnce, fun w hw => ?_,
    hwaited ▸ h.waitedOnce⟩
  · have hne : r ≠ q := by
      rintro rfl
      cases hself.symm.trans hz
    rw [(hother r hne).1] at hz ⊢
    rw [(hother r hne).2, hexited]
    exact h.died r hz
  · rw [hexited] at he
    obtain ⟨hle, hst⟩ := h.exited e he
    rcases eq_or_ne e.slot q with heq | hne
    · rw [heq] at hle ⊢
      rw [hnew]
      exact ⟨by omega, by omega⟩
    · rw [(hother _ hne).1, (hother _ hne).2]
      exact ⟨hle, hst⟩
  · rw [hwaited] at hw
    obtain ⟨hfound, hwho, hst⟩ := h.waited w hw
    refine ⟨hexited ▸ hfound, hwho, fun hg => ?_⟩
    rcases eq_or_ne w.found.slot q with heq | hne
    · have hle := (h.exited _ hfound).1
      rw [heq] at hg hle
      rw [hnew] at hg
      omega
    · rw [(hother _ hne).2] at hg
      rw [(hother _ hne).1]
      exact hst hg

theorem die (hr : (s.proc p).state = .running) (hgen : s'.gen = s.gen)
    (hexited : s'.exited = s.exited ++ [⟨p, s.gen p, (s.proc p).pid, status⟩])
    (hwaited : s'.waited = s.waited)
    (hproc : s'.proc = update s.proc p
      { s.proc p with xstate := status, state := .zombie }) : Recorded s' := by
  have hself : s'.proc p = { s.proc p with xstate := status, state := .zombie } := by
    rw [hproc, update_self]
  have hother : ∀ r, r ≠ p → s'.proc r = s.proc r := fun r hr => by
    rw [hproc, update_of_ne hr]
  have hnew : ∀ e ∈ s.exited, e.gen = s.gen e.slot → e.slot ≠ p := by
    rintro e he hg rfl
    rcases (h.exited e he).2 hg with hst | hst <;> cases hr.symm.trans hst
  refine ⟨fun q hz => ?_, fun e he => ?_, ?_, fun w hw => ?_, hwaited ▸ h.waitedOnce⟩
  · rw [hexited, hgen, List.mem_append]
    rcases eq_or_ne q p with rfl | hne
    · rw [hself]
      exact .inr (List.mem_singleton_self _)
    · rw [hother q hne] at hz ⊢
      exact .inl (h.died q hz)
  · rw [hexited, List.mem_append, List.mem_singleton] at he
    rw [hgen]
    rcases he with he | rfl
    · refine ⟨(h.exited e he).1, fun hg => ?_⟩
      rw [hother _ (hnew e he hg)]
      exact (h.exited e he).2 hg
    · exact ⟨le_rfl, fun _ => .inl (by rw [hself])⟩
  · rw [hexited, List.map_append, List.nodup_append]
    refine ⟨h.exitedOnce, List.nodup_singleton _, ?_⟩
    intro a ha b hb hab
    obtain ⟨e, he, rfl⟩ := List.mem_map.mp ha
    obtain rfl : b = _ := by simpa using hb
    obtain ⟨hslot, hg⟩ := Prod.mk.inj hab
    exact hnew e he (hslot ▸ hg) hslot
  · rw [hwaited] at hw
    obtain ⟨hfound, hwho, hst⟩ := h.waited w hw
    refine ⟨by rw [hexited]; exact List.mem_append_left _ hfound, hwho, fun hg => ?_⟩
    rw [hgen] at hg
    rw [hother _ (hnew _ hfound hg)]
    exact hst hg

theorem reap (hq : (s.proc q).parent = some p) (hz : (s.proc q).state = .zombie) :
    Recorded (s.reap p q) := by
  have hself : ((s.reap p q).proc q).state = .unused := by simp [Family.reap, Family.setProc,
    Family.go, setWait, Proc.freeproc]
  have hother : ∀ r, r ≠ q → (s.reap p q).proc r = s.proc r := fun r hr =>
    update_of_ne hr ..
  have hnew : ∀ w ∈ s.waited, w.found.gen = s.gen w.found.slot → w.found.slot ≠ q := by
    rintro w hw hg rfl
    cases hz.symm.trans ((h.waited w hw).2.2 hg)
  refine ⟨fun r hr => ?_, fun e he => ⟨(h.exited e he).1, fun hg => ?_⟩, h.exitedOnce,
    fun w hw => ?_, ?_⟩
  · have hne : r ≠ q := by
      rintro rfl
      cases hself.symm.trans hr
    rw [hother r hne] at hr ⊢
    exact h.died r hr
  · rcases eq_or_ne e.slot q with heq | hne
    · rw [heq]
      exact .inr hself
    · rw [hother _ hne]
      exact (h.exited e he).2 hg
  · rcases List.mem_append.mp hw with hw | hw
    · obtain ⟨hfound, hwho, hst⟩ := h.waited w hw
      refine ⟨hfound, hwho, fun hg => ?_⟩
      rw [hother _ (hnew w hw hg)]
      exact hst hg
    · obtain rfl : w = _ := List.mem_singleton.mp hw
      exact ⟨h.died q hz, hq, fun _ => hself⟩
  · show ((s.waited ++ [_]).map fun w : Waited => w.found.key).Nodup
    rw [List.map_append, List.nodup_append]
    refine ⟨h.waitedOnce, List.nodup_singleton _, ?_⟩
    intro a ha b hb hab
    obtain ⟨w, hw, rfl⟩ := List.mem_map.mp ha
    obtain rfl : b = _ := by simpa using hb
    obtain ⟨hslot, hg⟩ := Prod.mk.inj hab
    exact hnew w hw (hslot ▸ hg) hslot

theorem wakeAt {chan : Chan}
    (ht : p = q ∧ t = s ∨ s.lock q = none ∧ t = s.setProc q fun x => x.woken chan) :
    Recorded t := by
  rcases ht with ⟨-, rfl⟩ | ⟨-, rfl⟩
  · exact h
  · exact h.lent rfl rfl rfl rfl (woken_lent ..)

end

theorem step (hs : Seated s) (h : Recorded s) (hstep : Step s s') : Recorded s' := by
  have hfit := hs.fits
  cases hstep with
  | schedule p f hl hr hf hf' => exact h.setProc rfl rfl rfl rfl (.inl (by simp [hr, hf']))
  | yield p hp hr | sleepOther p a hp hr => exact h.setProc rfl rfl rfl rfl (.inl (by simp [hr]))
  | lent q f hl hf => exact h.lent rfl rfl rfl rfl hf
  | alloc p q hp hr hl hu => exact h.alloc hu rfl rfl rfl rfl
  | abandon p q hp =>
    have hu := (hs.child p q (by rw [hp]; rfl)).1
    exact h.setProc rfl rfl rfl rfl (.inl (by simp [hu, Proc.freeproc]))
  | setParent p q hp hw hr => exact h.setProc rfl rfl rfl rfl (.inr ⟨rfl, rfl, rfl⟩)
  | ready p q hp hl hr =>
    have hu := (hs.child p q (by rw [hp]; rfl)).1
    exact h.setProc rfl rfl rfl rfl (.inl (by simp [hu]))
  | hand p q st hp hq => exact h.setProc rfl rfl rfl rfl (.inr ⟨rfl, rfl, rfl⟩)
  | sleepSet p hp =>
    have hrun : (s.proc p).state = .running := by simpa [hp, Pc.fits] using hfit p
    exact h.setProc rfl rfl rfl rfl (.inl (by simp [hrun]))
  | wakeInit p q st pp t hp ht | wakeParent p q st t hp ht =>
    exact (h.wakeAt ht).frame rfl rfl rfl (fun _ hz => ⟨hz, rfl, rfl⟩) (fun _ _ => rfl)
  | die p st n hp hn =>
    have hrun : (s.proc p).state = .running := by simpa [hp, Pc.fits] using hfit p
    exact h.die hrun rfl rfl rfl rfl
  | reap p q k hp hq hl hz => exact h.reap hq hz
  | forkRelease | exit | skip | handed | wokenInit | exitRelease | exitSwitch | wait | scanOn
  | waitEnd | waitSleep | sleepLock | sleepFree | sleepSwitch =>
    exact h.frame rfl rfl rfl (fun _ hz => ⟨hz, rfl, rfl⟩) (fun _ _ => rfl)

end Recorded

theorem boot_proc (q : Fin NPROC) :
    q = boot.initproc ∧ (boot.proc q).state = .runnable ∧ (boot.proc q).parent = none ∧
      boot.pc q = .born ∨
    q ≠ boot.initproc ∧ boot.proc q = Proc.zero ∧ boot.pc q = .free := by
  rcases eq_or_ne q boot.initproc with rfl | hne
  · exact .inl ⟨rfl, rfl, rfl, rfl⟩
  · have hne' : q ≠ (0 : Fin NPROC) := hne
    exact .inr ⟨hne, by simp [boot, Table.boot, hne'], by simp [boot, Table.boot, hne']⟩

theorem Seated.boot : Seated boot := by
  have hpc : ∀ q, (Family.boot.pc q).hasWait = false ∧ (Family.boot.pc q).hasOwn = false ∧
      (Family.boot.pc q).nurses = none := by
    intro q
    rcases boot_proc q with ⟨-, -, -, hq⟩ | ⟨-, -, hq⟩ <;> rw [hq] <;> exact ⟨rfl, rfl, rfl⟩
  refine ⟨fun p => ?_, fun p => ?_, fun p => ?_, fun p q => ?_, fun p p' q => ?_⟩
  · rw [(hpc p).1]
    simp [Family.boot]
  · simp [(hpc p).2.1]
  · rcases boot_proc p with ⟨-, hst, -, hp⟩ | ⟨-, hst, hp⟩ <;> rw [hp, hst] <;> rfl
  · simp [(hpc p).2.2]
  · simp [(hpc p).2.2]

theorem Fathered.boot : Fathered boot := by
  have hparent : ∀ q, (Family.boot.proc q).parent = none := by
    intro q
    rcases boot_proc q with ⟨-, -, hq, -⟩ | ⟨-, hq, -⟩ <;> rw [hq]
    rfl
  refine ⟨Seated.boot, fun q p hq => ?_, fun q hq hu => ?_, rfl, fun p hp => ?_, fun p q _ => ?_,
    fun p q hp => ?_⟩
  · cases (hparent q).symm.trans hq
  · rcases boot_proc q with ⟨he, -⟩ | ⟨-, hz, -⟩
    · exact absurd he hq
    · exact absurd (by rw [hz]; rfl) hu
  · rcases boot_proc p with ⟨-, -, -, hx⟩ | ⟨-, -, hx⟩ <;> rw [hx] at hp <;> cases hp
  · simp [hparent q]
  · rcases boot_proc p with ⟨-, -, -, hx⟩ | ⟨-, -, hx⟩ <;> cases hx.symm.trans hp

theorem Awake.boot : Awake boot := by
  have hst : ∀ q, (Family.boot.proc q).state ≠ .sleeping ∧ (Family.boot.proc q).state ≠ .zombie := by
    intro q
    rcases boot_proc q with ⟨-, hq, -⟩ | ⟨-, hq, -⟩ <;> rw [hq] <;> decide
  have hpc : ∀ q, Family.boot.pc q = .born ∨ Family.boot.pc q = .free := fun q =>
    (boot_proc q).imp (fun h => h.2.2.2) (fun h => h.2.2)
  refine ⟨fun p hp => absurd hp (hst p).1, fun x p hx => ?_, fun p q _ _ hz => absurd hz (hst q).2,
    fun p q _ _ => (hst q).2⟩
  rcases hx with ⟨_, _, hx, -⟩ | ⟨_, _, _, hx, -⟩ <;> rcases hpc x with hx' | hx' <;>
    cases hx'.symm.trans hx

theorem Recorded.boot : Recorded boot := by
  refine ⟨fun q hz => ?_, by simp [Family.boot], by simp [Family.boot], by simp [Family.boot],
    by simp [Family.boot]⟩
  rcases boot_proc q with ⟨-, hq, -⟩ | ⟨-, hq, -⟩ <;> rw [hq] at hz <;> cases hz

def Kept (s : Family) : Prop := Fathered s ∧ Awake s ∧ Recorded s

theorem kept_boot : Kept boot := ⟨Fathered.boot, Awake.boot, Recorded.boot⟩

theorem kept_act {a : FamAct} (h : Kept s) (hs : s.act a = .ok s') : Kept s' := by
  obtain ⟨hf, ha, hrec⟩ := h
  have hstep := act_step hs
  exact ⟨hf.step hstep, ha.step hf hstep, hrec.step hf.seated hstep⟩

theorem exit_status_delivered_once (hr : Shared.Reaches act boot s) :
    (s.waitLock = none →
      (∀ q, q ≠ s.initproc → (s.proc q).state ≠ .unused → (s.proc q).state ≠ .used →
        ∃ p, (s.proc q).parent = some p ∧ (s.proc p).state ≠ .unused ∧
          (s.proc p).state ≠ .zombie) ∧
      ∀ p q, (s.proc p).state = .sleeping → (s.proc p).chan = .slot p →
        (s.proc q).parent = some p → (s.proc q).state ≠ .zombie) ∧
    (∀ w ∈ s.waited, w.found ∈ s.exited ∧ w.parent = some w.who ∧
      (w.found.gen = s.gen w.found.slot → (s.proc w.found.slot).state = .unused)) ∧
    (s.exited.map Exit.key).Nodup ∧ (s.waited.map fun w => w.found.key).Nodup := by
  obtain ⟨hf, ha, hrec⟩ := hr.inv kept_boot kept_act
  refine ⟨fun hfree => ⟨fun q hq hu hu' => ?_, fun p q hst hch hq hz => ?_⟩, hrec.waited,
    hrec.exitedOnce, hrec.waitedOnce⟩
  · obtain ⟨p, hp⟩ := Option.ne_none_iff_exists'.mp (hf.begun q hq hu hu')
    have halive := hf.alive q p hp
    refine ⟨p, hp, ?_, ?_⟩ <;> intro hst <;> rw [hst] at halive <;> cases halive
  · have hw : s.Waiting p := ha.waiting_of_chan hf.seated hst hch
    obtain ⟨-, x, status, pp, next, hx, -⟩ := ha.waits p q hw hq hz
    cases hfree.symm.trans ((hf.seated.wait x).mpr (by rw [hx]; rfl))

def waitForChild (p q : Fin NPROC) : List FamAct :=
  [.schedule p, .alloc p q, .next p true, .next p true, .next p true, .schedule q, .exit q 7] ++
    List.replicate (2 * NPROC + 4) (.next q true) ++
    .wait p :: List.replicate (q + 1) (.next p true)

theorem exit_status_delivered_once_waitForChild :
    ∃ s, Run.exec (Shared.step act) boot (waitForChild 0 1) = some s ∧ s.waitLock = none ∧
      s.waited = [⟨0, some 0, ⟨1, 1, 2, 7⟩⟩] ∧ ⟨1, 1, 2, 7⟩ ∈ s.exited ∧
      (s.proc 1).state = .unused := by
  have hrun : (Run.exec (Shared.step act) boot (waitForChild 0 1)).map
      (fun s => (s.waitLock, s.waited, s.gen 1)) =
      some (none, [⟨0, some 0, ⟨1, 1, 2, 7⟩⟩], 1) := by
    decide +kernel
  obtain ⟨s, hs, hst⟩ := Option.map_eq_some_iff.mp hrun
  obtain ⟨hfree, hw, hgen⟩ : s.waitLock = none ∧ s.waited = [⟨0, some 0, ⟨1, 1, 2, 7⟩⟩] ∧
      s.gen 1 = 1 := by simpa using hst
  obtain ⟨-, hwaited, -⟩ := exit_status_delivered_once ⟨_, hs⟩
  obtain ⟨hfound, -, hunused⟩ := hwaited _ (by rw [hw]; exact List.mem_singleton_self _)
  exact ⟨s, hs, hfree, hw, hfound, hunused hgen.symm⟩

end Family

end Xv6Audit.Procs
