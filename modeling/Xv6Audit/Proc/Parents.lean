import Xv6Audit.Proc.Family

/-! Where the processes are in `fork`, `exit` and `wait`, and who their parents are. -/
namespace Xv6Audit.Procs
open Function

namespace Pc

def hasWait : Pc → Bool
  | .reparent _ _ => true
  | .reparentWake _ _ _ => true
  | .exitWake _ _ => true
  | .exitZombie => true
  | .waitScan _ _ => true
  | .waitSleep => true
  | .sleepLocked => true
  | _ => false

def hasOwn : Pc → Bool
  | .exitZombie => true
  | .exitSched => true
  | .sleepLocked => true
  | .sleepFree => true
  | .sleepSet => true
  | _ => false

def fits : Pc → ProcState → Bool
  | .free, st => st == .unused
  | .born, st => st == .used || st == .runnable
  | .user, st => st == .running || st == .runnable
  | .forkParent _, st => st == .running || st == .runnable
  | .forkReady _, st => st == .running || st == .runnable
  | .waitAgain, st => st == .running || st == .runnable
  | .otherAsleep, st => st == .sleeping || st == .runnable
  | .asleep, st => st == .sleeping || st == .runnable
  | .sleepSet, st => st == .sleeping
  | .exitZombie, st => st == .zombie
  | .exitSched, st => st == .zombie
  | .gone, st => st == .zombie
  | _, st => st == .running

def nurses : Pc → Option (Fin NPROC)
  | .forkAlloc np => some np
  | .forkParent np => some np
  | .forkReady np => some np
  | _ => none

def exits : Pc → Bool
  | .reparent _ _ => true
  | .reparentWake _ _ _ => true
  | .exitWake _ _ => true
  | _ => false

def cleared : Pc → Fin NPROC → Bool
  | .reparent _ pp, q => q < pp
  | .reparentWake _ pp _, q => q ≤ pp
  | .exitWake _ _, _ => true
  | _, _ => false

end Pc

def ProcState.alive : ProcState → Bool
  | .sleeping => true
  | .runnable => true
  | .running => true
  | _ => false

namespace Family
open Pc
variable {s s' : Family} {p q : Fin NPROC}

structure Seated (s : Family) : Prop where
  wait : ∀ p, s.waitLock = some p ↔ (s.pc p).hasWait = true
  held : ∀ p, (s.pc p).hasOwn = true → s.lock p = some p
  fits : ∀ p, (s.pc p).fits (s.proc p).state = true
  child : ∀ p q, (s.pc p).nurses = some q → (s.proc q).state = .used ∧ s.pc q = .born
  nurse : ∀ p p' q, (s.pc p).nurses = some q → (s.pc p').nurses = some q → p = p'

variable {f : Proc → Proc} {x : Pc} {chan : Chan} {t : Family}

namespace Seated

theorem own (h : Seated s) (hproc : ∀ r, r ≠ p → s'.proc r = s.proc r)
    (hlock : ∀ r, r ≠ p → s'.lock r = s.lock r) (hpc : ∀ r, r ≠ p → s'.pc r = s.pc r)
    (hwait : s'.waitLock = s.waitLock ∧ (s'.pc p).hasWait = (s.pc p).hasWait ∨
      s.waitLock = none ∧ s'.waitLock = some p ∧ (s'.pc p).hasWait = true ∨
      (s.pc p).hasWait = true ∧ s'.waitLock = none ∧ (s'.pc p).hasWait = false)
    (hown : (s'.pc p).hasOwn = true → s'.lock p = some p)
    (hfits : (s'.pc p).fits (s'.proc p).state = true)
    (hused : (s.proc p).state ≠ .used)
    (hnurse : ∀ q, (s'.pc p).nurses = some q → (s.pc p).nurses = some q) : Seated s' := by
  obtain ⟨h1, h2, h3, h4, h5⟩ := h
  constructor
  · intro r
    rcases eq_or_ne r p with rfl | hne
    · grind -ring -linarith -lia
    · rw [hpc r hne]
      grind -ring -linarith -lia
  all_goals grind -ring -linarith -lia

theorem setProc (h : Seated s) (hfits : (s.pc q).fits (f (s.proc q)).state = true)
    (hused : (s.proc q).state = .used → (f (s.proc q)).state = .used) : Seated (s.setProc q f) := by
  obtain ⟨h1, h2, h3, h4, h5⟩ := h
  constructor <;> simp only [Family.setProc] <;> grind -ring -linarith -lia [update]

theorem fits_runnable (hx : x.fits .sleeping = true) (ho : x.hasOwn = false) :
    x.fits .runnable = true := by
  match x, hx, ho with
  | .otherAsleep, _, _ | .asleep, _, _ => rfl

section
variable (h : Seated s)
include h

theorem lent (hl : s.lock q = none) (hf : Lent (s.proc q) (f (s.proc q))) :
    Seated (s.setProc q f) := by
  have hfit := h.fits q
  have ho : (s.pc q).hasOwn = false := by
    by_contra ho
    cases hl.symm.trans (h.held q (Bool.eq_true_of_not_eq_false ho))
  rcases hf with ⟨-, ⟨hst, -⟩ | ⟨hst, hst'⟩⟩
  · exact h.setProc (hst ▸ hfit) (fun hu => hst.trans hu)
  · refine h.setProc ?_ (by simp [hst])
    rw [hst] at hfit
    rw [hst']
    exact fits_runnable hfit ho

theorem pc_of_unused (hu : (s.proc q).state = .unused) : s.pc q = .free := by
  have hfit := h.fits q
  rw [hu] at hfit
  cases hx : s.pc q <;> rw [hx] at hfit <;> first | rfl | cases hfit

theorem pc_of_zombie (hl : s.lock q = none) (hz : (s.proc q).state = .zombie) : s.pc q = .gone := by
  have hfit := h.fits q
  have hown := h.held q
  rw [hz] at hfit
  cases hx : s.pc q <;> rw [hx] at hfit hown <;>
    first | rfl | cases hl.symm.trans (hown rfl) | cases hfit

theorem alloc (hp : s.pc p = .user) (hr : (s.proc p).state = .running)
    (hu : (s.proc q).state = .unused) :
    Seated { (((s.setProc q fun x => x.found s.nextpid).setLock q (some p)).go q .born).go p
        (.forkAlloc q) with
      nextpid := s.nextpid + 1
      gen := update s.gen q (s.gen q + 1) } := by
  have hq : s.pc q = .free := h.pc_of_unused hu
  have hno : ∀ r, (s.pc r).nurses ≠ some q := by
    intro r hr
    cases hu.symm.trans (h.child r q hr).1
  have hne : q ≠ p := by
    rintro rfl
    cases hq.symm.trans hp
  obtain ⟨h1, h2, h3, h4, h5⟩ := h
  constructor <;> simp only [Family.setProc, setLock, go] <;>
    grind -ring -linarith -lia [update, Proc.found, hasWait, hasOwn, Pc.fits, nurses]

theorem abandon (hp : s.pc p = .forkAlloc q) :
    Seated ((((s.setProc q Proc.freeproc).setLock q none).go q .free).go p .user) := by
  obtain ⟨hu, hq⟩ := h.child p q (by rw [hp]; rfl)
  have hno : ∀ r, (s.pc r).nurses = some q → r = p := fun r hr =>
    h.nurse r p q hr (by rw [hp]; rfl)
  have hne : q ≠ p := by
    rintro rfl
    cases hq.symm.trans hp
  obtain ⟨h1, h2, h3, h4, h5⟩ := h
  constructor <;> simp only [Family.setProc, setLock, go] <;>
    grind -ring -linarith -lia [update, Proc.freeproc, hasWait, hasOwn, Pc.fits, nurses]

theorem ready (hp : s.pc p = .forkReady q) :
    Seated ((s.setProc q fun x => { x with state := .runnable }).go p .user) := by
  obtain ⟨hu, hq⟩ := h.child p q (by rw [hp]; rfl)
  have hno : ∀ r, (s.pc r).nurses = some q → r = p := fun r hr =>
    h.nurse r p q hr (by rw [hp]; rfl)
  have hne : q ≠ p := by
    rintro rfl
    cases hq.symm.trans hp
  obtain ⟨h1, h2, h3, h4, h5⟩ := h
  constructor <;> simp only [Family.setProc, go] <;>
    grind -ring -linarith -lia [update, hasWait, hasOwn, Pc.fits, nurses]

theorem reap {havekids : Bool} (hp : s.pc p = .waitScan q havekids) (hl : s.lock q = none)
    (hz : (s.proc q).state = .zombie) : Seated (s.reap p q) := by
  have hq : s.pc q = .gone := h.pc_of_zombie hl hz
  have hno : ∀ r, (s.pc r).nurses ≠ some q := by
    intro r hr
    cases hz.symm.trans (h.child r q hr).1
  have hne : q ≠ p := by
    rintro rfl
    cases hq.symm.trans hp
  have hw : s.waitLock = some p := (h.wait p).mpr (by rw [hp]; rfl)
  obtain ⟨h1, h2, h3, h4, h5⟩ := h
  constructor <;> simp only [Family.reap, Family.setProc, setWait, go] <;>
    grind -ring -linarith -lia [update, Proc.freeproc, hasWait, hasOwn, Pc.fits, nurses]

end

theorem resumed_fits (hx : x.fits .runnable = true) :
    x.resumed.fits .running = true ∧ x.resumed.hasWait = x.hasWait ∧ x.resumed.hasOwn = false ∧
      x.resumed.nurses = x.nurses := by
  match x, hx with
  | .born, _ | .user, _ | .forkParent _, _ | .forkReady _, _ | .waitAgain, _ | .otherAsleep, _
  | .asleep, _ => exact ⟨rfl, rfl, rfl, rfl⟩

theorem setLock {l : Option (Fin NPROC)} (h : Seated s) (hq : (s.pc q).hasOwn = false) :
    Seated (s.setLock q l) := by
  refine { h with held := fun r hr => ?_ }
  have hne : r ≠ q := by
    rintro rfl
    cases hq.symm.trans hr
  exact (update_of_ne hne ..).trans (h.held r hr)

theorem go (h : Seated s) (hw : x.hasWait = (s.pc p).hasWait) (ho : x.hasOwn = false)
    (hf : x.fits (s.proc p).state = true) (hu : (s.proc p).state ≠ .used)
    (hn : ∀ q, x.nurses = some q → (s.pc p).nurses = some q) : Seated (s.go p x) := by
  apply h.own (p := p) <;> simp_all [Family.go]

theorem wakeAt (h : Seated s)
    (ht : p = q ∧ t = s ∨ s.lock q = none ∧ t = s.setProc q fun x => x.woken chan) : Seated t := by
  rcases ht with ⟨-, rfl⟩ | ⟨hl, rfl⟩
  · exact h
  · exact h.lent hl (woken_lent ..)

theorem wakeAt_pc (ht : p = q ∧ t = s ∨ s.lock q = none ∧ t = s.setProc q fun x => x.woken chan) :
    t.pc = s.pc := by
  rcases ht with ⟨-, rfl⟩ | ⟨-, rfl⟩ <;> rfl

theorem not_sleeping (h : Seated s) (hp : (s.pc p).hasWait = true) :
    (s.proc p).state ≠ .sleeping := by
  intro hst
  have hfit := h.fits p
  rw [hst] at hfit
  cases hx : s.pc p <;> rw [hx] at hp hfit <;> first | cases hp; done | cases hfit

theorem one_nurse {y : Pc} (h : Seated s) (hp : s.pc p = x) (hx : x.nurses = some q)
    (hy : y.nurses = some q) (hne : x ≠ y) (r : Fin NPROC) : s.pc r ≠ y := by
  rintro hr
  cases h.nurse p r q (by rw [hp]; exact hx) (by rw [hr]; exact hy)
  exact hne (hp.symm.trans hr)

theorem step (h : Seated s) (hs : Step s s') : Seated s' := by
  cases hs with
  | schedule p f hl hr hf hf' =>
    have hfit := h.fits p
    rw [hr] at hfit
    have := resumed_fits hfit
    apply h.own (p := p) <;> simp_all [Family.setProc, Family.go]
  | yield p hp hr =>
    refine h.setProc ?_ (by simp [hr])
    match hx : s.pc p, hp with
    | .user, _ | .forkParent _, _ | .forkReady _, _ | .waitAgain, _ => rfl
  | lent q f hl hf => exact h.lent hl hf
  | alloc p q hp hr hl hu => exact h.alloc hp hr hu
  | abandon p q hp => exact h.abandon hp
  | forkRelease p q hp =>
    have hfit := h.fits p
    have hq := (h.child p q (by rw [hp]; rfl)).2
    have hrun : (s.proc p).state = .running := by simpa [hp, Pc.fits] using hfit
    apply (h.setLock (l := none) (by rw [hq]; rfl)).go (p := p) <;>
      simp [Family.setLock, hp, hrun, hasWait, hasOwn, Pc.fits, nurses]
  | setParent p q hp hw hr =>
    have hq := (h.child p q (by rw [hp]; rfl)).2
    have hne : p ≠ q := by
      rintro rfl
      cases hq.symm.trans hp
    have hset : Seated (s.setProc q fun x => { x with parent := some p }) :=
      h.setProc (h.fits q) id
    apply hset.go (p := p) <;>
      simp [Family.setProc, hp, hr, hne, hasWait, hasOwn, Pc.fits, nurses]
  | ready p q hp hl hr => exact h.ready hp
  | hand p q st hp hq =>
    have hset : Seated (s.setProc q fun x => { x with parent := some s.initproc }) :=
      h.setProc (h.fits q) id
    have hfit := hset.fits p
    have hpc : (s.setProc q fun x => { x with parent := some s.initproc }).pc p = .reparent st q := hp
    rw [hpc] at hfit
    apply hset.go (p := p) <;> simp_all [hasWait, hasOwn, Pc.fits, nurses]
  | wakeInit p q st pp t hp ht | wakeParent p q st t hp ht =>
    have hfit := (h.wakeAt ht).fits p
    apply (h.wakeAt ht).go (p := p) <;>
      simp_all [wakeAt_pc ht, hasWait, hasOwn, Pc.fits, nurses]
  | reap p q havekids hp hq hl hz => exact h.reap hp hl hz
  | wait p hp hr hw =>
    rcases hp with hp | hp <;> apply h.own (p := p) <;>
      simp_all [setWait, Family.go, hasWait, hasOwn, Pc.fits, nurses]
  | sleepOther p _ hp | exit p _ hp | skip p _ _ hp | handed p _ _ hp | wokenInit p _ _ _ hp
  | die p _ _ hp | exitRelease p hp | exitSwitch p hp | scanOn p _ _ _ hp | waitEnd p _ _ hp
  | waitSleep p _ _ hp | sleepLock p hp | sleepFree p hp | sleepSet p hp | sleepSwitch p hp =>
    have hfit := h.fits p
    have hown := h.held p
    have hwait := h.wait p
    apply h.own (p := p) <;>
      simp_all [Family.setProc, Family.setLock, setWait, Family.go, hasWait, hasOwn, Pc.fits, nurses]

end Seated

structure Fathered (s : Family) : Prop where
  seated : Seated s
  alive : ∀ q p, (s.proc q).parent = some p → (s.proc p).state.alive = true
  begun : ∀ q, q ≠ s.initproc → (s.proc q).state ≠ .unused → (s.proc q).state ≠ .used →
    (s.proc q).parent ≠ none
  init : (s.proc s.initproc).state.alive = true
  leaves : ∀ p, (s.pc p).exits = true → p ≠ s.initproc
  cleared : ∀ p q, (s.pc p).cleared q = true → (s.proc q).parent ≠ some p
  forked : ∀ p q, s.pc p = .forkReady q → (s.proc q).parent = some p

namespace Fathered

variable {next : Nat} {r : Fin NPROC} {status : BitVec 32}

theorem cleared_wake {pp : Nat} (hr : (Pc.reparentWake status pp next).cleared r = true) :
    (Pc.reparent status (pp + 1)).cleared r = true :=
  decide_eq_true (Nat.lt_succ_of_le (of_decide_eq_true hr))

theorem cleared_of_succ {pp : Nat} (hr : (Pc.reparent status (pp + 1)).cleared r = true) :
    (Pc.reparentWake status pp next).cleared r = true :=
  decide_eq_true (Nat.le_of_lt_succ (of_decide_eq_true hr))

theorem goes (h : Fathered s) (hseat : Seated s') (hinit : s'.initproc = s.initproc)
    (hparent : ∀ q, (s'.proc q).parent = (s.proc q).parent)
    (hstate : ∀ q, (s'.proc q).state = (s.proc q).state ∨
      (s.proc q).state.alive = true ∧ (s'.proc q).state.alive = true)
    (hpc : ∀ q, q ≠ p → s'.pc q = s.pc q) (hx : s'.pc p = x)
    (hleaves : x.exits = true → p ≠ s.initproc)
    (hcleared : ∀ q, x.cleared q = true → (s.proc q).parent ≠ some p)
    (hforked : ∀ q, x = .forkReady q → (s.proc q).parent = some p) : Fathered s' := by
  have halive : ∀ q, (s'.proc q).state.alive = (s.proc q).state.alive := by
    intro q
    rcases hstate q with hq | ⟨hq, hq'⟩
    · rw [hq]
    · rw [hq, hq']
  refine ⟨hseat, fun q r hr => ?_, fun q hq hu hu' => ?_, ?_, fun q hq => ?_, fun r q hr => ?_,
    fun r q hr => ?_⟩
  · rw [halive]
    exact h.alive q r (by rw [← hparent, hr])
  · rw [hparent]
    rw [hinit] at hq
    rcases hstate q with he | ⟨ha, -⟩
    · exact h.begun q hq (he ▸ hu) (he ▸ hu')
    · apply h.begun q hq <;> intro he <;> rw [he] at ha <;> cases ha
  · rw [hinit, halive]
    exact h.init
  · rw [hinit]
    rcases eq_or_ne q p with rfl | hne
    · exact hleaves (hx ▸ hq)
    · exact h.leaves q (hpc q hne ▸ hq)
  · rw [hparent]
    rcases eq_or_ne r p with rfl | hne
    · exact hcleared q (hx ▸ hr)
    · exact h.cleared r q (hpc r hne ▸ hr)
  · rw [hparent]
    rcases eq_or_ne r p with rfl | hne
    · exact hforked q (hx.symm.trans hr)
    · exact h.forked r q ((hpc r hne).symm.trans hr)

theorem exits_resumed (x : Pc) : x.resumed.exits = x.exits := by cases x <;> rfl

theorem cleared_resumed (x : Pc) (q : Fin NPROC) : x.resumed.cleared q = x.cleared q := by
  cases x <;> rfl

theorem resumed_eq_forkReady : x.resumed = .forkReady q ↔ x = .forkReady q := by
  cases x <;> simp [resumed]

theorem exits_of_cleared (hx : x.cleared q = true) : x.exits = true := by
  cases x <;> first | rfl | cases hx

theorem cleared_succ {pp : Nat} (hr : (Pc.reparent status (pp + 1)).cleared r = true) :
    (r : Nat) = pp ∨ (Pc.reparent status pp).cleared r = true := by
  simp only [Pc.cleared, decide_eq_true_eq] at hr ⊢
  omega

section
variable (h : Fathered s)
include h

theorem go (hseat : Seated s') (hproc : s'.proc = s.proc) (hinit : s'.initproc = s.initproc)
    (hpc : s'.pc = update s.pc p x) (hleaves : x.exits = true → p ≠ s.initproc)
    (hcleared : ∀ q, x.cleared q = true → (s.proc q).parent ≠ some p)
    (hforked : ∀ q, x ≠ .forkReady q) : Fathered s' := by
  refine h.goes (p := p) hseat hinit (fun q => by rw [hproc]) (fun q => .inl (by rw [hproc]))
    (fun q hq => ?_) ?_ hleaves hcleared (fun q hq => absurd hq (hforked q))
  · rw [hpc, update_of_ne hq]
  · rw [hpc, update_self]

theorem own (hseat : Seated ((s.setProc p f).go p x))
    (hparent : (f (s.proc p)).parent = (s.proc p).parent)
    (hstate : (f (s.proc p)).state = (s.proc p).state ∨
      (s.proc p).state.alive = true ∧ (f (s.proc p)).state.alive = true)
    (hleaves : x.exits = true → p ≠ s.initproc)
    (hcleared : ∀ q, x.cleared q = true → (s.proc q).parent ≠ some p)
    (hforked : ∀ q, x = .forkReady q → (s.proc q).parent = some p) :
    Fathered ((s.setProc p f).go p x) := by
  refine h.goes (p := p) hseat rfl (fun q => ?_) (fun q => ?_) (fun q hq => ?_) ?_
    hleaves hcleared hforked <;> simp only [Family.setProc, Family.go]
  · rcases eq_or_ne q p with rfl | hne <;> simp_all
  · rcases eq_or_ne q p with rfl | hne <;> simp_all
  · exact update_of_ne hq ..
  · exact update_self ..

theorem setProc (hseat : Seated (s.setProc q f))
    (hparent : (f (s.proc q)).parent = (s.proc q).parent)
    (hstate : (f (s.proc q)).state = (s.proc q).state ∨
      (s.proc q).state.alive = true ∧ (f (s.proc q)).state.alive = true) :
    Fathered (s.setProc q f) := by
  have hgo : (s.setProc q f).go q (s.pc q) = s.setProc q f := by
    simp [Family.go, Family.setProc]
  rw [← hgo] at hseat ⊢
  exact h.own hseat hparent hstate (h.leaves q) (h.cleared q) (h.forked q)

theorem lent (hl : s.lock q = none) (hf : Lent (s.proc q) (f (s.proc q))) :
    Fathered (s.setProc q f) := by
  refine h.setProc (h.seated.lent hl hf) hf.1.1 ?_
  rcases hf.2 with ⟨hst, -⟩ | ⟨hst, hst'⟩
  · exact .inl hst
  · exact .inr ⟨by rw [hst]; rfl, by rw [hst']; rfl⟩

theorem wakeAt (ht : p = q ∧ t = s ∨ s.lock q = none ∧ t = s.setProc q fun x => x.woken chan) :
    Fathered t := by
  rcases ht with ⟨-, rfl⟩ | ⟨hl, rfl⟩
  · exact h
  · exact h.lent hl (woken_lent ..)

theorem change (hseat : Seated s') (hinit : s'.initproc = s.initproc)
    (hproc : ∀ r, r ≠ q → s'.proc r = s.proc r)
    (hpc : ∀ r, r ≠ p → s'.pc r = s.pc r ∨ (s'.pc r).exits = false ∧ ∀ t, s'.pc r ≠ .forkReady t)
    (hchild : ∀ r, (s'.proc q).parent = some r → (s'.proc r).state.alive = true)
    (hfather : ∀ r, r ≠ q → (s.proc r).parent = some q → (s'.proc q).state.alive = true)
    (hbegun : q ≠ s.initproc → (s'.proc q).state ≠ .unused → (s'.proc q).state ≠ .used →
      (s'.proc q).parent ≠ none)
    (hboot : q = s.initproc → (s'.proc q).state.alive = true)
    (hleaves : (s'.pc p).exits = true → p ≠ s.initproc)
    (hcleared : ∀ r, (s'.pc p).cleared r = true → (s'.proc r).parent ≠ some p)
    (hforked : ∀ r, s'.pc p = .forkReady r → (s'.proc r).parent = some p)
    (hothers : ∀ r, r ≠ p → ((s.pc r).cleared q = true → (s'.proc q).parent ≠ some r) ∧
      (s.pc r = .forkReady q → (s'.proc q).parent = some r)) : Fathered s' := by
  refine ⟨hseat, fun r t hr => ?_, fun r hr => ?_, ?_, fun r hr => ?_, fun r t hr => ?_,
    fun r t hr => ?_⟩
  · rcases eq_or_ne r q with rfl | hne
    · exact hchild t hr
    · rw [hproc r hne] at hr
      rcases eq_or_ne t q with rfl | ht
      · exact hfather r hne hr
      · rw [hproc t ht]
        exact h.alive r t hr
  · rw [hinit] at hr
    rcases eq_or_ne r q with rfl | hne
    · exact hbegun hr
    · rw [hproc r hne]
      exact h.begun r hr
  · rw [hinit]
    rcases eq_or_ne s.initproc q with he | hne
    · rw [he]
      exact hboot he.symm
    · rw [hproc _ hne]
      exact h.init
  · rw [hinit]
    rcases eq_or_ne r p with rfl | hne
    · exact hleaves hr
    · rcases hpc r hne with he | ⟨hno, -⟩
      · exact h.leaves r (he ▸ hr)
      · cases hno.symm.trans hr
  · rcases eq_or_ne r p with rfl | hne
    · exact hcleared t hr
    · rcases hpc r hne with he | ⟨hno, -⟩
      · rw [he] at hr
        rcases eq_or_ne t q with rfl | ht
        · exact (hothers r hne).1 hr
        · rw [hproc t ht]
          exact h.cleared r t hr
      · cases hno.symm.trans (exits_of_cleared hr)
  · rcases eq_or_ne r p with rfl | hne
    · exact hforked t hr
    · rcases hpc r hne with he | ⟨-, hno⟩
      · rw [he] at hr
        rcases eq_or_ne t q with rfl | ht
        · exact (hothers r hne).2 hr
        · rw [hproc t ht]
          exact h.forked r t hr
      · exact absurd hr (hno t)

theorem not_father (hu : (s.proc q).state.alive = false) (r : Fin NPROC) :
    (s.proc r).parent ≠ some q := fun hr => by
  cases hu.symm.trans (h.alive r q hr)

theorem alloc (hu : (s.proc q).state = .unused) {n : Nat} {g : Fin NPROC → Nat}
    (hseat : Seated { (((s.setProc q fun x => x.found s.nextpid).setLock q (some p)).go q .born).go p
      (.forkAlloc q) with nextpid := n, gen := g }) :
    Fathered { (((s.setProc q fun x => x.found s.nextpid).setLock q (some p)).go q .born).go p
      (.forkAlloc q) with nextpid := n, gen := g } := by
  have hno := h.not_father (q := q) (by rw [hu]; rfl)
  have hq := h.seated.pc_of_unused hu
  have hchild := h.seated.child
  have halive := h.alive q
  have hinit := h.init
  have hcleared := fun r => h.cleared r q
  have hforked := fun r => h.forked r q
  apply h.change (p := p) (q := q) hseat rfl <;> simp only [Family.setProc, setLock, Family.go] <;>
    grind -ring -linarith -lia [update, Proc.found, ProcState.alive, exits, Pc.cleared, nurses]

theorem abandon (hp : s.pc p = .forkAlloc q)
    (hseat : Seated ((((s.setProc q Proc.freeproc).setLock q none).go q .free).go p .user)) :
    Fathered ((((s.setProc q Proc.freeproc).setLock q none).go q .free).go p .user) := by
  obtain ⟨hu, hq⟩ := h.seated.child p q (by rw [hp]; rfl)
  have hfork : ∀ r, s.pc r ≠ .forkReady q := h.seated.one_nurse hp rfl rfl (by simp)
  have hno := h.not_father (q := q) (by rw [hu]; rfl)
  have hinit := h.init
  apply h.change (p := p) (q := q) hseat rfl <;> simp only [Family.setProc, setLock, Family.go] <;>
    grind -ring -linarith -lia [update, Proc.freeproc, ProcState.alive, exits, Pc.cleared]

theorem setParent (hp : s.pc p = .forkParent q) (hr : (s.proc p).state = .running)
    (hseat : Seated ((s.setProc q fun x => { x with parent := some p }).go p (.forkReady q))) :
    Fathered ((s.setProc q fun x => { x with parent := some p }).go p (.forkReady q)) := by
  obtain ⟨hu, hq⟩ := h.seated.child p q (by rw [hp]; rfl)
  have hfork : ∀ r, s.pc r ≠ .forkReady q := h.seated.one_nurse hp rfl rfl (by simp)
  have hinit := h.init
  have halive := h.alive
  apply h.change (p := p) (q := q) hseat rfl <;> simp only [Family.setProc, Family.go] <;>
    grind -ring -linarith -lia [update, ProcState.alive, exits, Pc.cleared]

theorem ready (hp : s.pc p = .forkReady q)
    (hseat : Seated ((s.setProc q fun x => { x with state := .runnable }).go p .user)) :
    Fathered ((s.setProc q fun x => { x with state := .runnable }).go p .user) := by
  obtain ⟨hu, hq⟩ := h.seated.child p q (by rw [hp]; rfl)
  have hparent := h.forked p q hp
  have halive := h.alive q
  have hcleared := fun r => h.cleared r q
  have hforked := fun r => h.forked r q
  apply h.change (p := p) (q := q) hseat rfl <;> simp only [Family.setProc, Family.go] <;>
    grind -ring -linarith -lia [update, ProcState.alive, exits, Pc.cleared]

theorem hand (hp : s.pc p = .reparent status q) (hq : (s.proc q).parent = some p)
    (hseat : Seated ((s.setProc q fun x => { x with parent := some s.initproc }).go p
      (.reparentWake status q 0))) :
    Fathered ((s.setProc q fun x => { x with parent := some s.initproc }).go p
      (.reparentWake status q 0)) := by
  have hsucc : ∀ r, (Pc.reparentWake status q 0).cleared r = true →
      r = q ∨ (s.pc p).cleared r = true := by
    intro r hr
    rw [hp]
    exact (cleared_succ (cleared_wake hr)).imp_left Fin.ext
  have hother : ∀ r t, (s.pc r).cleared t = true → r ≠ s.initproc := fun r t hr =>
    h.leaves r (exits_of_cleared hr)
  have hpi : p ≠ s.initproc := h.leaves p (by rw [hp]; rfl)
  have halive := h.alive
  have hinit := h.init
  have hcleared := h.cleared p
  have hforked := fun r => h.forked r q
  apply h.change (p := p) (q := q) hseat rfl <;> simp only [Family.setProc, Family.go] <;>
    grind -ring -linarith -lia [update]

theorem die {e : List Exit} (hp : s.pc p = .exitWake status next)
    (hseat : Seated { ((s.setProc p fun x => { x with xstate := status, state := .zombie }).setLock p
      (some p)).go p .exitZombie with exited := e }) :
    Fathered { ((s.setProc p fun x => { x with xstate := status, state := .zombie }).setLock p
      (some p)).go p .exitZombie with exited := e } := by
  have hnone : ∀ q, (s.proc q).parent ≠ some p := fun q => h.cleared p q (by rw [hp]; rfl)
  have hpi : p ≠ s.initproc := h.leaves p (by rw [hp]; rfl)
  have hrun : (s.proc p).state = .running := by simpa [hp, Pc.fits] using h.seated.fits p
  have halive := h.alive p
  have hbegun := h.begun p hpi
  have hcleared := fun r => h.cleared r p
  have hforked := fun r => h.forked r p
  apply h.change (p := p) (q := p) hseat rfl <;> simp only [Family.setProc, setLock, Family.go] <;>
    grind -ring -linarith -lia [update, ProcState.alive, exits, Pc.cleared]

theorem reap (hz : (s.proc q).state = .zombie)
    (hseat : Seated (s.reap p q)) : Fathered (s.reap p q) := by
  have hno := h.not_father (q := q) (by rw [hz]; rfl)
  have hinit := h.init
  have hchild := h.seated.child
  apply h.change (p := p) (q := q) hseat rfl <;>
    simp only [Family.reap, Family.setProc, setWait, Family.go] <;>
    grind -ring -linarith -lia [update, Proc.freeproc, ProcState.alive, exits, Pc.cleared, nurses]

theorem step (hs : Step s s') : Fathered s' := by
  have hseat := h.seated.step hs
  cases hs with
  | schedule p f hl hr hf hf' =>
    refine h.own hseat hf.1 (.inr ⟨by rw [hr]; rfl, by rw [hf']; rfl⟩) ?_ ?_ ?_
    · rw [exits_resumed]
      exact h.leaves p
    · simpa only [cleared_resumed] using h.cleared p
    · simpa only [resumed_eq_forkReady] using h.forked p
  | yield p hp hr => exact h.setProc hseat rfl (.inr ⟨by rw [hr]; rfl, rfl⟩)
  | lent q f hl hf => exact h.lent hl hf
  | sleepOther p a hp hr =>
    exact h.own hseat rfl (.inr ⟨by rw [hr]; rfl, rfl⟩) (by simp [exits]) (by simp [Pc.cleared])
      (by simp)
  | sleepSet p hp =>
    have hrun : (s.proc p).state = .running := by simpa [hp, Pc.fits] using h.seated.fits p
    exact h.own hseat rfl (.inr ⟨by rw [hrun]; rfl, rfl⟩) (by simp [exits]) (by simp [Pc.cleared])
      (by simp)
  | alloc p q hp hr hl hu => exact h.alloc hu hseat
  | abandon p q hp => exact h.abandon hp hseat
  | setParent p q hp hw hr => exact h.setParent hp hr hseat
  | ready p q hp hl hr => exact h.ready hp hseat
  | exit p st hp hi hr hw =>
    exact h.go hseat rfl rfl rfl (fun _ => hi) (by simp [Pc.cleared]) (by simp)
  | hand p q st hp hq => exact h.hand hp hq hseat
  | skip p q st hp hq =>
    refine h.go hseat rfl rfl rfl (fun _ => h.leaves p (by rw [hp]; rfl)) (fun r hr => ?_) (by simp)
    rcases cleared_succ hr with he | hr
    · rwa [Fin.ext he]
    · exact h.cleared p r (hp ▸ hr)
  | handed p st pp hp hn =>
    refine h.go hseat rfl rfl rfl (fun _ => h.leaves p (by rw [hp]; rfl)) (fun r _ => ?_) (by simp)
    exact h.cleared p r (by rw [hp]; exact decide_eq_true (lt_of_lt_of_le r.isLt hn))
  | wokenInit p st pp n hp hn =>
    refine h.go hseat rfl rfl rfl (fun _ => h.leaves p (by rw [hp]; rfl)) (fun r hr => ?_) (by simp)
    exact h.cleared p r (by rw [hp]; exact cleared_of_succ hr)
  | wakeInit p q st _ t hp ht | wakeParent p q st t hp ht =>
    have hw := h.wakeAt ht
    have hpc : t.pc p = _ := (congrFun (Seated.wakeAt_pc ht) p).trans hp
    exact hw.go hseat rfl rfl rfl (fun _ => hw.leaves p (by rw [hpc]; rfl))
      (fun r hr => hw.cleared p r (by rw [hpc]; exact hr)) (by simp)
  | die p st n hp hn => exact h.die hp hseat
  | reap p q havekids hp hq hl hz => exact h.reap hz hseat
  | forkRelease | exitRelease | exitSwitch | wait | scanOn | waitEnd | waitSleep | sleepLock
  | sleepFree | sleepSwitch =>
    exact h.go hseat rfl rfl rfl (by simp [exits]) (by simp [Pc.cleared]) (by simp)

end

end Fathered

end Family

end Xv6Audit.Procs
