import Xv6Audit.Proc.Switch

/-! A process runs on at most one CPU: where the CPUs are, where the threads of the processes
are, and who has which `p->lock` between two steps. -/
namespace Xv6Audit.Procs

namespace Thread

def isOut : Thread → Bool
  | .out _ => true
  | _ => false

def holdsOwn : Thread → Bool
  | .entered _ => true
  | .leaving _ => true
  | .dozing => true
  | .drowsy => true
  | _ => false

def keepsLk : Thread → Bool
  | .run _ => true
  | .dozing => true
  | _ => false

def fits : Thread → ProcState → Bool
  | .out .exit, st => st == .zombie || st == .unused
  | .out _, st => st != .running
  | .leaving .exit, st => st == .zombie
  | .leaving _, st => st == .runnable || st == .sleeping
  | .entered .exit, _ => false
  | _, st => st == .running

def nurses : Thread → Option (Fin NPROC)
  | .setup q => some q
  | .run child => child
  | .out (.yield child) => child
  | .entered (.yield child) => child
  | .leaving (.yield child) => child
  | _ => none

end Thread

namespace Kernel
variable {k : Nat} {D : Type}

structure Placed (s : Kernel k D) : Prop where
  thread : ∀ c p, s.ctx c = .thread p → s.cproc c = some p ∧ (s.thread p).isOut = false
  back : ∀ c p, s.ctx c = .back p → s.cproc c = some p ∧ s.lock p = some c ∧
    (s.thread p).isOut = true ∧ s.thread p ≠ .out .forkret
  scan : ∀ c, s.ctx c = .scan → s.cproc c = none
  one : ∀ c c' p, s.cproc c = some p → s.cproc c' = some p → c = c'
  on : ∀ p, (s.thread p).isOut = false → ∃ c, s.ctx c = .thread p
  fits : ∀ p, (s.thread p).fits (s.proc p).state = true
  leaves : ∀ p, s.thread p ≠ .leaving .forkret
  held : ∀ c p, s.ctx c = .thread p → (s.thread p).holdsOwn = true → s.lock p = some c
  set : ∀ c p q, s.ctx c = .thread p → s.thread p = .setup q → s.lock q = some c
  owner : ∀ c q, s.lock q = some c → s.ctx c = .back q ∨
    ∃ p, s.ctx c = .thread p ∧ (p = q ∧ (s.thread p).holdsOwn = true ∨ s.thread p = .setup q)
  child : ∀ p q, (s.thread p).nurses = some q →
    (s.proc q).state = .used ∧ s.thread q = .out .forkret
  nurse : ∀ p p' q, (s.thread p).nurses = some q → (s.thread p').nurses = some q → p = p'
  holder : ∀ c, s.lk.cpu = some c →
    s.ctx c = .scan ∨ ∃ p, s.ctx c = .thread p ∧ (s.thread p).keepsLk = true

open Thread
open Function (update update_self update_of_ne)
variable {chan : Chan} {cond : Fin NPROC → D → Bool}
variable {s s' : Kernel k D} {c : Fin k} {p q : Fin NPROC}

namespace Placed

theorem of_cproc (h : Placed s) (hc : s.cproc c = some p) :
    s.ctx c = .thread p ∨ s.ctx c = .back p := by
  cases hx : s.ctx c with
  | scan => cases hc.symm.trans (h.scan c hx)
  | thread p' => rw [Option.some.inj (hc.symm.trans (h.thread c p' hx).1)]; exact .inl rfl
  | back p' => rw [Option.some.inj (hc.symm.trans (h.back c p' hx).1)]; exact .inr rfl

theorem move (h : Placed s) (hc : s.ctx c = .thread p) (hctx : ∀ c, s'.ctx c = s.ctx c)
    (hcproc : ∀ c, s'.cproc c = s.cproc c)
    (hproc : ∀ q, q ≠ p → s'.proc q = s.proc q) (hlock : ∀ q, q ≠ p → s'.lock q = s.lock q)
    (hthread : ∀ q, q ≠ p → s'.thread q = s.thread q)
    (hset : ∀ q, s.thread p ≠ .setup q)
    (hout : (s'.thread p).isOut = false) (hfits : (s'.thread p).fits (s'.proc p).state = true)
    (hleave : s'.thread p ≠ .leaving .forkret)
    (hheld : s'.lock p = if (s'.thread p).holdsOwn then some c else none)
    (hset' : ∀ q, s'.thread p ≠ .setup q)
    (hlk : s'.lk.cpu = s.lk.cpu ∨ s'.lk.cpu = none)
    (hkeep : s'.lk.cpu = some c → (s'.thread p).keepsLk = true)
    (hnurse : ∀ q, (s'.thread p).nurses = some q → (s.thread p).nurses = some q) : Placed s' := by
  have hcp := h.thread c p hc
  obtain ⟨h1, h2, h3, h4, h5, h6, h7, h8, h9, h10, h11, h12, h13⟩ := h
  have huniq : ∀ c', s.ctx c' = .thread p → c' = c := by grind
  have hback : ∀ c', s.ctx c' ≠ .back p := by grind
  have hown := h6 p
  have hset0 : ∀ r, s.thread r ≠ .setup p := by
    intro r hr
    grind [nurses, isOut]
  have hchild : ∀ r q, (s.thread r).nurses = some q → q ≠ p := by grind [isOut]
  constructor <;> grind -ring -linarith -lia

variable {f : Proc → Proc} {w : Why} {child : Option (Fin NPROC)} {msg : String}

section
variable (h : Placed s)
include h

theorem setProc (hfits : (s.thread q).fits (f (s.proc q)).state = true)
    (hused : (s.proc q).state = .used → (f (s.proc q)).state = .used) : Placed (s.setProc q f) := by
  refine { h with fits := fun r => ?_, child := fun r r' hr => ?_ }
  · show (s.thread r).fits (update s.proc q (f (s.proc q)) r).state = true
    rcases eq_or_ne r q with rfl | hne
    · rwa [update_self]
    · rw [update_of_ne hne]
      exact h.fits r
  · show (update s.proc q (f (s.proc q)) r').state = .used ∧ s.thread r' = .out .forkret
    obtain ⟨hst, ht⟩ := h.child r r' hr
    rcases eq_or_ne r' q with rfl | hne
    · rw [update_self]
      exact ⟨hused hst, ht⟩
    · rw [update_of_ne hne]
      exact ⟨hst, ht⟩

theorem pick (hc : s.ctx c = .scan) (ht : s.thread p = .out w) (hlk : s.lk.cpu ≠ some c)
    (hl : s.lock p = none) (hr : (s.proc p).state = .runnable) :
    Placed ((((s.setProc p fun x => { x with state := .running }).setLock p (some c)).setCpu c
      (.thread p) (some p)).go p (.entered w)) := by
  have hfree : ∀ c', s.cproc c' ≠ some p := by
    intro c' hc'
    rcases h.of_cproc hc' with hx | hx
    · simpa [ht, isOut] using (h.thread c' p hx).2
    · simpa [hl] using (h.back c' p hx).2.1
  have hset : ∀ r, s.thread r ≠ .setup p := by
    intro r hr'
    have := (h.child r p (by rw [hr']; rfl)).1
    rw [hr] at this
    cases this
  have hw : (Thread.entered w).nurses = (Thread.out w).nurses := by cases w <;> rfl
  obtain ⟨h1, h2, h3, h4, h5, h6, h7, h8, h9, h10, h11, h12, h13⟩ := h
  constructor <;> simp only [Kernel.setProc, setLock, setCpu, go]
  case on =>
    intro r hr
    rcases eq_or_ne r p with rfl | hne
    · exact ⟨c, by rw [update_self]⟩
    · rw [update_of_ne hne] at hr
      obtain ⟨c', hc'⟩ := h5 r hr
      exact ⟨c', by rw [update_of_ne (by rintro rfl; simp [hc] at hc'), hc']⟩
  all_goals grind -ring -linarith -lia [update, isOut, Thread.fits, holdsOwn, keepsLk]

theorem not_running_of_leaving (ht : s.thread p = .leaving w) :
    (s.proc p).state ≠ .running := by
  intro hrun
  have hfit := h.fits p
  rw [ht, hrun] at hfit
  cases w <;> cases hfit

theorem unpick (hc : s.ctx c = .back p) :
    Placed ((s.setCpu c .scan none).setLock p none) := by
  obtain ⟨hcp, hl, hout, hfork⟩ := h.back c p hc
  have hset : ∀ r, s.thread r ≠ .setup p := by
    intro r hr
    exact hfork (h.child r p (by rw [hr]; rfl)).2
  obtain ⟨h1, h2, h3, h4, h5, h6, h7, h8, h9, h10, h11, h12, h13⟩ := h
  constructor <;> simp only [setLock, setCpu]
  case on =>
    intro r hr
    obtain ⟨c', hc'⟩ := h5 r hr
    exact ⟨c', by rw [update_of_ne (by rintro rfl; simp [hc] at hc'), hc']⟩
  all_goals grind -ring -linarith -lia [update, isOut, Thread.fits, holdsOwn, keepsLk]

section
variable (hc : s.ctx c = .thread p)
include hc

theorem sched (ht : s.thread p = .leaving w) :
    Placed ((s.go p (.out w)).setCpu c (.back p) (s.cproc c)) := by
  have hl : s.lock p = some c := h.held c p hc (by rw [ht]; rfl)
  have hr : (s.proc p).state ≠ .running := h.not_running_of_leaving ht
  have hw : w ≠ .forkret := fun hw => h.leaves p (hw ▸ ht)
  have hn : (Thread.leaving w).nurses = (Thread.out w).nurses := by cases w <;> rfl
  have huniq : ∀ c', s.ctx c' = .thread p → c' = c := fun c' hc' =>
    h.one c' c p (h.thread c' p hc').1 (h.thread c p hc).1
  obtain ⟨h1, h2, h3, h4, h5, h6, h7, h8, h9, h10, h11, h12, h13⟩ := h
  constructor <;> simp only [setCpu, go]
  case on =>
    intro r hr
    have hne : r ≠ p := by rintro rfl; simp [isOut] at hr
    rw [update_of_ne hne] at hr
    obtain ⟨c', hc'⟩ := h5 r hr
    exact ⟨c', by rw [update_of_ne (by rintro rfl; simp [hc, hne.symm] at hc'), hc']⟩
  all_goals grind -ring -linarith -lia [update, isOut, Thread.fits, holdsOwn, keepsLk]

theorem alloc (ht : s.thread p = .run none) (hlk : s.lk.cpu ≠ some c) (hl : s.lock q = none)
    (hu : (s.proc q).state = .unused) :
    Placed { (((s.setProc q fun x => x.found s.nextpid).setLock q (some c)).go q
      (.out .forkret)).go p (.setup q) with nextpid := s.nextpid + 1 } := by
  have hne : q ≠ p := by
    rintro rfl
    have := h.fits q
    simp [ht, hu, Thread.fits] at this
  have hq : (s.thread q).isOut = true := by
    have := h.fits q
    rw [hu] at this
    match hx : s.thread q, this with
    | .out _, _ => rfl
    | .leaving (.yield _), this => simp [Thread.fits] at this
  have hno : ∀ r, (s.thread r).nurses ≠ some q := by
    intro r hr
    have := (h.child r q hr).1
    rw [hu] at this
    cases this
  have hback : ∀ c', s.ctx c' ≠ .back q := by
    intro c' hc'
    have := (h.back c' q hc').2.1
    rw [hl] at this
    cases this
  have huniq : ∀ c', s.ctx c' = .thread p → c' = c := fun c' hc' =>
    h.one c' c p (h.thread c' p hc').1 (h.thread c p hc).1
  obtain ⟨h1, h2, h3, h4, h5, h6, h7, h8, h9, h10, h11, h12, h13⟩ := h
  constructor <;> simp only [Kernel.setProc, setLock, go] <;>
    grind -ring -linarith -lia [update, isOut, Thread.fits, holdsOwn, keepsLk, nurses, Proc.found]

theorem endSetup (ht : s.thread p = .setup q)
    (hf : f (s.proc q) = s.proc q ∧ child = some q ∨ (f (s.proc q)).state = .unused ∧ child = none) :
    Placed (((s.setProc q f).setLock q none).go p (.run child)) := by
  obtain ⟨hu, hq⟩ := h.child p q (by rw [ht]; rfl)
  have hne : q ≠ p := by
    rintro rfl
    simp [ht] at hq
  have hl := h.set c p q hc ht
  have hno : ∀ r, (s.thread r).nurses = some q → r = p := by
    intro r hr
    exact h.nurse r p q hr (by rw [ht]; rfl)
  have hset : ∀ r, s.thread r = .setup q → r = p := fun r hr => hno r (by rw [hr]; rfl)
  have hback : ∀ c', s.ctx c' ≠ .back q := fun c' hc' => (h.back c' q hc').2.2.2 hq
  obtain ⟨h1, h2, h3, h4, h5, h6, h7, h8, h9, h10, h11, h12, h13⟩ := h
  constructor <;> simp only [Kernel.setProc, setLock, go] <;>
    grind -ring -linarith -lia [update, isOut, Thread.fits, holdsOwn, keepsLk, nurses]

theorem ready (ht : s.thread p = .run (some q)) :
    Placed ((s.setProc q fun x => { x with state := .runnable }).go p (.run none)) := by
  obtain ⟨hu, hq⟩ := h.child p q (by rw [ht]; rfl)
  have hne : q ≠ p := by
    rintro rfl
    simp [ht] at hq
  have hno : ∀ r, (s.thread r).nurses = some q → r = p := by
    intro r hr
    exact h.nurse r p q hr (by rw [ht]; rfl)
  obtain ⟨h1, h2, h3, h4, h5, h6, h7, h8, h9, h10, h11, h12, h13⟩ := h
  constructor <;> simp only [Kernel.setProc, go] <;>
    grind -ring -linarith -lia [update, isOut, Thread.fits, holdsOwn, keepsLk, nurses]

end

theorem within (hl : s.lock q = none) (hf : Lent (s.proc q) (f (s.proc q))) :
    Placed (s.setProc q f) := by
  have hq := h.fits q
  refine h.setProc ?_ (fun hu => by simpa [Lent, hu] using hf.imp_left And.left)
  rcases hf with ⟨hf, -⟩ | ⟨hst, hf⟩ | ⟨hst, hf⟩
  · rwa [hf]
  all_goals
    rw [hst] at hq
    rw [hf]
    match ht : s.thread q, hq with
    | .out .forkret, _ | .out (.yield _), _ | .out .sleep, _ => rfl
    | .out .exit, hq => revert hq; decide
    | .leaving w, _ =>
      obtain ⟨c, hc⟩ := h.on q (by rw [ht]; rfl)
      cases hl.symm.trans (h.held c q hc (by rw [ht]; rfl))

section
variable (hc : s.ctx c = .thread p)
include hc

theorem enter (ht : s.thread p = .entered w) (hw : w ≠ .exit ∧ (child = none ∨ w = .yield child))
    (hf : (f (s.proc p)).state = (s.proc p).state) :
    Placed (((s.setProc p f).setLock p none).go p (.run child)) := by
  have hfit := h.fits p
  rw [ht] at hfit
  have hrun : (s.proc p).state = .running := by
    cases w <;> simp_all [Thread.fits]
  apply h.move hc <;>
    simp_all [Kernel.setProc, setLock, go, isOut, Thread.fits, holdsOwn, keepsLk]
  rcases hw with ⟨-, rfl | rfl⟩ <;> simp [nurses]

theorem leave (ht : s.thread p = .run child) (hlk : s.lk.cpu ≠ some c)
    (hf : w = .yield child ∧ (f (s.proc p)).state = .runnable ∨
      w = .sleep ∧ (f (s.proc p)).state = .sleeping ∧ (f (s.proc p)).chan ≠ chan ∨
      w = .exit ∧ (f (s.proc p)).state = .zombie) :
    Placed (((s.setProc p f).setLock p (some c)).go p (.leaving w)) := by
  rcases hf with ⟨rfl, hf⟩ | ⟨rfl, hf, -⟩ | ⟨rfl, hf⟩ <;> apply h.move hc <;>
    simp_all [Kernel.setProc, setLock, go, isOut, Thread.fits, holdsOwn, keepsLk, nurses]

theorem doze (ht : s.thread p = .run none) :
    Placed ((s.setLock p (some c)).go p .dozing) := by
  have hfit := h.fits p
  apply h.move hc <;>
    simp_all [setLock, go, isOut, Thread.fits, holdsOwn, keepsLk, nurses]

theorem dropLk (ht : s.thread p = .dozing) :
    Placed ({ s with lk := .free }.go p .drowsy) := by
  have hfit := h.fits p
  have hl := h.held c p hc
  apply h.move hc <;>
    simp_all [go, isOut, Thread.fits, holdsOwn, keepsLk, nurses, Lk.cpu]

theorem nod (ht : s.thread p = .drowsy) :
    Placed ((s.setProc p fun x => { x with chan := chan, state := .sleeping }).go p
      (.leaving .sleep)) := by
  have hfit := h.fits p
  have hl := h.held c p hc
  have hlk := h.holder c
  apply h.move hc <;>
    simp_all [Kernel.setProc, go, isOut, Thread.fits, holdsOwn, keepsLk, nurses]

end

end

theorem keepsLk_of_atEase (h : s.atEase c = true) :
    s.ctx c = .scan ∨ ∃ p, s.ctx c = .thread p ∧ (s.thread p).keepsLk = true := by
  rcases of_atEase h with hc | ⟨p, child, hc, ht⟩
  · exact .inl hc
  · exact .inr ⟨p, hc, by rw [ht]; rfl⟩

theorem setLk {x : Lk k} (h : Placed s) (hc : s.atEase c = true) (d : D)
    (hx : x.cpu = some c ∨ x.cpu = none) : Placed { s with data := d, lk := x } := by
  refine { h with holder := fun c' hc' => ?_ }
  rcases hx with hx | hx
  · rw [← Option.some.inj (hx.symm.trans hc')]
    exact keepsLk_of_atEase hc
  · cases hx.symm.trans hc'

theorem step (h : Placed s) (hs : Step chan cond s c s') : Placed s' := by
  cases hs with
  | idle => exact h
  | pick p w hc ht hlk hl hr => exact h.pick hc ht hlk hl hr
  | unpick p hc => exact h.unpick hc
  | within q f hl hf => exact h.within hl hf
  | enter p w child f hc ht hw hf => exact h.enter hc ht hw hf
  | leave p w child f hc ht hlk hl hf => exact h.leave hc ht hlk hf
  | sched p w hc ht => exact h.sched hc ht
  | alloc p q hc ht hlk hl hu => exact h.alloc hc ht hlk hl hu
  | endSetup p q child f hc ht hf => exact h.endSetup hc ht hf
  | ready p q hc ht hl => exact h.ready hc ht
  | doze p hc ht hlk hcond hl => exact h.doze hc ht
  | dropLk p hc ht => exact h.dropLk hc ht
  | nod p hc ht => exact h.nod hc ht
  | acquire hc hlk | wakeupLk owes hc hlk | wakeLast n hc hlk hn =>
    exact h.setLk hc s.data (.inl rfl)
  | change d owes hc hlk => exact h.setLk hc d (.inl rfl)
  | wakeNext n t hc hlk ht =>
    rcases ht with ⟨-, rfl⟩ | ⟨hl, rfl⟩
    · exact h.setLk hc _ (.inl rfl)
    · exact (h.within hl (woken_lent ..)).setLk hc _ (.inl rfl)
  | release hc hlk => exact h.setLk hc s.data (.inr rfl)

theorem boot (d : D) : Placed (boot k d) := by
  constructor <;> simp +contextual [Kernel.boot, isOut, holdsOwn, nurses, Lk.cpu]
  intro p
  rcases eq_or_ne p 0 with rfl | hne
  · rfl
  · simp [Table.boot, hne, Proc.zero, Thread.fits]

theorem noff_of_leaving (h : Placed s) (hc : s.ctx c = .thread p) (ht : s.thread p = .leaving w) :
    s.noff c = 1 := by
  have hown : Finset.univ.filter (fun q => s.lock q = some c) = {p} := by
    ext q
    simp only [Finset.mem_filter, Finset.mem_univ, true_and, Finset.mem_singleton]
    constructor
    · intro hq
      rcases h.owner c q hq with hb | ⟨r, hr, hrq⟩
      · cases hb.symm.trans hc
      · cases hr.symm.trans hc
        rcases hrq with ⟨rfl, -⟩ | hset
        · rfl
        · cases hset.symm.trans ht
    · rintro rfl
      exact h.held c q hc (by rw [ht]; rfl)
  have hlk : s.lk.cpu ≠ some c := by
    intro hlk
    rcases h.holder c hlk with hx | ⟨r, hr, hkeep⟩
    · cases hx.symm.trans hc
    · cases hr.symm.trans hc
      rw [ht] at hkeep
      cases hkeep
  simp [noff, hown, hlk]

theorem sched_no_panic (h : Placed s) (hc : s.ctx c = .thread p) (ht : s.thread p = .leaving w) :
    s.sched c p w ≠ .error (.panic msg) := by
  have hl : s.lock p = some c := h.held c p hc (by rw [ht]; rfl)
  simp [Kernel.sched, hl, h.noff_of_leaving hc ht, h.not_running_of_leaving ht]

theorem enter_no_panic (h : Placed s) (ht : s.thread p = .entered w) :
    s.enter p w ≠ .error (.panic msg) := by
  have hfit := h.fits p
  rw [ht] at hfit
  cases w with
  | exit => cases hfit
  | _ => simp [Kernel.enter]

theorem within_no_panic : s.within q f ≠ .error (.panic msg) := by
  unfold Kernel.within
  split <;> simp

theorem wakeup_no_panic {ch : Chan} : s.wakeup c q ch ≠ .error (.panic msg) := by
  unfold Kernel.wakeup
  split
  · simp
  · exact within_no_panic

theorem wakeNext_no_panic {next : Nat} :
    s.wakeNext chan c next ≠ .error (.panic msg) := by
  intro hs
  unfold Kernel.wakeNext at hs
  split at hs
  case isFalse => cases hs
  case isTrue hn =>
  cases hw : s.wakeup c ⟨next, hn⟩ chan with
  | ok t => rw [hw] at hs; cases hs
  | error e =>
    rw [hw] at hs
    cases hs
    exact wakeup_no_panic hw

theorem lkAct_no_panic {a : LkAct D} :
    s.lkAct chan cond c a s.lk ≠ .error (.panic msg) := by
  intro hs
  generalize s.lk = l at hs
  match a, l, hs with
  | .wakeNext, .waking _ next, hs =>
    simp only [Kernel.lkAct] at hs
    split at hs
    · exact wakeNext_no_panic hs
    · cases hs
  | .change _, .held _ _, hs | .wakeup, .held _ _, hs | .release, .held _ false, hs =>
    simp only [Kernel.lkAct] at hs
    split at hs <;> cases hs

theorem leave_no_panic :
    s.leave c p w f ≠ .error (.panic msg) := by
  unfold Kernel.leave
  split <;> simp

section
variable (h : Placed s)
include h

theorem threadAct_no_panic {a : ThreadAct} (hc : s.ctx c = .thread p) :
    s.threadAct chan cond c p a (s.thread p) ≠ .error (.panic msg) := by
  intro hs
  generalize ht : s.thread p = t at hs
  match a, t, hs with
  | .enter, .entered w, hs => exact h.enter_no_panic ht hs
  | .yield, .run _, hs | .exit _, .run none, hs => exact leave_no_panic hs
  | .sched, .leaving w, hs => exact h.sched_no_panic hc ht hs
  | .setkilled, .run _, hs => exact within_no_panic hs
  | .sleepOn ch, .run none, hs =>
    change s.sleepOn chan c p ch = _ at hs
    unfold Kernel.sleepOn at hs
    split at hs
    · cases hs
    · exact leave_no_panic hs
  | .alloc q, .run none, hs =>
    change s.alloc c p q = _ at hs
    unfold Kernel.alloc at hs
    split at hs <;> cases hs
  | .ready, .run (some q), hs =>
    change s.ready p q = _ at hs
    unfold Kernel.ready at hs
    split at hs <;> cases hs
  | .reap q, .run none, hs =>
    change s.reap q = _ at hs
    unfold Kernel.reap at hs
    split at hs
    · exact within_no_panic hs
    · cases hs
  | .doze, .run none, hs =>
    change s.doze cond c p = _ at hs
    unfold Kernel.doze at hs
    split at hs <;> cases hs

theorem no_panic {a : Fin k × CpuAct D} :
    s.act chan cond a ≠ .error (.panic msg) := by
  intro hs
  obtain ⟨c, a⟩ := a
  cases a with
  | pick p =>
    simp only [Kernel.act, Kernel.pick] at hs
    split at hs
    · split at hs <;> cases hs
    · cases hs
  | unpick =>
    simp only [Kernel.act, Kernel.unpick] at hs
    split at hs <;> cases hs
  | wakeup q ch =>
    simp only [Kernel.act] at hs
    split at hs
    · exact wakeup_no_panic hs
    · cases hs
  | kill q =>
    simp only [Kernel.act] at hs
    split at hs
    · exact within_no_panic hs
    · cases hs
  | lk a =>
    simp only [Kernel.act] at hs
    split at hs
    · exact lkAct_no_panic hs
    · cases hs
  | thread a =>
    simp only [Kernel.act] at hs
    split at hs
    case h_1 p hc => exact h.threadAct_no_panic hc hs
    case h_2 => cases hs

theorem leaving_kept (hs : Step chan cond s c s') (hq : s.thread q = .leaving w) :
    s'.proc q = s.proc q := by
  have hl : s.lock q ≠ none := by
    obtain ⟨c', hc'⟩ := h.on q (by rw [hq]; rfl)
    rw [h.held c' q hc' (by rw [hq]; rfl)]
    exact Option.some_ne_none c'
  have hfree {r : Fin NPROC} {x : Proc} (hr : s.lock r = none) :
      update s.proc r x q = s.proc q :=
    update_of_ne (by rintro rfl; exact hl hr) ..
  have hother {r : Fin NPROC} {x : Proc} {t : Thread} (hr : s.thread r = t)
      (ht : t ≠ .leaving w) : update s.proc r x q = s.proc q :=
    update_of_ne (by rintro rfl; exact ht (hr.symm.trans hq)) ..
  cases hs with
  | pick p w hc ht hlk hl hr | within r f hl hf => exact hfree hl
  | enter p w child f hc ht hw hf => exact hother ht (by simp)
  | leave p w child f hc ht hlk hl hf | alloc p r hc ht hlk hl hu => exact hfree hl
  | endSetup p r child f hc ht hf =>
    exact hother (h.child p r (by rw [ht]; rfl)).2 (by simp)
  | ready p r hc ht hl => exact hfree hl
  | nod p hc ht => exact hother ht (by simp)
  | wakeNext n t hc hlk ht =>
    rcases ht with ⟨-, rfl⟩ | ⟨hl, rfl⟩
    · rfl
    · exact hfree hl
  | _ => rfl

theorem on_of_running (hr : (s.proc p).state = .running) :
    ∃ c, s.ctx c = .thread p := by
  apply h.on p
  have hfit := h.fits p
  rw [hr] at hfit
  match ht : s.thread p, hfit with
  | .out w, hfit => cases w <;> cases hfit
  | .entered _, _ | .run _, _ | .setup _, _ | .leaving _, _ | .dozing, _ | .drowsy, _ => rfl

theorem of_on (hc : s.ctx c = .thread p) :
    (s.proc p).state = .running ∨ (∃ w, s.thread p = .leaving w) ∧
      ((s.proc p).state = .runnable ∨ (s.proc p).state = .sleeping ∨
        (s.proc p).state = .zombie) := by
  have hfit := h.fits p
  have hon := (h.thread c p hc).2
  match ht : s.thread p, hfit, hon with
  | .leaving .exit, hfit, _ => exact .inr ⟨⟨_, rfl⟩, .inr (.inr (by simpa [Thread.fits] using hfit))⟩
  | .leaving .forkret, hfit, _ | .leaving (.yield _), hfit, _ | .leaving .sleep, hfit, _ =>
    have hst : (s.proc p).state = .runnable ∨ (s.proc p).state = .sleeping := by
      simpa [Thread.fits] using hfit
    exact .inr ⟨⟨_, rfl⟩, hst.imp_right .inl⟩
  | .entered .forkret, hfit, _ | .entered (.yield _), hfit, _ | .entered .sleep, hfit, _ =>
    exact .inl (by simpa [Thread.fits] using hfit)
  | .run _, hfit, _ | .setup _, hfit, _ | .dozing, hfit, _ | .drowsy, hfit, _ =>
    exact .inl (by simpa [Thread.fits] using hfit)

theorem lock_of_cproc (hc : s.cproc c = some p) (hr : (s.proc p).state ≠ .running) :
    s.lock p = some c := by
  rcases h.of_cproc hc with hx | hx
  · obtain ⟨⟨w, ht⟩, -⟩ := (h.of_on hx).resolve_left hr
    exact h.held c p hx (by rw [ht]; rfl)
  · exact (h.back c p hx).2.1

end

end Placed

theorem one_cpu_per_process (chan : Chan) (cond : Fin NPROC → D → Bool) (d : D)
    (hr : Shared.Reaches (act chan cond) (boot k d) s) :
    (∀ p, (s.proc p).state = .running → ∃! c, s.cproc c = some p) ∧
    (∀ c p, s.cproc c = some p → (s.proc p).state ≠ .running → s.lock p = some c) ∧
    (∀ c p, s.ctx c = .thread p → (s.proc p).state ≠ .unused ∧ (s.proc p).state ≠ .used) ∧
    (∀ a s' q, s.act chan cond a = .ok s' → (s.proc q).state = .zombie →
      (s'.proc q).state ≠ .zombie → ∀ c, s.ctx c ≠ .thread q) ∧
    ∀ a msg, s.act chan cond a ≠ .error (.panic msg) := by
  have h : Placed s := hr.inv (Placed.boot d) fun h hs => h.step (act_step hs)
  refine ⟨fun p hrun => ?_, fun c p => h.lock_of_cproc, fun c p hc => ?_,
    fun a s' q hs hz hnz c hc => ?_, fun a msg => h.no_panic⟩
  · obtain ⟨c, hc⟩ := h.on_of_running hrun
    have hcp := (h.thread c p hc).1
    exact ⟨c, hcp, fun c' hc' => h.one c' c p hc' hcp⟩
  · rcases h.of_on hc with hst | ⟨-, hst | hst | hst⟩ <;> simp [hst]
  · rcases h.of_on hc with hst | ⟨⟨w, ht⟩, -⟩
    · cases hst.symm.trans hz
    · exact hnz (by rw [h.leaving_kept (act_step hs) ht, hz])

def forkOnTwo {k : Nat} (c d : Fin k) : List (Fin k × CpuAct Bool) :=
  [(c, .pick 0), (c, .thread .enter), (c, .thread (.alloc 1)), (c, .thread .setUp),
   (c, .thread .ready), (d, .pick 1), (d, .thread .enter), (c, .thread .yield),
   (c, .thread .sched), (c, .unpick), (d, .thread (.exit 7)), (c, .pick 0)]

theorem one_cpu_per_process_forkOnTwo :
    ∃ s, Run.exec (Shared.step (act .null fun _ d => d)) (boot 2 false) (forkOnTwo 0 1) = some s ∧
      (s.proc 0).state = .running ∧ (s.proc 1).state = .zombie ∧ s.cproc 1 = some 1 ∧
      (∃! c, s.cproc c = some 0) ∧ s.lock 1 = some 1 := by
  have hrun : (Run.exec (Shared.step (act .null fun _ d => d)) (boot 2 false) (forkOnTwo 0 1)).map
      (fun s => ((s.proc 0).state, (s.proc 1).state, s.cproc 1)) =
      some (.running, .zombie, some 1) := by
    decide +kernel
  obtain ⟨s, hs, hst⟩ := Option.map_eq_some_iff.mp hrun
  obtain ⟨h0, h1, hc⟩ : (s.proc 0).state = .running ∧ (s.proc 1).state = .zombie ∧
      s.cproc 1 = some 1 := by simpa using hst
  obtain ⟨hone, hlock, -⟩ := one_cpu_per_process .null (fun _ d => d) false ⟨_, hs⟩
  exact ⟨s, hs, h0, h1, hc, hone 0 h0, hlock 1 1 hc (by simp [h1])⟩

end Kernel

end Xv6Audit.Procs
