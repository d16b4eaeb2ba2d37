import Xv6Audit.Proc.OneCpu

/-! No wakeup is lost: whoever sleeps on `chan`, or is about to, has a false condition or a
`wakeup(chan)` still to come. -/
namespace Xv6Audit.Procs.Kernel
open Thread
variable {k : Nat} {D : Type} (chan : Chan) (cond : Fin NPROC → D → Bool)

def Waits (s : Kernel k D) (p : Fin NPROC) : Prop :=
  s.thread p = .drowsy ∨ (s.proc p).state = .sleeping ∧ (s.proc p).chan = chan

def Due (s : Kernel k D) (p : Fin NPROC) : Prop :=
  match s.lk with
  | .free => False
  | .held _ owes => owes = true
  | .waking _ next => next ≤ p

structure Watched (s : Kernel k D) : Prop where
  placed : Placed s
  dozing : ∀ c p, s.ctx c = .thread p → s.thread p = .dozing →
    cond p s.data = false ∧ s.lk = .held c false
  waits : ∀ p, s.Waits chan p → cond p s.data = true → s.Due p

variable {chan cond} {s s' : Kernel k D} {c : Fin k} {p q : Fin NPROC}

namespace Watched

section
variable (h : Watched chan cond s)
include h

theorem frame (hp : Placed s') (hlk : s'.lk = s.lk) (hdata : s'.data = s.data)
    (hdozing : ∀ c p, s'.ctx c = .thread p → s'.thread p = .dozing →
      s.ctx c = .thread p ∧ s.thread p = .dozing) (hwaits : ∀ p, s'.Waits chan p → s.Waits chan p) :
    Watched chan cond s' := by
  refine ⟨hp, fun c p hc ht => ?_, fun p hw hcond => ?_⟩
  · obtain ⟨hc, ht⟩ := hdozing c p hc ht
    rw [hlk, hdata]
    exact h.dozing c p hc ht
  · rw [hdata] at hcond
    have hdue := h.waits p (hwaits p hw) hcond
    unfold Due at hdue ⊢
    rwa [hlk]

theorem setLk (hp : Placed s') (hc : s.atEase c = true) (hlk : s.lk.cpu = some c ∨ s.lk = .free)
    (hctx : s'.ctx = s.ctx) (hthread : s'.thread = s.thread)
    (hwaits : ∀ p, s'.Waits chan p → cond p s'.data = true → s'.Due p) :
    Watched chan cond s' := by
  refine ⟨hp, fun c' p hc' ht => ?_, hwaits⟩
  rw [hctx] at hc'
  rw [hthread] at ht
  have hheld := (h.dozing c' p hc' ht).2
  rw [hheld] at hlk
  rcases hlk with hlk | hlk
  · cases hlk
    rcases of_atEase hc with hx | ⟨r, child, hr, hrt⟩
    · cases hx.symm.trans hc'
    · cases hr.symm.trans hc'
      cases hrt.symm.trans ht
  · cases hlk

/-- Behind the slot `n`, process `n` does not wait: it is the one that calls `wakeup`, or its lock
was free and it has been woken. -/
theorem passed {n : Fin NPROC} {t : Kernel k D} (hc : s.atEase c = true)
    (ht : s.cproc c = some n ∧ t = s ∨
      s.lock n = none ∧ t = s.setProc n fun x => x.woken chan) : ¬ t.Waits chan n := by
  intro hw
  rcases ht with ⟨hcp, rfl⟩ | ⟨hl, rfl⟩
  · rcases of_atEase hc with hx | ⟨r, child, hr, hrt⟩
    · cases hcp.symm.trans (h.placed.scan c hx)
    · cases hcp.symm.trans (h.placed.thread c r hr).1
      have hrun := (h.placed.of_on hr).resolve_right (by simp [hrt])
      simp [Waits, hrt, hrun] at hw
  · rcases hw with hd | ⟨hst, hch⟩
    · obtain ⟨c', hc'⟩ := h.placed.on n (by rw [show s.thread n = .drowsy from hd]; rfl)
      have := h.placed.held c' n hc' (by rw [show s.thread n = .drowsy from hd]; rfl)
      cases hl.symm.trans this
    · simp only [setProc, Function.update_self, Proc.woken] at hst hch
      split at hst <;> simp_all

theorem step (hs : Step chan cond s c s') : Watched chan cond s' := by
  have hp := h.placed.step hs
  cases hs with
  | idle => exact h
  | pick | unpick | within | leave | sched | alloc | endSetup | ready | nod =>
    refine h.frame hp rfl rfl ?_ ?_ <;> simp only [setProc, setLock, setCpu, go, Waits] <;>
      grind -ring -linarith -lia [Function.update, Lent, Proc.found]
  | enter p w child f hc ht hw hf =>
    have hrun : (s.proc p).state = .running := (h.placed.of_on hc).resolve_right (by simp [ht])
    refine h.frame hp rfl rfl ?_ ?_ <;> simp only [setProc, setLock, go, Waits] <;>
      grind -ring -linarith -lia [Function.update]
  | doze p hc ht hlk hcond hl =>
    refine ⟨hp, fun c' q hc' hq => ?_, fun q hw hq => ?_⟩
    · rcases eq_or_ne q p with rfl | hne
      · have hcc : c' = c := h.placed.one c' c q (h.placed.thread c' q hc').1
          (h.placed.thread c q hc).1
        exact ⟨hcond, hcc ▸ hlk⟩
      · exact h.dozing c' q hc' (by simpa [setLock, go, hne] using hq)
    · rcases eq_or_ne q p with rfl | hne
      · cases hcond.symm.trans hq
      · exact h.waits q (by simpa [Waits, setLock, go, hne] using hw) hq
  | dropLk p hc ht =>
    obtain ⟨hcond, hlk⟩ := h.dozing c p hc ht
    refine ⟨hp, fun c' q hc' hq => ?_, fun q hw hq => ?_⟩
    · rcases eq_or_ne q p with rfl | hne
      · simp [go] at hq
      · have hq : s.thread q = .dozing := by simpa [go, hne] using hq
        have := (h.dozing c' q hc' hq).2
        rw [hlk] at this
        cases this
        cases hc.symm.trans hc'
        exact absurd rfl hne
    · rcases eq_or_ne q p with rfl | hne
      · cases hcond.symm.trans hq
      · have hdue := h.waits q (by simpa [Waits, go, hne] using hw) hq
        simp [Due, hlk] at hdue
  | acquire hc hlk =>
    refine h.setLk hp hc (.inr hlk) rfl rfl fun p hw hcond => ?_
    have hdue := h.waits p hw hcond
    simp [Due, hlk] at hdue
  | change d owes hc hlk =>
    refine h.setLk hp hc (.inl (by rw [hlk]; rfl)) rfl rfl fun p hw hcond => ?_
    have hdue := h.waits p hw
    by_cases hold : cond p s.data = true
    · have howes : owes = true := by simpa [Due, hlk] using hdue hold
      simp [Due, howes]
    · have hraise : s.raises cond d = true :=
        decide_eq_true ⟨p, hcond, Bool.eq_false_of_not_eq_true hold⟩
      simp [Due, hraise]
  | wakeupLk owes hc hlk =>
    exact h.setLk hp hc (.inl (by rw [hlk]; rfl)) rfl rfl fun p _ _ => Nat.zero_le p
  | wakeNext n t hc hlk ht =>
    have hcpu : s.lk.cpu = some c := by rw [hlk]; rfl
    have hpast := h.passed hc ht
    have hback : ∀ p, t.Waits chan p → s.Waits chan p := by
      rcases ht with ⟨-, rfl⟩ | ⟨hl, rfl⟩
      · exact fun _ hw => hw
      · intro p hw
        have hne : p ≠ n := fun he => hpast (he ▸ hw)
        simpa [Waits, setProc, hne] using hw
    have hsame : t.ctx = s.ctx ∧ t.thread = s.thread ∧ t.data = s.data := by
      rcases ht with ⟨-, rfl⟩ | ⟨-, rfl⟩ <;> exact ⟨rfl, rfl, rfl⟩
    refine h.setLk hp hc (.inl hcpu) hsame.1 hsame.2.1 fun p hw hcond => ?_
    have hdue := h.waits p (hback p hw) (hsame.2.2 ▸ hcond)
    simp only [Due, hlk] at hdue
    have hne : (p : Nat) ≠ n := fun he => hpast (Fin.ext he ▸ hw)
    show (n : Nat) + 1 ≤ p
    omega
  | wakeLast n hc hlk hn =>
    refine h.setLk hp hc (.inl (by rw [hlk]; rfl)) rfl rfl fun p hw hcond => ?_
    have hdue := h.waits p hw hcond
    simp only [Due, hlk] at hdue
    omega
  | release hc hlk =>
    refine h.setLk hp hc (.inl (by rw [hlk]; rfl)) rfl rfl fun p hw hcond => ?_
    have hdue := h.waits p hw hcond
    simp [Due, hlk] at hdue

end

theorem boot (d : D) : Watched chan cond (boot k d) := by
  refine ⟨Placed.boot d, fun c p hc => by simp [Kernel.boot] at hc, fun p hw => ?_⟩
  have hst : ((Kernel.boot k d).proc p).state ≠ .sleeping := by
    rcases eq_or_ne p 0 with rfl | hne
    · simp [Kernel.boot, Table.boot]
    · simp [Kernel.boot, Table.boot, hne, Proc.zero]
  rcases hw with hd | ⟨hsl, -⟩
  · cases hd
  · exact absurd hsl hst

end Watched

theorem no_lost_wakeup (chan : Chan) (cond : Fin NPROC → D → Bool) (d : D)
    (hr : Shared.Reaches (act chan cond) (boot k d) s) (hlk : s.lk = .free) (p : Fin NPROC)
    (hst : (s.proc p).state = .sleeping) (hch : (s.proc p).chan = chan) :
    cond p s.data = false := by
  have h : Watched chan cond s := hr.inv (Watched.boot d) fun h hs => h.step (act_step hs)
  by_contra hcond
  have hdue := h.waits p (.inr ⟨hst, hch⟩) (Bool.eq_true_of_not_eq_false hcond)
  simp [Due, hlk] at hdue

def sleepFirst {k : Nat} (c d : Fin k) : List (Fin k × CpuAct Bool) :=
  [(c, .pick 0), (c, .thread .enter), (c, .lk .acquire), (c, .thread .doze), (c, .thread .dropLk),
   (d, .lk .acquire), (c, .thread .nod), (d, .lk (.change false)), (c, .thread .sched),
   (d, .lk .release), (c, .unpick)]

theorem no_lost_wakeup_sleepFirst :
    ∃ s, Run.exec (Shared.step (act (.other 5) fun _ d => d)) (boot 2 false) (sleepFirst 0 1) = some s ∧
      s.lk = .free ∧ (s.proc 0).state = .sleeping ∧ (s.proc 0).chan = .other 5 ∧
      s.data = false := by
  have hrun : (Run.exec (Shared.step (act (.other 5) fun _ d => d)) (boot 2 false) (sleepFirst 0 1)).map
      (fun s => (s.lk, (s.proc 0).state, (s.proc 0).chan)) =
      some (.free, .sleeping, .other 5) := by
    decide +kernel
  obtain ⟨s, hs, hst⟩ := Option.map_eq_some_iff.mp hrun
  obtain ⟨hlk, hsl, hch⟩ : s.lk = .free ∧ (s.proc 0).state = .sleeping ∧
      (s.proc 0).chan = .other 5 := by simpa using hst
  exact ⟨s, hs, hlk, hsl, hch, no_lost_wakeup (.other 5) (fun _ d => d) false ⟨_, hs⟩ hlk 0 hsl hch⟩

end Xv6Audit.Procs.Kernel
