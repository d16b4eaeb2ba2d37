import Mathlib.Logic.Relation
import Xv6Audit.Proc.Kill
import Xv6Audit.Proc.Wait
import Xv6Audit.Proc.Wakeup

/-! The life of a slot of the process table. The three models of `kernel/proc.c`, whole calls
(`Table`), the critical sections of `fork`, `exit` and `wait` (`Family`) and those of the
scheduler (`Kernel`), all take every slot along it. -/
namespace Xv6Audit.Procs
open Function

inductive Life : ProcState → ProcState → Prop
  | stay (x : ProcState) : Life x x
  | allocproc : Life .unused .used
  | freeproc : Life .used .unused
  | fork : Life .used .runnable
  | scheduler : Life .runnable .running
  | yield : Life .running .runnable
  | sleep : Life .running .sleeping
  | wakeup : Life .sleeping .runnable
  | exit : Life .running .zombie
  | wait : Life .zombie .unused

def Lives (R : ProcState → ProcState → Prop) (f g : Fin NPROC → Proc) : Prop :=
  ∀ q, R (f q).state (g q).state

theorem Lives.update {R : ProcState → ProcState → Prop} {f : Fin NPROC → Proc} {q : Fin NPROC}
    {x : Proc} (hstay : ∀ x, R x x) (h : R (f q).state x.state) : Lives R f (update f q x) := by
  intro r
  by_cases hr : r = q
  · rw [hr, update_self]
    exact h
  · rw [update_of_ne hr]
    exact hstay _

theorem Life.woken (x : Proc) (chan : Chan) : Life x.state (x.woken chan).state := by
  unfold Proc.woken
  split
  · rename_i hx
    rw [hx.1]
    exact .wakeup
  · exact .stay _

theorem Life.hit (x : Proc) : Life x.state x.hit.state := by
  change Life x.state (if _ then _ else _)
  split
  · rename_i hx
    rw [hx]
    exact .wakeup
  · exact .stay _

theorem Lives.one {f : Fin NPROC → Proc} {q : Fin NPROC} {x : Proc} {a b : ProcState} (h : Life a b)
    (ha : (f q).state = a) (hb : x.state = b) : Lives Life f (Function.update f q x) :=
  .update .stay (by rw [ha, hb]; exact h)

theorem Lives.same {f : Fin NPROC → Proc} {q : Fin NPROC} {x : Proc} (hx : x.state = (f q).state) :
    Lives Life f (Function.update f q x) :=
  .one (.stay _) rfl hx

namespace Family
variable {s s' : Family}

theorem Seated.running (h : Seated s) {p : Fin NPROC} {x : Pc} (hp : s.pc p = x)
    (hx : ∀ st, x.fits st = (st == .running)) : (s.proc p).state = .running := by
  have hf := h.fits p
  rw [hp, hx] at hf
  exact eq_of_beq hf

theorem Seated.lives (h : Seated s) (hs : Step s s') : Lives Life s.proc s'.proc := by
  have woken {p q : Fin NPROC} {chan : Chan} {t : Family}
      (ht : p = q ∧ t = s ∨ s.lock q = none ∧ t = s.setProc q fun x => x.woken chan) :
      Lives Life s.proc t.proc := by
    rcases ht with ⟨-, rfl⟩ | ⟨-, rfl⟩
    · exact fun q => .stay _
    · exact .update .stay (.woken _ _)
  cases hs with
  | schedule p f hl hr hf hf' => exact .one .scheduler hr hf'
  | yield p hp hr => exact .one .yield hr rfl
  | sleepOther p a hp hr => exact .one .sleep hr rfl
  | lent q f hl hf =>
    rcases hf.2 with hq | hq
    · exact .same hq.1
    · exact .one .wakeup hq.1 hq.2
  | alloc p q hp hr hl hu => exact .one .allocproc hu rfl
  | abandon p q hp => exact .one .freeproc (h.child p q (by rw [hp]; rfl)).1 rfl
  | setParent p q hp hw hr => exact .same rfl
  | ready p q hp hl hr => exact .one .fork (h.child p q (by rw [hp]; rfl)).1 rfl
  | hand p q status hp hq => exact .same rfl
  | wakeInit p q status pp t hp ht | wakeParent p q status t hp ht => exact (woken ht :)
  | die p status next hp hn => exact .one .exit (h.running hp fun _ => rfl) rfl
  | reap p q havekids hp hq hl hz => exact .one .wait hz rfl
  | sleepSet p hp => exact .one .sleep (h.running hp fun _ => rfl) rfl
  | forkRelease | exit | skip | handed | wokenInit | exitRelease | exitSwitch | wait | scanOn
  | waitEnd | waitSleep | sleepLock | sleepFree | sleepSwitch => exact fun q => .stay _

theorem act_lives {a : FamAct} (hr : Shared.Reaches act boot s) (hs : s.act a = .ok s') :
    Lives Life s.proc s'.proc :=
  (hr.inv kept_boot kept_act).1.seated.lives (act_step hs)

end Family

namespace Kernel
variable {k : Nat} {D : Type} {chan : Chan} {cond : Fin NPROC → D → Bool} {s s' : Kernel k D}

theorem Placed.running (h : Placed s) {p : Fin NPROC} {x : Thread} (hp : s.thread p = x)
    (hx : ∀ st, x.fits st = (st == .running)) : (s.proc p).state = .running := by
  have hf := h.fits p
  rw [hp, hx] at hf
  exact eq_of_beq hf

theorem Placed.lives {c : Fin k} (h : Placed s) (hs : Step chan cond s c s') :
    Lives Life s.proc s'.proc := by
  cases hs with
  | pick p w hc ht hlk hl hr => exact .one .scheduler hr rfl
  | within q f hl hf =>
    rcases hf with hq | hq | hq
    · exact .same hq.1
    · exact .one .wakeup hq.1 hq.2
    · exact .one .wait hq.1 hq.2
  | enter p w child f hc ht hw hf => exact .same hf
  | leave p w child f hc ht hlk hl hf =>
    have hr := h.running ht fun _ => rfl
    rcases hf with hf | hf | hf
    · exact .one .yield hr hf.2
    · exact .one .sleep hr hf.2.1
    · exact .one .exit hr hf.2
  | alloc p q hc ht hlk hl hu => exact .one .allocproc hu rfl
  | endSetup p q child f hc ht hf =>
    rcases hf with hf | hf
    · exact .same (by rw [hf.1])
    · exact .one .freeproc (h.child p q (by rw [ht]; rfl)).1 hf.1
  | ready p q hc ht hl => exact .one .fork (h.child p q (by rw [ht]; rfl)).1 rfl
  | nod p hc ht => exact .one .sleep (h.running ht fun _ => rfl) rfl
  | wakeNext n t hc hlk ht =>
    rcases ht with ⟨-, rfl⟩ | ⟨-, rfl⟩
    · exact fun q => .stay _
    · exact .update .stay (.woken _ _)
  | idle | unpick | sched | doze | dropLk | acquire | change | wakeupLk | wakeLast | release =>
    exact fun q => .stay _

theorem act_lives {a : Fin k × CpuAct D} {d : D} (hr : Shared.Reaches (act chan cond) (boot k d) s)
    (hs : s.act chan cond a = .ok s') : Lives Life s.proc s'.proc :=
  Placed.lives (hr.inv (Placed.boot d) fun h hs => h.step (act_step hs)) (act_step hs)

end Kernel

namespace Table
open Relation
variable {t : Table} {p q : Fin NPROC}

def LivesOn (t t' : Table) : Prop := Lives (ReflTransGen Life) t.proc t'.proc

theorem LivesOn.refl (t : Table) : LivesOn t t := fun _ => .refl

theorem LivesOn.trans {t' t'' : Table} (h : LivesOn t t') (h' : LivesOn t' t'') : LivesOn t t'' :=
  fun q => (h q).trans (h' q)

theorem livesOn_upd {f : Proc → Proc} (h : Life (t.proc q).state (f (t.proc q)).state) :
    LivesOn t (t.upd q f) :=
  Lives.update (fun _ => .refl) (.single h)

theorem livesOn_take (h : (t.proc q).state = .unused) : LivesOn t (t.take q) :=
  Lives.update (fun _ => .refl) (.single (h ▸ .allocproc))

theorem livesOn_freeproc (h : (t.proc q).state = .used) : LivesOn t (t.upd q Proc.freeproc) :=
  livesOn_upd (h ▸ .freeproc)

theorem livesOn_wakeup (t : Table) (me : Fin NPROC) (chan : Chan) : LivesOn t (t.wakeup me chan) := by
  intro q
  simp only [wakeup]
  split
  · exact .refl
  · exact .single (.woken _ _)

theorem wakeup_self (t : Table) (me : Fin NPROC) (chan : Chan) :
    (t.wakeup me chan).proc me = t.proc me := if_pos rfl

theorem livesOn_fork (t : Table) (p : Fin NPROC) (memory copied : Bool) :
    LivesOn t (t.fork p memory copied).2 := by
  unfold fork
  rcases t.allocproc_cases memory with he | ⟨q, hu, he | he⟩ <;> rw [he]
  · exact .refl t
  · have hused : ((t.take q).proc q).state = .used := by rw [take_self]; rfl
    refine (livesOn_take hu).trans ?_
    cases copied with
    | true =>
      refine LivesOn.trans (livesOn_upd (.stay _)) (livesOn_upd ?_)
      rw [upd_self]
      exact hused ▸ .fork
    | false => exact livesOn_freeproc hused
  · exact (livesOn_take hu).trans (livesOn_freeproc (by rw [take_self]; rfl))

theorem livesOn_reparent (t : Table) (p : Fin NPROC) :
    LivesOn t (t.reparent p) ∧ ((t.reparent p).proc p).state = (t.proc p).state := by
  unfold reparent
  generalize List.finRange NPROC = slots
  induction slots generalizing t with
  | nil => exact ⟨.refl t, rfl⟩
  | cons pp slots ih =>
    obtain ⟨hl, hp⟩ := ih (reparentOne p t pp)
    have hone : LivesOn t (reparentOne p t pp) ∧
        ((reparentOne p t pp).proc p).state = (t.proc p).state := by
      unfold reparentOne
      split
      · refine ⟨LivesOn.trans (livesOn_upd (.stay _)) (livesOn_wakeup _ p _), ?_⟩
        rw [wakeup_self]
        by_cases hpp : p = pp
        · rw [hpp, upd_self]
        · rw [upd_other _ _ hpp]
      · exact ⟨.refl t, rfl⟩
    exact ⟨hone.1.trans hl, hp.trans hone.2⟩

theorem livesOn_exit {t' : Table} {status : BitVec 32} (hr : (t.proc p).state = .running)
    (h : t.exit p status = .ok t') : LivesOn t t' := by
  obtain ⟨-, h⟩ := unless_ok.mp h
  cases h
  obtain ⟨hl, hp⟩ := t.livesOn_reparent p
  refine hl.trans ((livesOn_wakeup _ p _).trans (livesOn_upd ?_))
  rw [wakeup_self, hp, hr]
  exact .exit

theorem livesOn_wait (hr : (t.proc p).state = .running) (copied : Bool) :
    LivesOn t (t.wait p copied).2 := by
  unfold wait
  split
  · rename_i q hq
    have hz : (t.proc q).parent = some p ∧ (t.proc q).state = .zombie := by
      simpa using List.find?_some hq
    cases copied with
    | true => exact livesOn_upd (hz.2 ▸ .wait)
    | false => exact .refl t
  · split
    · exact .refl t
    · exact livesOn_upd (hr ▸ .sleep)

theorem livesOn_kill (t : Table) (pid : BitVec 32) : LivesOn t (t.kill pid).2 := by
  unfold kill
  split
  · exact livesOn_upd (.hit _)
  · exact .refl t

theorem act_livesOn {s s' : Blamed} {a : ProcCall} (hs : s.act a = .ok s') :
    LivesOn s.table s'.table := by
  cases a with
  | fork p memory copied =>
    obtain ⟨-, hs⟩ := guard_ok.mp hs
    cases hs
    exact livesOn_fork s.table p memory copied
  | exit p status =>
    obtain ⟨hr, hs⟩ := guard_ok.mp hs
    obtain ⟨t, ht, rfl⟩ := map_ok.mp hs
    exact livesOn_exit hr ht
  | wait p copied =>
    obtain ⟨hr, hs⟩ := guard_ok.mp hs
    cases hs
    exact livesOn_wait hr copied
  | kill pid =>
    cases hs
    exact livesOn_kill s.table pid
  | setkilled q =>
    obtain ⟨-, hs⟩ := guard_ok.mp hs
    cases hs
    exact livesOn_upd (.stay _)
  | sleep p chan =>
    obtain ⟨hr, hs⟩ := guard_ok.mp hs
    cases hs
    exact livesOn_upd (hr ▸ .sleep)
  | wakeup p chan =>
    cases hs
    exact livesOn_wakeup s.table p chan
  | schedule p =>
    obtain ⟨hr, hs⟩ := guard_ok.mp hs
    cases hs
    exact livesOn_upd (hr ▸ .scheduler)
  | yield p =>
    obtain ⟨hr, hs⟩ := guard_ok.mp hs
    cases hs
    exact livesOn_upd (hr ▸ .yield)

end Table

end Xv6Audit.Procs
