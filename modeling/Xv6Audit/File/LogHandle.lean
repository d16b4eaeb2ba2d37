import Xv6Audit.Lib.Run
import Xv6Audit.File.Table

/-! The handle `static struct file *f` of `kernel/audit_source.c` in runs of the calls that
work on the file table. -/
namespace Xv6Audit.Ftable
open Function

open Prog

inductive Handle where
  | null
  | bad
  | entry (i : Fin NFILE)
deriving DecidableEq

inductive Sink where
  | refused
  | pipe (pi : Nat)
  | device (major : Int)
  | inode (ip : Nat)
deriving DecidableEq

def kfilewrite (i : Fin NFILE) : FileProg Sink := do
  let f := (← get).file i
  if f.writable = false then pure .refused
  else
    match f.type with
    | .pipe => pure (.pipe f.pipe)
    | .device => pure (.device f.major)
    | .inode => pure (.inode f.ip)
    | .none => throw "filewrite"

structure LogFile where
  opened : Bool
  f : Handle
deriving DecidableEq

def ensureOpened (p : Fin NPROC) (found : Option Found) (h : LogFile) :
    FileProg (LogFile × List Released) := do
  if h.opened then pure (h, [])
  else
    match ← helperOpen p found O_CREATE with
    | (some i, r) => pure (⟨true, .entry i⟩, r)
    | (none, r) => pure (⟨true, .bad⟩, r)

def LogFile.entry {σ : Type} (h : LogFile) : Prog σ String (Fin NFILE) :=
  match h.f with
  | .bad => throw "ERROR FILE"
  | .null => throw "No File"
  | .entry i => pure i

def writeToLogs (p : Fin NPROC) (found : Option Found) (h : LogFile) :
    FileProg (LogFile × Sink) := do
  let (h, _) ← ensureOpened p found h
  let i ← h.entry
  let k ← kfilewrite i
  pure (h, k)

inductive FileCall where
  | openFile (found : Option Found) (omode : Nat)
  | dup (fd : Int)
  | close (fd : Int)
  | pipe (page : Option Nat) (out0 out1 : Bool)
  | fork (np : Option (Fin NPROC))
  | exit
  | flush (found : Option Found)

/-- The file table, the processes in use, the log handle, and as ghosts the inode the log
was opened on and where the payloads went. -/
structure Sys where
  files : Files
  live : Fin NPROC → Bool
  log : LogFile
  logIp : Option Nat
  sinks : List Sink

def initproc : Fin NPROC := 0

def Sys.files? {α : Type} (s : Sys) (c : FileProg α) : Option (α × Sys) :=
  match c s.files with
  | (.ok a, t) => some (a, { s with files := t })
  | (.error _, _) => none

def forkFiles (p np : Fin NPROC) : FileProg Unit :=
  forUpto NOFILE fun k => forkFd p np (Fin.ofNat NOFILE k)

def closeUpto (p : Fin NPROC) : Nat → FileProg (List Released)
  | 0 => pure []
  | k+1 => do
    let rs ← closeUpto p k
    let r ← exitFd p (Fin.ofNat NOFILE k)
    pure (rs ++ [r])

def openedIp (s : Sys) (found : Option Found) : Option Nat :=
  if s.log.opened then s.logIp else found.map Found.ip

def step (s : Sys) (e : Fin NPROC × FileCall) : Option Sys :=
  let p := e.1
  if s.live p then
    match e.2 with
    | .openFile found omode => (s.files? (sysOpen p found omode)).map Prod.snd
    | .dup fd => (s.files? (sysDup p fd)).map Prod.snd
    | .close fd => (s.files? (sysClose p fd)).map Prod.snd
    | .pipe page out0 out1 => (s.files? (sysPipe p page out0 out1)).map Prod.snd
    | .fork none => some s
    | .fork (some np) =>
      if s.live np then none
      else (s.files? (forkFiles p np)).map fun r =>
        { r.2 with live := update s.live np true }
    | .exit =>
      if p = initproc then none
      else (s.files? (closeUpto p NOFILE)).map fun r =>
        { r.2 with live := update s.live p false }
    | .flush found => (s.files? (writeToLogs p found s.log)).map fun r =>
        { r.2 with
          log := r.1.1
          logIp := openedIp s found
          sinks := s.sinks ++ [r.1.2] }
  else none

def emptyFile : File := ⟨.none, 0, false, false, 0, 0, 0, 0⟩

def bootFiles : Files where
  file := fun _ => emptyFile
  ofile := fun _ _ => none
  pipe := fun _ => ⟨false, false⟩

def bootSys : Sys where
  files := bootFiles
  live := fun p => p = initproc
  log := ⟨false, .null⟩
  logIp := none
  sinks := []

def HandleValid (s : Sys) : Prop :=
  (∀ i, s.log.f = .entry i →
    1 ≤ (s.files.file i).ref ∧ (s.files.file i).type = .inode ∧
      s.logIp = some (s.files.file i).ip) ∧
  ∀ k ∈ s.sinks, ∃ ip, s.logIp = some ip ∧ k = .inode ip

def rowUses (row : Fin NOFILE → Option (Fin NFILE)) (i : Fin NFILE) : Nat :=
  (Finset.univ.filter fun fd => row fd = some i).card

def uses (s : Files) (p : Fin NPROC) (i : Fin NFILE) : Nat := rowUses (s.ofile p) i

def KeepsEntry (s : Files) (p : Fin NPROC) (i : Fin NFILE) : FileCall → Prop
  | .close fd => (s.argfd p fd).map Prod.snd = some i → 2 ≤ (s.file i).ref
  | .exit => uses s p i < (s.file i).ref
  | _ => True

instance (s : Files) (p : Fin NPROC) (i : Fin NFILE) : (c : FileCall) →
    Decidable (KeepsEntry s p i c)
  | .close _ => inferInstanceAs (Decidable (_ → _))
  | .exit => inferInstanceAs (Decidable (_ < _))
  | .openFile _ _ | .dup _ | .pipe _ _ _ | .fork _ | .flush _ => inferInstanceAs (Decidable True)

def KeepsLog (s : Sys) (e : Fin NPROC × FileCall) : Prop :=
  ∀ i, s.log.f = .entry i → KeepsEntry s.files e.1 i e.2

instance (s : Sys) (e : Fin NPROC × FileCall) : Decidable (KeepsLog s e) :=
  inferInstanceAs (Decidable (∀ _, _ → _))

/-! Entry `i` stays open on inode `ip`. -/

structure Held (s : Files) (i : Fin NFILE) (ip : Nat) : Prop where
  ref : 1 ≤ (s.file i).ref
  type : (s.file i).type = .inode
  ip : (s.file i).ip = ip
  writable : (s.file i).writable = true

def anyPanic : String → Files → Prop := fun _ _ => True

section Held
-- a loop with a literal bound would be unfolded round by round
attribute [local irreducible] forUpto
variable {s : Files} {i : Fin NFILE} {ip : Nat}

theorem Held.of_eq {t : Files} (h : Held s i ip) (he : t.file i = s.file i) : Held t i ip :=
  ⟨he ▸ h.ref, he ▸ h.type, he ▸ h.ip, he ▸ h.writable⟩

variable {j rf wf : Fin NFILE}

theorem Held.upd (h : Held s i ip) (hj : j ≠ i) (f : File) :
    Held (s.upd j f) i ip :=
  h.of_eq (update_of_ne hj.symm _ _)

theorem Held.ne_free (h : Held s i ip) (hj : (s.file j).ref = 0) : j ≠ i := by
  rintro rfl
  have := h.ref
  omega

theorem Held.fileclose (h : Held s i ip) (hj : j = i → 2 ≤ (s.file i).ref) :
    wp (fileclose j) (fun _ t => Held t i ip) anyPanic s := by
  by_cases hji : j = i
  · subst j
    have h2 := hj rfl
    refine wp_fileclose_shared h2 ⟨?_, ?_, ?_, ?_⟩
    · simp only [Files.upd, update_self]
      omega
    · simpa [Files.upd] using h.type
    · simpa [Files.upd] using h.ip
    · simpa [Files.upd] using h.writable
  · exact wp_fileclose (fun _ => trivial) fun _ t _ hf => h.of_eq (hf i (Ne.symm hji))

theorem Held.fdalloc (p : Fin NPROC) (j : Fin NFILE) (h : Held s i ip) :
    wp (fdalloc p j) (fun _ t => Held t i ip) anyPanic s :=
  wp_fdalloc (fun _ => h) fun _ _ => h.of_eq rfl

theorem Held.filedup (j : Fin NFILE) (h : Held s i ip) :
    wp (filedup j) (fun _ t => Held t i ip) anyPanic s := by
  simp only [Ftable.filedup, wp_bind, wp_get, wp_ite, wp_throw, wp_set]
  refine ⟨fun _ => trivial, fun _ => ?_⟩
  by_cases hji : j = i
  · subst j
    refine ⟨?_, ?_, ?_, ?_⟩
    · simp [Files.upd]
    · simpa [Files.upd] using h.type
    · simpa [Files.upd] using h.ip
    · simpa [Files.upd] using h.writable
  · exact h.upd hji _

theorem Held.filealloc (h : Held s i ip) :
    wp filealloc (fun r t => Held t i ip ∧ ∀ j, r = some j → j ≠ i) anyPanic s := by
  refine wp_filealloc (fun _ => ⟨h, by simp⟩) fun j hj => ?_
  have hne := h.ne_free hj
  exact ⟨h.upd hne _, fun k hk => by cases hk; exact hne⟩

theorem Held.openEntry (p : Fin NPROC) (found : Found) (h : Held s i ip) :
    wp (openEntry p found) (fun r t => Held t i ip ∧ ∀ fd j, r.1 = some (fd, j) → j ≠ i)
      anyPanic s := by
  simp only [Ftable.openEntry, wp_ite, wp_pure, wp_bind]
  refine ⟨fun _ => ⟨h, by simp⟩, fun _ => ?_⟩
  refine wp_post h.filealloc ?_
  rintro r t ⟨ht, hne⟩
  cases r with
  | none => exact ⟨ht, by simp⟩
  | some j =>
    have hj := hne j rfl
    rw [wp_bind]
    refine wp_post (ht.fdalloc p j) ?_
    intro r u hu
    cases r with
    | none =>
      rw [wp_bind]
      exact wp_post (hu.fileclose fun he => absurd he hj) fun _ _ hv => ⟨hv, by simp⟩
    | some fd =>
      refine ⟨hu, ?_⟩
      intro fd' j' he
      cases he
      exact hj

theorem Held.sysOpen (p : Fin NPROC) (found : Option Found) (omode : Nat) (h : Held s i ip) :
    wp (sysOpen p found omode) (fun _ t => Held t i ip) anyPanic s := by
  cases found with
  | none => exact h
  | some found =>
    simp only [Ftable.sysOpen, wp_ite, wp_pure, wp_bind]
    refine ⟨fun _ => h, fun _ => wp_post (h.openEntry p found) ?_⟩
    rintro ⟨_ | ⟨fd, j⟩, r⟩ t ⟨ht, hne⟩
    · exact ht
    · exact ht.upd (hne fd j rfl) _

theorem Held.sysDup (p : Fin NPROC) (fd : Int) (h : Held s i ip) :
    wp (sysDup p fd) (fun _ t => Held t i ip) anyPanic s := by
  simp only [Ftable.sysDup, wp_bind, wp_get]
  cases s.argfd p fd with
  | none => exact h
  | some a =>
    rw [wp_bind]
    refine wp_post (h.fdalloc p a.2) ?_
    intro r t ht
    cases r with
    | none => exact ht
    | some fd =>
      rw [wp_bind]
      exact ht.filedup a.2

theorem Held.sysClose (p : Fin NPROC) (fd : Int) (h : Held s i ip)
    (hk : (s.argfd p fd).map Prod.snd = some i → 2 ≤ (s.file i).ref) :
    wp (sysClose p fd) (fun _ t => Held t i ip) anyPanic s := by
  simp only [Ftable.sysClose, wp_bind, wp_get]
  cases ha : s.argfd p fd with
  | none => exact h
  | some a =>
    simp only [wp_bind, wp_modify, wp_pure]
    have hs : Held (s.setFd p a.1 none) i ip := h.of_eq rfl
    refine hs.fileclose fun he => hk ?_
    rw [ha, Option.map_some, he]

theorem Held.closeBoth {α : Type} (f : Released → Released → α) (h : Held s i ip) (hr : rf ≠ i)
    (hw : wf ≠ i) :
    wp (do
      let a ← Ftable.fileclose rf
      let b ← Ftable.fileclose wf
      pure (f a b)) (fun _ t => Held t i ip) anyPanic s := by
  simp only [wp_bind, wp_pure]
  refine wp_post (h.fileclose fun he => absurd he hr) fun _ t ht => ?_
  exact ht.fileclose fun he => absurd he hw

theorem Held.pipeFds (p : Fin NPROC) (out0 out1 : Bool) (h : Held s i ip) (hr : rf ≠ i)
    (hw : wf ≠ i) :
    wp (pipeFds p rf wf out0 out1) (fun _ t => Held t i ip) anyPanic s := by
  simp only [Ftable.pipeFds]
  rw [wp_bind]
  refine wp_post (h.fdalloc p rf) fun r t ht => ?_
  cases r with
  | none => exact ht.closeBoth _ hr hw
  | some fd0 =>
    rw [wp_bind]
    refine wp_post (ht.fdalloc p wf) fun r u hu => ?_
    cases r with
    | none =>
      rw [wp_bind, wp_modify]
      exact Held.closeBoth _ (hu.of_eq rfl) hr hw
    | some fd1 =>
      rw [wp_ite]
      refine ⟨fun _ => ?_, fun _ => hu⟩
      rw [wp_bind, wp_modify, wp_bind, wp_modify]
      exact Held.closeBoth _ (hu.of_eq rfl) hr hw

theorem Held.pipeInit (page : Option Nat) (h : Held s i ip) (hr : rf ≠ i) (hw : wf ≠ i) :
    wp (pipeInit rf wf page) (fun _ t => Held t i ip) anyPanic s := by
  cases page with
  | none => exact h.closeBoth _ hr hw
  | some pi =>
    simp only [Ftable.pipeInit, wp_bind, wp_modify, wp_pure]
    have hp : Held (s.setPipe pi ⟨true, true⟩) i ip := h.of_eq rfl
    exact (hp.upd hr _).upd hw _

theorem Held.pipeEntries (h : Held s i ip) :
    wp pipeEntries (fun r t => Held t i ip ∧ ∀ f0 f1, r.1 = some (f0, f1) → f0 ≠ i ∧ f1 ≠ i)
      anyPanic s := by
  simp only [Ftable.pipeEntries, wp_bind]
  refine wp_post h.filealloc ?_
  rintro r t ⟨ht, h0⟩
  cases r with
  | none => exact ⟨ht, by simp⟩
  | some f0 =>
    rw [wp_bind]
    refine wp_post ht.filealloc ?_
    rintro r u ⟨hu, h1⟩
    cases r with
    | none =>
      rw [wp_bind]
      exact wp_post (hu.fileclose fun he => absurd he (h0 f0 rfl)) fun _ _ hv => ⟨hv, by simp⟩
    | some f1 =>
      refine ⟨hu, ?_⟩
      intro a b he
      cases he
      exact ⟨h0 f0 rfl, h1 f1 rfl⟩

theorem Held.sysPipe (p : Fin NPROC) (page : Option Nat) (out0 out1 : Bool) (h : Held s i ip) :
    wp (sysPipe p page out0 out1) (fun _ t => Held t i ip) anyPanic s := by
  simp only [Ftable.sysPipe, wp_bind]
  refine wp_post h.pipeEntries ?_
  rintro ⟨_ | ⟨rf, wf⟩, r⟩ t ⟨ht, hne⟩
  · exact ht
  · obtain ⟨hr, hw⟩ := hne rf wf rfl
    rw [wp_bind]
    refine wp_post (ht.pipeInit page hr hw) ?_
    rintro ⟨_ | _, r⟩ u hu
    · exact hu
    · exact hu.pipeFds p out0 out1 hr hw

theorem Held.forkFiles (p np : Fin NPROC) (h : Held s i ip) :
    wp (forkFiles p np) (fun _ t => Held t i ip) anyPanic s := by
  unfold Ftable.forkFiles
  refine wp_forUpto (fun _ t => Held t i ip) h fun k _ t ht => ?_
  simp only [forkFd, wp_bind, wp_get]
  cases t.ofile p (Fin.ofNat NOFILE k) with
  | none => exact ht
  | some j =>
    rw [wp_bind]
    exact wp_post (ht.filedup j) fun _ u hu => hu.of_eq rfl

theorem rowUses_clear_other {row : Fin NOFILE → Option (Fin NFILE)} {fd : Fin NOFILE}
    (h : row fd ≠ some i) : rowUses (update row fd none) i = rowUses row i := by
  unfold rowUses
  congr 1
  ext k
  by_cases hk : k = fd
  · subst k
    simp [h]
  · simp [update_of_ne hk]

theorem rowUses_clear_self {row : Fin NOFILE → Option (Fin NFILE)} {fd : Fin NOFILE}
    (h : row fd = some i) : rowUses (update row fd none) i + 1 = rowUses row i := by
  have hmem : fd ∈ Finset.univ.filter fun k => row k = some i := by simp [h]
  have herase : (Finset.univ.filter fun k => update row fd none k = some i) =
      (Finset.univ.filter fun k => row k = some i).erase fd := by
    ext k
    by_cases hk : k = fd
    · subst k
      simp
    · simp [hk]
  unfold rowUses
  rw [herase, Finset.card_erase_add_one hmem]

theorem uses_setFd {t : Files} (h : t.ofile = s.ofile) (p : Fin NPROC) (fd : Fin NOFILE) :
    uses (t.setFd p fd none) p i = rowUses (update (s.ofile p) fd none) i := by
  simp only [uses, Files.setFd, h, update_self]

/-- `exit` closes one reference for every descriptor it gives up, so an entry with more
references than that stays open. -/
theorem Held.exitFd (p : Fin NPROC) (fd : Fin NOFILE) (h : Held s i ip)
    (hu : uses s p i < (s.file i).ref) :
    wp (exitFd p fd) (fun _ t => Held t i ip ∧ uses t p i < (t.file i).ref) anyPanic s := by
  simp only [Ftable.exitFd, wp_bind, wp_get]
  cases hfd : s.ofile p fd with
  | none => exact ⟨h, hu⟩
  | some j =>
    simp only [wp_bind, wp_modify, wp_pure]
    by_cases hj : j = i
    · subst j
      have hcount := rowUses_clear_self hfd
      have href : 2 ≤ (s.file i).ref := by unfold uses at hu; omega
      refine wp_fileclose_shared href ⟨⟨?_, ?_, ?_, ?_⟩, ?_⟩
      all_goals simp only [uses, Files.upd, Files.setFd, update_self]
      · omega
      · exact h.type
      · exact h.ip
      · exact h.writable
      · unfold uses at hu
        omega
    · refine wp_fileclose (fun _ => trivial) fun _ u hof hf => ?_
      have hfi := hf i (Ne.symm hj)
      have hne : s.ofile p fd ≠ some i := by
        rw [hfd]
        exact fun he => hj (Option.some.inj he)
      refine ⟨h.of_eq hfi, ?_⟩
      rw [uses_setFd hof, rowUses_clear_other hne]
      change _ < (u.file i).ref
      rw [hfi]
      exact hu

theorem Held.closeUpto (p : Fin NPROC) (h : Held s i ip) (hu : uses s p i < (s.file i).ref)
    (k : Nat) :
    wp (closeUpto p k) (fun _ t => Held t i ip ∧ uses t p i < (t.file i).ref) anyPanic s := by
  induction k with
  | zero => exact ⟨h, hu⟩
  | succ k ih =>
    simp only [Ftable.closeUpto, wp_bind]
    refine wp_post ih fun _ t ht => ?_
    exact wp_post (ht.1.exitFd p _ ht.2) fun _ _ hu => hu

end Held

/-! Runs. -/

variable {s' : Sys} {found : Option Found} {p : Fin NPROC} {s : Sys}

theorem files?_inv {α : Type} {c : FileProg α} {a : α} {I : Files → Prop}
    (hc : wp c (fun _ t => I t) anyPanic s.files) (h : s.files? c = some (a, s')) :
    I s'.files ∧ s' = { s with files := s'.files } := by
  unfold Sys.files? at h
  unfold wp at hc
  rcases hcs : c s.files with ⟨r, t⟩
  rw [hcs] at h hc
  cases r with
  | ok b =>
    obtain ⟨-, rfl⟩ : b = a ∧ { s with files := t } = s' := by simpa using h
    exact ⟨hc, rfl⟩
  | error e => simp at h

structure LogInv (s : Sys) : Prop where
  held : ∀ i, s.log.f = .entry i → ∃ ip, s.logIp = some ip ∧ Held s.files i ip
  opened : s.log.opened = true → ∃ i, s.log.f = .entry i
  fresh : s.log.opened = false → s.log.f = .null ∧ s.sinks = []
  sinks : ∀ k ∈ s.sinks, ∃ ip, s.logIp = some ip ∧ k = .inode ip

theorem LogInv.valid (h : LogInv s) : HandleValid s := by
  refine ⟨?_, h.sinks⟩
  intro i hi
  obtain ⟨ip, hip, hheld⟩ := h.held i hi
  exact ⟨hheld.ref, hheld.type, by rw [hip, hheld.ip]⟩

theorem LogInv.files {α : Type} {c : FileProg α} {a : α} (h : LogInv s)
    (hc : ∀ i ip, s.log.f = .entry i → Held s.files i ip →
      wp c (fun _ t => Held t i ip) anyPanic s.files) (hs : s.files? c = some (a, s')) :
    LogInv s' := by
  have hany : wp c (fun _ _ => True) anyPanic s.files := by
    unfold wp
    split <;> trivial
  obtain ⟨-, heq⟩ := files?_inv hany hs
  have hlog : s'.log = s.log := by rw [heq]
  have hip : s'.logIp = s.logIp := by rw [heq]
  have hsinks : s'.sinks = s.sinks := by rw [heq]
  refine ⟨?_, hlog ▸ h.opened, hlog ▸ hsinks ▸ h.fresh, hip ▸ hsinks ▸ h.sinks⟩
  intro i hi
  rw [hlog] at hi
  obtain ⟨ip, hsome, hheld⟩ := h.held i hi
  exact ⟨ip, hip ▸ hsome, (files?_inv (hc i ip hi hheld) hs).1⟩

theorem LogInv.setLive (h : LogInv s) (live : Fin NPROC → Bool) :
    LogInv { s with live := live } :=
  ⟨h.held, h.opened, h.fresh, h.sinks⟩

theorem wp_helperOpen_held (p : Fin NPROC) (found : Option Found) (s : Files) :
    wp (helperOpen p found O_CREATE)
      (fun r t => ∀ i, r.1 = some i → ∃ fd, found = some fd ∧ Held t i fd.ip) anyPanic s := by
  cases found with
  | none => simp [helperOpen]
  | some found =>
    have hflag : flag O_CREATE O_CREATE = true := by decide
    simp only [helperOpen, hflag, Bool.true_eq_false, false_and, if_false, wp_bind, openEntry,
      wp_ite, wp_pure]
    refine ⟨fun _ => by simp, fun _ => wp_filealloc (fun _ => by simp) fun i hi => ?_⟩
    rw [wp_bind]
    refine wp_fdalloc (fun _ => ?_) fun fd _ => ?_
    · rw [wp_bind]
      exact wp_fileclose (fun _ => trivial) fun _ _ _ _ => by simp
    · simp only [wp_pure, wp_bind, wp_modify, Option.some.injEq]
      rintro _ rfl
      refine ⟨found, rfl, ?_, ?_, ?_, ?_⟩
      all_goals simp [Files.upd, Files.setFd]

theorem wp_kfilewrite_held {s : Files} {i : Fin NFILE} {ip : Nat} (h : Held s i ip) :
    wp (kfilewrite i) (fun k t => k = .inode ip ∧ t = s) anyPanic s := by
  simp [kfilewrite, h.writable, h.type, h.ip]

theorem writeToLogs_first (ho : s.log.opened = false) :
    wp (writeToLogs p found s.log)
      (fun r t => ∃ i fd, r.1 = ⟨true, .entry i⟩ ∧ found = some fd ∧ Held t i fd.ip ∧
        r.2 = .inode fd.ip) anyPanic s.files := by
  simp only [writeToLogs, ensureOpened, ho, Bool.false_eq_true, if_false, wp_bind]
  refine wp_post (wp_helperOpen_held p found s.files) ?_
  rintro ⟨_ | i, r⟩ t ht
  · trivial
  · obtain ⟨fd, hfd, hheld⟩ := ht i rfl
    simp only [LogFile.entry, wp_pure]
    refine wp_post (wp_kfilewrite_held hheld) ?_
    rintro k u ⟨rfl, rfl⟩
    exact ⟨i, fd, rfl, hfd, hheld, rfl⟩

theorem writeToLogs_again {i : Fin NFILE} {ip : Nat} (ho : s.log.opened = true)
    (hi : s.log.f = .entry i) (h : Held s.files i ip) :
    wp (writeToLogs p found s.log)
      (fun r t => r.1 = s.log ∧ r.2 = .inode ip ∧ t = s.files) anyPanic s.files := by
  simp only [writeToLogs, ensureOpened, LogFile.entry, ho, if_true, wp_bind, wp_pure, hi]
  refine wp_post (wp_kfilewrite_held h) ?_
  rintro k u ⟨rfl, rfl⟩
  simp

theorem LogInv.flush {k : Sink} {l : LogFile} (h : LogInv s)
    (hs : s.files? (writeToLogs p found s.log) = some ((l, k), s')) :
    LogInv { s' with log := l, logIp := openedIp s found, sinks := s.sinks ++ [k] } := by
  unfold Sys.files? at hs
  rcases hw : writeToLogs p found s.log s.files with ⟨r, t⟩
  rw [hw] at hs
  cases r with
  | error e => simp at hs
  | ok a =>
    obtain ⟨rfl, rfl⟩ : a = (l, k) ∧ { s with files := t } = s' := by simpa using hs
    cases ho : s.log.opened with
    | false =>
      obtain ⟨i, fd, rfl, rfl, hheld, rfl⟩ := wp_of_run (writeToLogs_first ho) hw
      have hip : openedIp s (some fd) = some fd.ip := by simp [openedIp, ho]
      refine ⟨?_, fun _ => ⟨i, rfl⟩, by simp, ?_⟩
      · rintro j hj
        cases hj
        exact ⟨fd.ip, hip, hheld⟩
      · intro k hk
        rw [(h.fresh ho).2, List.nil_append, List.mem_singleton] at hk
        exact ⟨fd.ip, hip, hk⟩
    | true =>
      obtain ⟨i, hi⟩ := h.opened ho
      obtain ⟨ip, hsome, hheld⟩ := h.held i hi
      obtain ⟨rfl, rfl, rfl⟩ := wp_of_run (writeToLogs_again ho hi hheld) hw
      have hip : openedIp s found = s.logIp := by simp [openedIp, ho]
      refine ⟨?_, h.opened, by simp [ho], ?_⟩
      · intro j hj
        rw [hip]
        exact h.held j hj
      · intro k hk
        rw [hip]
        rcases List.mem_append.mp hk with hk | hk
        · exact h.sinks k hk
        · exact ⟨ip, hsome, List.mem_singleton.mp hk⟩

section
attribute [local irreducible] forkFiles closeUpto

theorem LogInv.step {e : Fin NPROC × FileCall} (h : LogInv s) (hk : KeepsLog s e)
    (hs : step s e = some s') : LogInv s' := by
  obtain ⟨p, c⟩ := e
  cases hp : s.live p with
  | false => simp [Ftable.step, hp] at hs
  | true =>
    simp only [Ftable.step, hp, if_true] at hs
    cases c with
    | openFile found omode =>
      obtain ⟨⟨a, t⟩, ha, rfl⟩ := Option.map_eq_some_iff.mp hs
      exact h.files (fun _ _ _ hh => hh.sysOpen p found omode) ha
    | dup fd =>
      obtain ⟨⟨a, t⟩, ha, rfl⟩ := Option.map_eq_some_iff.mp hs
      exact h.files (fun _ _ _ hh => hh.sysDup p fd) ha
    | close fd =>
      obtain ⟨⟨a, t⟩, ha, rfl⟩ := Option.map_eq_some_iff.mp hs
      exact h.files (fun i _ hi hh => hh.sysClose p fd (hk i hi)) ha
    | pipe page out0 out1 =>
      obtain ⟨⟨a, t⟩, ha, rfl⟩ := Option.map_eq_some_iff.mp hs
      exact h.files (fun _ _ _ hh => hh.sysPipe p page out0 out1) ha
    | fork np =>
      cases np with
      | none =>
        obtain rfl : s = s' := by simpa using hs
        exact h
      | some np =>
        by_cases hnp : s.live np = true
        · simp [hnp] at hs
        · simp only [hnp, Bool.false_eq_true, if_false] at hs
          obtain ⟨⟨a, t⟩, ha, rfl⟩ := Option.map_eq_some_iff.mp hs
          exact (h.files (fun _ _ _ hh => hh.forkFiles p np) ha).setLive _
    | exit =>
      by_cases hi : p = initproc
      · simp [hi] at hs
      · simp only [hi, if_false] at hs
        obtain ⟨⟨a, t⟩, ha, rfl⟩ := Option.map_eq_some_iff.mp hs
        exact (h.files (fun i _ hi hh => wp_post (hh.closeUpto p (hk i hi) NOFILE) fun _ _ ht => ht.1)
          ha).setLive _
    | flush found =>
      obtain ⟨⟨⟨l, k⟩, t⟩, ha, rfl⟩ := Option.map_eq_some_iff.mp hs
      exact h.flush ha

end

theorem LogInv.boot : LogInv bootSys :=
  ⟨by simp [bootSys], by simp [bootSys], by simp [bootSys], by simp [bootSys]⟩

/-- In every run in which no call gives up the last descriptor of the log's entry, the
handle stays valid and all payloads go to the log's inode. -/
theorem log_handle_valid (calls : List (Fin NPROC × FileCall)) (s : Sys)
    (hrun : Run.exec step bootSys calls = some s)
    (hk : Run.Along step KeepsLog bootSys calls) : HandleValid s :=
  (Run.exec_inv (fun h hk hs => LogInv.step h hk hs) LogInv.boot hk hrun).valid

def logInode : Found := ⟨5, .file, 0⟩

def sharedRun : List (Fin NPROC × FileCall) :=
  [(0, .flush (some logInode)), (0, .fork (some 1)), (1, .close 0), (1, .flush none)]

theorem sharedRun_handle_valid :
    ∃ s, Run.exec step bootSys sharedRun = some s ∧ HandleValid s :=
  ⟨_, rfl, log_handle_valid sharedRun _ rfl (by decide)⟩

/-- `init` closes descriptor 0, which the first flush had put there, and opens another file:
it gets the log's entry, and the next payload goes into that file. -/
def reusedRun : List (Fin NPROC × FileCall) :=
  [(0, .flush (some logInode)), (0, .close 0), (0, .openFile (some ⟨7, .file, 0⟩) O_RDWR),
    (0, .flush none)]

theorem reusedRun_handle_stale :
    ∃ s, Run.exec step bootSys reusedRun = some s ∧ ¬ HandleValid s ∧
      s.sinks = [.inode 5, .inode 7] :=
  ⟨_, rfl, fun h => absurd (h.1 0 rfl) (by decide), rfl⟩

end Xv6Audit.Ftable
