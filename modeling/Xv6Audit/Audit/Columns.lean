import Xv6Audit.Audit.Attribution

/-! The permission columns of the audit records: `f` is captured at the dispatch and
`f->readable`, `f->writable` are read when the record is appended. -/
namespace Xv6Audit.Audited
open Function

open Audit Ftable Prog

/-! Flags of the open file table. They are set only for an entry that `filealloc` has just
taken. -/

structure Frame (X : Fin NFILE → Prop) (p : Fin NPROC) (s t : Files) : Prop where
  flags : ∀ i, ¬ X i → flags t i = flags s i
  rows : ∀ q, q ≠ p → t.ofile q = s.ofile q

def Mono (p : Fin NPROC) (s t : Files) : Prop :=
  ∀ fd i, s.ofile p fd = some i → t.ofile p fd = some i

variable {i : Fin NFILE} {c : RefCall} {files : Files} {found : Option Found}
    {r : LogFile × List Released}

section Files
-- a loop with a literal bound would be unfolded round by round
attribute [local irreducible] forUpto
variable {s t u : Files} {p : Fin NPROC} {X : Fin NFILE → Prop}

theorem Frame.refl : Frame X p s s := ⟨fun _ _ => rfl, fun _ _ => rfl⟩

theorem Frame.trans (h : Frame X p s t) (h' : Frame X p t u) : Frame X p s u :=
  ⟨fun i hi => (h'.flags i hi).trans (h.flags i hi), fun q hq => (h'.rows q hq).trans (h.rows q hq)⟩

theorem Frame.widen {Y : Fin NFILE → Prop} (h : Frame X p s t) (hXY : ∀ i, X i → Y i) :
    Frame Y p s t :=
  ⟨fun i hi => h.flags i fun hx => hi (hXY i hx), h.rows⟩

theorem Mono.trans (h : Mono p s t) (h' : Mono p t u) : Mono p s u := fun fd i hi =>
  h' fd i (h fd i hi)

theorem Mono.of_eq (h : t.ofile = s.ofile) : Mono p s t := fun fd i hi => by rwa [h]

theorem Frame.upd {f : File}
    (h : ¬ X i → f.readable = (s.file i).readable ∧ f.writable = (s.file i).writable) :
    Frame X p s (s.upd i f) := by
  refine ⟨fun k hk => ?_, fun _ _ => rfl⟩
  unfold Audited.flags Files.upd
  by_cases hki : k = i
  · subst hki
    simp [h hk]
  · simp [update_of_ne hki]

theorem Frame.setFd (fd : Fin NOFILE) (v : Option (Fin NFILE)) : Frame X p s (s.setFd p fd v) :=
  ⟨fun _ _ => rfl, fun _ hq => update_of_ne hq _ _⟩

theorem setFd_other {fd fd' : Fin NOFILE} (v : Option (Fin NFILE)) (h : fd' ≠ fd) :
    (s.setFd p fd v).ofile p fd' = s.ofile p fd' := by
  simp [Files.setFd, h]

theorem Mono.setFd {fd : Fin NOFILE} (h : s.ofile p fd = none) :
    Mono p s (s.setFd p fd (some i)) := by
  intro fd' k hk
  have hne : fd' ≠ fd := by
    rintro rfl
    rw [h] at hk
    cases hk
  rwa [setFd_other _ hne]

theorem wp_fileclose_frame (i : Fin NFILE) :
    wp (fileclose i) (fun _ t => Frame X p s t ∧ t.ofile = s.ofile) anyPanic s := by
  simp only [fileclose, wp_bind, wp_get, wp_ite, wp_throw, wp_set, wp_pure]
  refine ⟨fun _ => trivial, fun _ => ⟨fun _ => ⟨Frame.upd fun _ => ⟨rfl, rfl⟩, rfl⟩, fun _ => ?_⟩⟩
  have hclosed : Frame X p s (s.upd i { s.file i with ref := 0, type := .none }) :=
    Frame.upd fun _ => ⟨rfl, rfl⟩
  cases (s.file i).type with
  | pipe =>
    simp only [pipeclose, wp_bind, wp_get, wp_set, wp_ite, wp_pure]
    exact ⟨fun _ => ⟨hclosed.trans ⟨fun _ _ => rfl, fun _ _ => rfl⟩, rfl⟩,
      fun _ => ⟨hclosed.trans ⟨fun _ _ => rfl, fun _ _ => rfl⟩, rfl⟩⟩
  | inode | device | none => exact ⟨hclosed, rfl⟩

theorem wp_filealloc_frame :
    wp filealloc (fun r t => Frame X p s t ∧ t.ofile = s.ofile ∧ ∀ i, r = some i →
      (s.file i).ref = 0 ∧ ∀ k, (t.file k).ref = 0 → (s.file k).ref = 0) anyPanic s := by
  refine wp_filealloc (fun _ => ⟨.refl, rfl, fun i hi => by cases hi⟩) fun i hi =>
    ⟨Frame.upd fun _ => ⟨rfl, rfl⟩, rfl, fun k hk => ?_⟩
  cases hk
  refine ⟨hi, fun k hk => ?_⟩
  by_cases hki : k = i
  · rwa [hki]
  · simpa [Files.upd, update_of_ne hki] using hk

theorem wp_sysDup_frame (fd : Int) :
    wp (sysDup p fd) (fun _ t => Frame X p s t ∧ Mono p s t) anyPanic s := by
  simp only [sysDup, wp_bind, wp_get]
  cases s.argfd p fd with
  | none => exact ⟨.refl, .of_eq rfl⟩
  | some a =>
    simp only [wp_bind]
    refine wp_fdalloc (fun _ => ⟨.refl, .of_eq rfl⟩) fun fd' hfree => ?_
    simp only [filedup, wp_bind, wp_get, wp_ite, wp_throw, wp_set, wp_pure]
    exact ⟨fun _ => trivial, fun _ => ⟨(Frame.setFd _ _).trans (Frame.upd fun _ => ⟨rfl, rfl⟩),
      (Mono.setFd hfree).trans (.of_eq rfl)⟩⟩

theorem wp_sysClose_frame (fd : Int) :
    wp (sysClose p fd) (fun _ t => Frame X p s t) anyPanic s := by
  simp only [sysClose, wp_bind, wp_get]
  cases s.argfd p fd with
  | none => exact .refl
  | some a =>
    simp only [wp_bind, wp_modify]
    exact wp_post (wp_fileclose_frame a.2) fun _ t ht => (Frame.setFd _ _).trans ht.1

theorem wp_openEntry_frame (found : Found) :
    wp (openEntry p found) (fun r t => Frame X p s t ∧ Mono p s t ∧
      ∀ fd i, r.1 = some (fd, i) → (s.file i).ref = 0) anyPanic s := by
  simp only [openEntry, wp_ite, wp_pure, wp_bind]
  refine ⟨fun _ => ⟨.refl, .of_eq rfl, fun _ _ h => by cases h⟩,
    fun _ => wp_post (wp_filealloc_frame (X := X) (p := p)) ?_⟩
  rintro (_ | i) t ⟨ht, hof, hfree⟩
  · exact ⟨ht, .of_eq hof, fun _ _ h => by cases h⟩
  · rw [wp_bind]
    refine wp_fdalloc (fun _ => ?_) fun fd hfd => ?_
    · rw [wp_bind]
      exact wp_post (wp_fileclose_frame (X := X) (p := p) i) fun _ u hu =>
        ⟨ht.trans hu.1, .of_eq (hu.2.trans hof), fun _ _ h => by cases h⟩
    · refine ⟨ht.trans (Frame.setFd _ _), (Mono.of_eq hof).trans (Mono.setFd hfd), ?_⟩
      intro fd' i' h
      cases h
      exact (hfree i rfl).1

def Free (s : Files) (i : Fin NFILE) : Prop := (s.file i).ref = 0

theorem wp_open_frame (found : Option Found) (omode : Nat) :
    wp (sysOpen p found omode) (fun _ t => Frame (Free s) p s t ∧ Mono p s t) anyPanic s ∧
      wp (helperOpen p found omode) (fun _ t => Frame (Free s) p s t ∧ Mono p s t) anyPanic s := by
  constructor <;> cases found with
  | none => exact ⟨.refl, .of_eq rfl⟩
  | some found =>
    simp only [sysOpen, helperOpen, wp_ite, wp_pure, wp_bind]
    refine ⟨fun _ => ⟨.refl, .of_eq rfl⟩, fun _ => wp_post (wp_openEntry_frame (X := Free s) found) ?_⟩
    rintro ⟨_ | ⟨fd, i⟩, r⟩ t ⟨ht, hmono, hfree⟩
    · exact ⟨ht, hmono⟩
    · rw [wp_bind, wp_modify]
      exact ⟨ht.trans (Frame.upd fun hi => absurd (hfree fd i rfl) hi), hmono.trans (.of_eq rfl)⟩

theorem wp_closeBoth_frame {rf wf : Fin NFILE} {α : Type} (f : Released → Released → α) :
    wp (do
      let a ← fileclose rf
      let b ← fileclose wf
      pure (f a b)) (fun _ t => Frame X p s t ∧ t.ofile = s.ofile) anyPanic s := by
  rw [wp_bind]
  refine wp_post (wp_fileclose_frame (X := X) (p := p) rf) fun _ t ht => ?_
  rw [wp_bind]
  exact wp_post (wp_fileclose_frame (X := X) (p := p) wf) fun _ u hu =>
    ⟨ht.1.trans hu.1, hu.2.trans ht.2⟩

theorem wp_pipeEntries_frame :
    wp pipeEntries (fun r t => Frame X p s t ∧ t.ofile = s.ofile ∧
      ∀ f0 f1, r.1 = some (f0, f1) → (s.file f0).ref = 0 ∧ (s.file f1).ref = 0) anyPanic s := by
  simp only [pipeEntries, wp_bind]
  refine wp_post (wp_filealloc_frame (X := X) (p := p)) ?_
  rintro (_ | f0) t ⟨ht, hof, hfree⟩
  · exact ⟨ht, hof, fun _ _ h => by cases h⟩
  · rw [wp_bind]
    refine wp_post (wp_filealloc_frame (X := X) (p := p)) ?_
    rintro (_ | f1) u ⟨hu, hof', hfree'⟩
    · rw [wp_bind]
      exact wp_post (wp_fileclose_frame (X := X) (p := p) f0) fun _ v hv =>
        ⟨(ht.trans hu).trans hv.1, (hv.2.trans hof').trans hof, fun _ _ h => by cases h⟩
    · refine ⟨ht.trans hu, hof'.trans hof, fun g0 g1 h => ?_⟩
      cases h
      exact ⟨(hfree f0 rfl).1, (hfree f0 rfl).2 f1 (hfree' f1 rfl).1⟩

theorem wp_pipeInit_frame {f0 f1 : Fin NFILE} (page : Option Nat) (h0 : X f0) (h1 : X f1) :
    wp (pipeInit f0 f1 page) (fun _ t => Frame X p s t ∧ t.ofile = s.ofile) anyPanic s := by
  cases page with
  | none => exact wp_closeBoth_frame fun a b => (false, [a, b])
  | some pi =>
    simp only [pipeInit, wp_bind, wp_modify, wp_pure]
    have hpipe : Frame X p s (s.setPipe pi ⟨true, true⟩) := ⟨fun _ _ => rfl, fun _ _ => rfl⟩
    exact ⟨(hpipe.trans (Frame.upd fun h => absurd h0 h)).trans (Frame.upd fun h => absurd h1 h), rfl⟩

theorem Mono.of_free (fds : List (Fin NOFILE)) (hfree : ∀ fd ∈ fds, s.ofile p fd = none)
    (h : ∀ fd, fd ∉ fds → t.ofile p fd = s.ofile p fd) : Mono p s t := by
  intro fd i hi
  by_cases hfd : fd ∈ fds
  · rw [hfree fd hfd] at hi
    cases hi
  · rwa [h fd hfd]

theorem wp_pipeFds_frame (rf wf : Fin NFILE) (out0 out1 : Bool) :
    wp (pipeFds p rf wf out0 out1) (fun _ t => Frame X p s t ∧ Mono p s t) anyPanic s := by
  simp only [pipeFds, wp_bind]
  refine wp_fdalloc (fun _ => ?_) fun fd0 hfd0 => ?_
  · exact wp_post (wp_closeBoth_frame (X := X) (p := p) fun a b => (-1, [a, b])) fun _ t ht =>
      ⟨ht.1, .of_eq ht.2⟩
  rw [wp_bind]
  refine wp_fdalloc (fun _ => ?_) fun fd1 hfd1 => ?_
  · rw [wp_bind, wp_modify]
    refine wp_post (wp_closeBoth_frame (X := X) (p := p) fun a b => (-1, [a, b])) fun _ t ht =>
      ⟨((Frame.setFd fd0 (some rf)).trans (Frame.setFd fd0 none)).trans ht.1,
        Mono.of_free [fd0] (by simpa using hfd0) fun fd hfd => ?_⟩
    rw [List.mem_singleton] at hfd
    rw [ht.2, setFd_other _ hfd, setFd_other _ hfd]
  · have hne : fd1 ≠ fd0 := by
      rintro rfl
      simp [Files.setFd] at hfd1
    have hfree : ∀ fd ∈ [fd0, fd1], s.ofile p fd = none := by
      rw [setFd_other _ hne] at hfd1
      simpa using ⟨hfd0, hfd1⟩
    simp only [wp_ite, wp_pure]
    refine ⟨fun _ => ?_, fun _ => ?_⟩
    · rw [wp_bind, wp_modify, wp_bind, wp_modify]
      refine wp_post (wp_closeBoth_frame (X := X) (p := p) fun a b => (-1, [a, b])) fun _ t ht =>
        ⟨((((Frame.setFd fd0 (some rf)).trans (Frame.setFd fd1 (some wf))).trans
          (Frame.setFd fd0 none)).trans (Frame.setFd fd1 none)).trans ht.1,
          Mono.of_free [fd0, fd1] hfree fun fd hfd => ?_⟩
      obtain ⟨hf0, hf1⟩ : fd ≠ fd0 ∧ fd ≠ fd1 := by simpa using hfd
      rw [ht.2, setFd_other _ hf1, setFd_other _ hf0, setFd_other _ hf1, setFd_other _ hf0]
    · exact ⟨(Frame.setFd _ _).trans (Frame.setFd _ _),
        (Mono.setFd hfd0).trans (Mono.setFd hfd1)⟩

theorem wp_sysPipe_frame (page : Option Nat) (out0 out1 : Bool) :
    wp (sysPipe p page out0 out1) (fun _ t => Frame (Free s) p s t ∧ Mono p s t) anyPanic s := by
  simp only [sysPipe, wp_bind]
  refine wp_post (wp_pipeEntries_frame (X := Free s) (p := p)) ?_
  rintro ⟨_ | ⟨f0, f1⟩, r⟩ t ⟨ht, hof, hfree⟩
  · exact ⟨ht, .of_eq hof⟩
  · obtain ⟨h0, h1⟩ := hfree f0 f1 rfl
    rw [wp_bind]
    refine wp_post (wp_pipeInit_frame (X := Free s) (p := p) page h0 h1) ?_
    rintro ⟨_ | _, r'⟩ u ⟨hu, hof'⟩
    · exact ⟨ht.trans hu, .of_eq (hof'.trans hof)⟩
    · exact wp_post (wp_pipeFds_frame f0 f1 out0 out1) fun _ v hv =>
        ⟨(ht.trans hu).trans hv.1, (Mono.of_eq (hof'.trans hof)).trans hv.2⟩

theorem wp_forkFiles_frame (np : Fin NPROC) :
    wp (forkFiles p np) (fun _ t => Frame X np s t) anyPanic s := by
  unfold forkFiles
  refine wp_forUpto (fun _ t => Frame X np s t) .refl fun k _ t ht => ?_
  simp only [forkFd, wp_bind, wp_get]
  cases t.ofile p (Fin.ofNat NOFILE k) with
  | none => exact ht
  | some i =>
    simp only [filedup, wp_bind, wp_get, wp_ite, wp_throw, wp_set, wp_modify]
    refine ⟨fun _ => trivial, fun _ => ?_⟩
    have hcount : Frame X np s (t.upd i { t.file i with ref := (t.file i).ref + 1 }) :=
      ht.trans (Frame.upd fun _ => ⟨rfl, rfl⟩)
    exact hcount.trans (Frame.setFd _ _)

theorem wp_closeUpto_frame (k : Nat) :
    wp (closeUpto p k) (fun _ t => Frame X p s t) anyPanic s := by
  induction k with
  | zero => exact .refl
  | succ k ih =>
    simp only [closeUpto, wp_bind]
    refine wp_post ih fun _ t ht => ?_
    simp only [exitFd, wp_bind, wp_get]
    cases t.ofile p (Fin.ofNat NOFILE k) with
    | none => exact ht
    | some i =>
      simp only [wp_bind]
      refine wp_post (wp_fileclose_frame (X := X) (p := p) i) fun _ u hu => ?_
      rw [wp_modify]
      exact (ht.trans hu.1).trans (Frame.setFd _ _)

end Files

def allocates : RefCall → Bool
  | .openFile _ _ | .pipe _ _ _ | .helper _ _ => true
  | .dup _ | .close _ | .fork _ | .exit => false

section Act
attribute [local irreducible] forkFiles closeUpto
variable {fs fs' : FileSys} {p : Fin NPROC}

theorem call_post {α : Type} {c : FileProg α} {back : α → List Released} {Q : Files → Prop}
    (h : wp c (fun _ t => Q t) anyPanic fs.files) (hc : fs.call c back = .ok fs') : Q fs'.files := by
  unfold FileSys.call at hc
  split at hc
  · rename_i hrun
    cases hc
    exact wp_of_run (Q := fun _ t => Q t) h hrun
  · cases hc

theorem act_frame (h : fs.act (p, c) = .ok fs') :
    (∀ i, allocates c = false ∨ (fs.files.file i).ref ≠ 0 →
      flags fs'.files i = flags fs.files i) ∧
    (∀ q, q ≠ p → fs.live q = true → fs'.files.ofile q = fs.files.ofile q) ∧
    ((∀ fd, c ≠ .close fd) → c ≠ .exit → Mono p fs.files fs'.files) := by
  have hp := (FileSys.act_live h).1
  unfold FileSys.act at h
  simp only [hp, if_true] at h
  cases c with
  | openFile found omode =>
    obtain ⟨hf, hm⟩ := call_post (wp_open_frame found omode).1 h
    exact ⟨fun i hi => hf.flags i (hi.resolve_left nofun), fun q hq _ => hf.rows q hq,
      fun _ _ => hm⟩
  | helper found omode =>
    obtain ⟨hf, hm⟩ := call_post (wp_open_frame found omode).2 h
    exact ⟨fun i hi => hf.flags i (hi.resolve_left nofun), fun q hq _ => hf.rows q hq,
      fun _ _ => hm⟩
  | pipe page out0 out1 =>
    obtain ⟨-, h⟩ := guard_ok.mp h
    obtain ⟨hf, hm⟩ := call_post (wp_sysPipe_frame page out0 out1) h
    exact ⟨fun i hi => hf.flags i (hi.resolve_left nofun), fun q hq _ => hf.rows q hq,
      fun _ _ => hm⟩
  | dup fd =>
    obtain ⟨hf, hm⟩ := call_post (wp_sysDup_frame (X := fun _ => False) fd) h
    exact ⟨fun i _ => hf.flags i id, fun q hq _ => hf.rows q hq, fun _ _ => hm⟩
  | close fd =>
    have hf := call_post (wp_sysClose_frame (X := fun _ => False) fd) h
    exact ⟨fun i _ => hf.flags i id, fun q hq _ => hf.rows q hq, fun hc => absurd rfl (hc fd)⟩
  | fork np =>
    cases np with
    | none =>
      cases h
      exact ⟨fun _ _ => rfl, fun _ _ _ => rfl, fun _ _ => .of_eq rfl⟩
    | some np =>
      obtain ⟨hnp, h⟩ := unless_ok.mp h
      have hf := call_post (wp_forkFiles_frame (X := fun _ => False) np) h
      have hne : ∀ q, fs.live q = true → q ≠ np := by
        rintro q hq rfl
        exact hnp hq
      refine ⟨fun i _ => hf.flags i id, fun q _ hq => hf.rows q (hne q hq), fun _ _ fd i hi => ?_⟩
      rw [hf.rows p (hne p hp)]
      exact hi
  | exit =>
    obtain ⟨-, h⟩ := unless_ok.mp h
    obtain ⟨u, hu, rfl⟩ := map_ok.mp h
    have hf := call_post (wp_closeUpto_frame (X := fun _ => False) NOFILE) hu
    exact ⟨fun i _ => hf.flags i id, fun q hq _ => hf.rows q hq, fun _ hc => absurd rfl hc⟩

theorem ensureOpened_frame {log : LogFile} {s : Files}
    (h : ensureOpened p found log s = (.ok r, files)) :
    (∀ i, log.opened = true ∨ (s.file i).ref ≠ 0 → flags files i = flags s i) ∧
      (∀ q, q ≠ p → files.ofile q = s.ofile q) ∧ Mono p s files := by
  have hwp : wp (ensureOpened p found log) (fun _ t =>
      Frame (fun i => log.opened = false ∧ Free s i) p s t ∧ Mono p s t) anyPanic s := by
    unfold ensureOpened
    cases ho : log.opened with
    | true => exact ⟨.refl, .of_eq rfl⟩
    | false =>
      simp only [Bool.false_eq_true, if_false, wp_bind]
      refine wp_post (wp_open_frame found O_CREATE).2 ?_
      rintro ⟨_ | i, r⟩ t ⟨ht, hm⟩
      · exact ⟨ht.widen fun i hi => ⟨trivial, hi⟩, hm⟩
      · exact ⟨ht.widen fun i hi => ⟨trivial, hi⟩, hm⟩
  obtain ⟨hf, hm⟩ := wp_of_run (Q := fun _ t =>
    Frame (fun i => log.opened = false ∧ Free s i) p s t ∧ Mono p s t) hwp h
  refine ⟨fun i hi => hf.flags i fun hx => ?_, hf.rows, hm⟩
  rcases hi with ho | hr
  · rw [ho] at hx
    cases hx.1
  · exact hr hx.2

theorem ensureOpened_inv {log : LogFile} (hi : fs.Inv) (hp : fs.live p = true)
    (h : ensureOpened p found log fs.files = (.ok r, files)) :
    FileSys.Inv { fs with
      files := files
      freed := fs.freed ++ r.2.flatMap Released.pages } := by
  have hwp : wp (ensureOpened p found log)
      (fun r t => Settled fs.live fs.taken fs.freed r.2 t) noPanic fs.files := by
    unfold ensureOpened
    cases log.opened with
    | true => exact Settled.none hi
    | false =>
      simp only [Bool.false_eq_true, if_false, wp_bind]
      refine wp_post (Counted.opens hi hp found O_CREATE).2 ?_
      rintro ⟨_ | i, r⟩ t ht
      · exact ht
      · exact ht
  exact wp_of_run (Q := fun r t => Settled fs.live fs.taken fs.freed r.2 t) hwp h

end Act

/-! The columns are those of the entry. -/

def Place.closed : Place → Option (Fin NFILE)
  | .user | .handler _ => none
  | .tail e | .flushing e | .writing e | .ready e => if e.num = SYS_close then e.fd else none

namespace Machine

def Unfreed (s : Machine) : Prop :=
  ∀ q, ∀ i ∈ (s.place q).closed, (s.fs.files.file i).ref ≠ 0

instance (s : Machine) : Decidable s.Unfreed := inferInstanceAs (Decidable (∀ _, ∀ _ ∈ _, _))

/-- The pathname pointer of an `open` does not happen to be an open descriptor, and an entry of
the file table is taken only while no finished `close` has captured a free one. -/
def Undisturbed (s : Machine) : Act → Prop
  | .enter p num a0 => num = SYS_open → s.fs.files.argfd p (argint a0) = none
  | .handler _ (.file c) => allocates c = true → s.Unfreed
  | .handler _ (.check _ _) | .openLog _ _ => s.handle.opened = false → s.Unfreed
  | .handler _ (.exec _) | .handler _ .audit | .handler _ .other | .test _ _ | .finish _ _
  | .append _ | .die _ => True

instance (s : Machine) : (a : Act) → Decidable (s.Undisturbed a)
  | .enter p num a0 =>
    inferInstanceAs (Decidable (num = SYS_open → s.fs.files.argfd p (argint a0) = none))
  | .handler _ (.file _) | .handler _ (.check _ _) | .openLog _ _ =>
    inferInstanceAs (Decidable (_ = _ → s.Unfreed))
  | .handler _ (.exec _) | .handler _ .audit | .handler _ .other | .test _ _ | .finish _ _
  | .append _ | .die _ => inferInstanceAs (Decidable True)

structure Columns (s : Machine) : Prop where
  inv : s.fs.Inv
  live : ∀ p e, (s.place p).entry = some e → s.fs.live p = true
  known : ∀ p e, (s.place p).entry = some e → s.calls[e.serial]? = some e
  perms : ∀ p e, (s.place p).entry = some e → e.perms = e.fd.map (flags s.fs.files)
  named : ∀ p e i, (s.place p).entry = some e → e.fd = some i → (s.place p).closed = none →
    ∃ fd, s.fs.files.ofile p fd = some i
  recs : ∀ x ∈ s.recs, ∃ e, s.calls[x.1]? = some e ∧ x.2.fd = e.perms

section Columns
variable {s t : Machine} {p : Fin NPROC}

variable {e : Entry}

section
variable (h : s.Columns)
include h

theorem Columns.in_use (hu : s.Unfreed) (he : (s.place p).entry = some e) (hi : e.fd = some i) :
    (s.fs.files.file i).ref ≠ 0 := by
  cases hc : (s.place p).closed with
  | none =>
    obtain ⟨fd, hfd⟩ := h.named p e i he hi hc
    have hpos := Counted.ref_pos (i := i) h.inv (by
      have := slots_pos hfd
      rw [Pi.zero_apply]
      omega)
    omega
  | some k =>
    have hki : k = i := by
      cases hp : s.place p <;> rw [hp] at he hc
      case user => cases he
      case handler => cases hc
      all_goals
        cases he
        simp only [Place.closed] at hc
        split at hc
        · exact Option.some.inj (hc.symm.trans hi)
        · cases hc
    subst hki
    exact hu p k hc

theorem Columns.goOn {y : Place} (hp : (s.place p).entry = some e) (hy : y.entry = some e)
    (hplace : t.place = update s.place p y) (hcalls : t.calls = s.calls)
    (hrecs : t.recs = s.recs) (hinv : t.fs.Inv)
    (hlive : ∀ q e', (s.place q).entry = some e' → t.fs.live q = true)
    (hflags : ∀ q e' i, (s.place q).entry = some e' → e'.fd = some i →
      flags t.fs.files i = flags s.fs.files i)
    (hrows : ∀ q, q ≠ p → s.fs.live q = true → t.fs.files.ofile q = s.fs.files.ofile q)
    (hown : ∀ i, e.fd = some i → y.closed = none → ∃ fd, t.fs.files.ofile p fd = some i) :
    t.Columns := by
  have hentry : ∀ q, (t.place q).entry = (s.place q).entry := by
    intro q
    rw [hplace]
    by_cases hq : q = p
    · rw [hq, update_self, hp, hy]
    · rw [update_of_ne hq]
  constructor
  case inv => exact hinv
  case live =>
    intro q e' he
    rw [hentry] at he
    exact hlive q e' he
  case known =>
    intro q e' he
    rw [hentry] at he
    rw [hcalls]
    exact h.known q e' he
  case perms =>
    intro q e' he
    rw [hentry] at he
    rw [h.perms q e' he]
    cases hfd : e'.fd with
    | none => rfl
    | some i => simp only [Option.map_some, hflags q e' i he hfd]
  case named =>
    intro q e' i he hi hc
    by_cases hq : q = p
    · subst hq
      rw [hentry, hp] at he
      cases he
      rw [hplace, update_self] at hc
      exact hown i hi hc
    · rw [hplace, update_of_ne hq] at hc
      rw [hentry] at he
      rw [hrows q hq (h.live q e' he)]
      exact h.named q e' i he hi hc
  case recs =>
    rw [hrecs, hcalls]
    exact h.recs

theorem Columns.leave (hplace : t.place = update s.place p .user)
    (hcalls : t.calls = s.calls)
    (hrecs : ∀ x ∈ t.recs, x ∈ s.recs ∨ ∃ e, s.calls[x.1]? = some e ∧ x.2.fd = e.perms)
    (hinv : t.fs.Inv) (hlive : ∀ q, q ≠ p → s.fs.live q = true → t.fs.live q = true)
    (hflags : ∀ i, flags t.fs.files i = flags s.fs.files i)
    (hrows : ∀ q, q ≠ p → s.fs.live q = true → t.fs.files.ofile q = s.fs.files.ofile q) :
    t.Columns := by
  have hback : ∀ q e, (t.place q).entry = some e → q ≠ p ∧ t.place q = s.place q := by
    intro q e he
    rw [hplace] at he ⊢
    by_cases hq : q = p
    · rw [hq, update_self] at he
      cases he
    · exact ⟨hq, update_of_ne hq _ _⟩
  constructor
  case inv => exact hinv
  case live =>
    intro q e he
    obtain ⟨hq, hsame⟩ := hback q e he
    rw [hsame] at he
    exact hlive q hq (h.live q e he)
  case known =>
    intro q e he
    rw [(hback q e he).2] at he
    rw [hcalls]
    exact h.known q e he
  case perms =>
    intro q e he
    rw [(hback q e he).2] at he
    rw [h.perms q e he]
    congr 1
    exact (funext hflags).symm
  case named =>
    intro q e i he hi hc
    obtain ⟨hq, hsame⟩ := hback q e he
    rw [hsame] at he hc
    rw [hrows q hq (h.live q e he)]
    exact h.named q e i he hi hc
  case recs =>
    intro x hx
    rw [hcalls]
    exact (hrecs x hx).elim (h.recs x) id

theorem Columns.enter {num : Nat} {a0 : UInt64}
    (hs : num = SYS_open → s.fs.files.argfd p (argint a0) = none) (ht : s.enter p num a0 = .ok t) :
    t.Columns := by
  unfold Machine.enter at ht
  split at ht
  case h_2 => cases ht
  obtain ⟨⟨hl, -, -⟩, ht⟩ := guard_ok.mp ht
  cases ht
  have hback : ∀ q e, ((s.move p (.handler (s.entry p num a0))).place q).entry = some e →
      (q = p ∧ e = s.entry p num a0) ∨ (q ≠ p ∧ (s.place q).entry = some e) := by
    intro q e he
    unfold move at he
    by_cases hq : q = p
    · simp only [hq, update_self] at he
      exact .inl ⟨hq, (Option.some.inj he).symm⟩
    · simp only [update_of_ne hq] at he
      exact .inr ⟨hq, he⟩
  have hold : ∀ (k : Nat) e, s.calls[k]? = some e →
      (s.calls ++ [s.entry p num a0])[k]? = some e := by
    intro k e he
    rwa [List.getElem?_append_left (List.getElem?_eq_some_iff.mp he).1]
  constructor
  case inv => exact h.inv
  case live =>
    intro q e he
    rcases hback q e he with ⟨rfl, -⟩ | ⟨-, he⟩
    · exact hl
    · exact h.live q e he
  case known =>
    intro q e he
    rcases hback q e he with ⟨-, rfl⟩ | ⟨-, he⟩
    · exact List.getElem?_concat_length
    · exact hold _ e (h.known q e he)
  case perms =>
    intro q e he
    rcases hback q e he with ⟨-, rfl⟩ | ⟨-, he⟩
    · simp only [Machine.entry]
      by_cases ho : num = SYS_open
      · simp [hs ho]
      · have hboth : Dispatch.takesFd num = fdArg num := by
          unfold SYS_open at ho
          unfold Dispatch.takesFd fdArg
          simp [ho]
        rw [hboth]
        by_cases hf : fdArg num = true
        · simp [hf, move]
        · simp [hf]
    · exact h.perms q e he
  case named =>
    intro q e i he hi hc
    rcases hback q e he with ⟨rfl, rfl⟩ | ⟨hq, he⟩
    · simp only [Machine.entry] at hi
      split at hi
      · obtain ⟨a, ha, rfl⟩ := Option.map_eq_some_iff.mp hi
        exact ⟨a.1, argfd_ofile ha⟩
      · cases hi
    · exact h.named q e i he hi (by simpa only [move, update_of_ne hq] using hc)
  case recs =>
    intro x hx
    obtain ⟨e, he, hxe⟩ := h.recs x hx
    exact ⟨e, hold _ e he, hxe⟩

theorem Columns.flags_act {fs : FileSys} (hs : allocates c = true → s.Unfreed)
    (hfs : s.fs.act (p, c) = .ok fs) (q : Fin NPROC) (e : Entry) (i : Fin NFILE)
    (he : (s.place q).entry = some e) (hi : e.fd = some i) :
    flags fs.files i = flags s.fs.files i := by
  refine (act_frame hfs).1 i ?_
  cases ha : allocates c with
  | false => exact .inl rfl
  | true => exact .inr (h.in_use (hs ha) he hi)

theorem Columns.flags_open (hs : s.handle.opened = false → s.Unfreed)
    (ho : ensureOpened p found s.handle s.fs.files = (.ok r, files)) (q : Fin NPROC) (e : Entry)
    (i : Fin NFILE) (he : (s.place q).entry = some e) (hi : e.fd = some i) :
    flags files i = flags s.fs.files i := by
  refine (ensureOpened_frame ho).1 i ?_
  cases ha : s.handle.opened with
  | true => exact .inl rfl
  | false => exact .inr (h.in_use (hs ha) he hi)

theorem Columns.named_act {fs : FileSys} (hp : s.place p = .handler e)
    (hfits : (Work.file c).Fits e.num e.a0) (hx : c ≠ .exit) (hfs : s.fs.act (p, c) = .ok fs)
    (i : Fin NFILE) (hi : e.fd = some i) (hc : (Place.tail e).closed = none) :
    ∃ fd, fs.files.ofile p fd = some i := by
  have hne : ∀ fd, c ≠ .close fd := by
    rintro fd rfl
    simp only [Place.closed, hfits.1, if_true, hi] at hc
    cases hc
  obtain ⟨fd, hfd⟩ := h.named p e i (by rw [hp]; rfl) hi (by rw [hp]; rfl)
  exact ⟨fd, (act_frame hfs).2.2 hne hx fd i hfd⟩

theorem Columns.handler {w : Work} (hs : s.Undisturbed (.handler p w)) (ht : s.handler p w = .ok t)
    : t.Columns := by
  unfold Machine.handler at ht
  split at ht
  case h_2 => cases ht
  rename_i e hp
  obtain ⟨hfits, ht⟩ := guard_ok.mp ht
  obtain ⟨u, hu, rfl⟩ := map_ok.mp ht
  have hentry : (s.place p).entry = some e := by rw [hp]; rfl
  have hname : ∀ i, e.fd = some i → ∃ fd, s.fs.files.ofile p fd = some i := fun i hi =>
    h.named p e i hentry hi (by rw [hp]; rfl)
  rcases effect_cases hu with ⟨c, fs, rfl, hfs, rfl⟩ | ⟨path, rfl, rfl⟩ | ⟨rfl, rfl⟩ |
    ⟨tick, found, r, files, rfl, ho, rfl⟩ | ⟨hw, rfl⟩
  · have hinv := (FileSys.Inv.act h.inv _).1 _ hfs
    by_cases hx : c = .exit
    · subst hx
      exact h.leave rfl rfl (fun x hx => .inl hx) hinv
        (fun q hq => (FileSys.act_live hfs).2.1 q (.inl hq))
        (fun i => (act_frame hfs).1 i (.inl rfl)) (act_frame hfs).2.1
    · have hw : Work.file c ≠ .file .exit := fun hc => hx (by cases hc; rfl)
      rw [back_user hw]
      exact h.goOn hentry rfl rfl rfl rfl hinv
        (fun q e' he => (FileSys.act_live hfs).2.1 q (.inr hx) (h.live q e' he))
        (h.flags_act hs hfs) (act_frame hfs).2.1 (h.named_act hp hfits hx hfs)
  iterate 2
    exact h.goOn hentry rfl rfl rfl rfl h.inv h.live (fun _ _ _ _ _ => rfl) (fun _ _ _ => rfl)
      fun i hi _ => hname i hi
  · refine h.goOn hentry rfl rfl rfl rfl (ensureOpened_inv h.inv (h.live p e hentry) ho) h.live
      (h.flags_open hs ho) (fun q hq _ => (ensureOpened_frame ho).2.1 q hq) fun i hi _ => ?_
    obtain ⟨fd, hfd⟩ := hname i hi
    exact ⟨fd, (ensureOpened_frame ho).2.2 fd i hfd⟩
  · rw [back_user (hw .exit)]
    exact h.goOn hentry rfl rfl rfl rfl h.inv h.live (fun _ _ _ _ _ => rfl) (fun _ _ _ => rfl)
      fun i hi _ => hname i hi

theorem Columns.pass {y : Place} (hp : (s.place p).entry = some e) (hy : y.entry = some e)
    (hc : y.closed = (s.place p).closed) (hplace : t.place = update s.place p y)
    (hcalls : t.calls = s.calls) (hrecs : t.recs = s.recs) (hfs : t.fs = s.fs) : t.Columns := by
  refine h.goOn hp hy hplace hcalls hrecs (by rw [hfs]; exact h.inv) ?_ ?_ ?_ ?_ <;> rw [hfs]
  · exact h.live
  · exact fun _ _ _ _ _ => rfl
  · exact fun _ _ _ => rfl
  · exact fun i hi hcl => h.named p e i hp hi (by rw [← hc]; exact hcl)

theorem Columns.test {tick : UInt32} (ht : s.test p tick = .ok t) : t.Columns := by
  unfold Machine.test at ht
  split at ht
  case h_2 => cases ht
  rename_i e hp
  have hentry : (s.place p).entry = some e := by rw [hp]; rfl
  split at ht
  · split at ht <;> cases ht <;> exact h.pass hentry rfl (by rw [hp]; rfl) rfl rfl rfl rfl
  · cases ht
    exact h.leave rfl rfl (fun x hx => .inl hx) h.inv (fun _ _ hl => hl) (fun _ => rfl)
      fun _ _ _ => rfl

theorem Columns.openLog (hs : s.Undisturbed (.openLog p found)) (ht : s.openLog p found = .ok t) :
    t.Columns := by
  unfold Machine.openLog at ht
  split at ht
  case h_2 => cases ht
  rename_i e hp
  have hentry : (s.place p).entry = some e := by rw [hp]; rfl
  obtain ⟨u, hu, rfl⟩ := map_ok.mp ht
  obtain ⟨r, files, ho, rfl⟩ := writeToLogs_ok hu
  refine h.goOn hentry rfl rfl rfl rfl (ensureOpened_inv h.inv (h.live p e hentry) ho) h.live
    (h.flags_open hs ho) (fun q hq _ => (ensureOpened_frame ho).2.1 q hq) fun i hi hc => ?_
  obtain ⟨fd, hfd⟩ := h.named p e i hentry hi (by rw [hp]; exact hc)
  exact ⟨fd, (ensureOpened_frame ho).2.2 fd i hfd⟩

theorem Columns.finish {tick : UInt32} (ht : s.finish p tick = .ok t) : t.Columns := by
  unfold Machine.finish at ht
  split at ht
  case h_2 => cases ht
  rename_i e hp
  cases ht
  exact h.pass (by rw [hp]; rfl) rfl (by rw [hp]; rfl) rfl rfl rfl rfl

theorem Columns.append (ht : s.append p = .ok t) : t.Columns := by
  unfold Machine.append at ht
  split at ht
  case h_2 => cases ht
  rename_i e hp
  have hentry : (s.place p).entry = some e := by rw [hp]; rfl
  obtain ⟨-, ht⟩ := guard_ok.mp ht
  cases ht
  refine h.leave rfl rfl (fun x hx => ?_) h.inv (fun _ _ hl => hl) (fun _ => rfl) fun _ _ _ => rfl
  rcases List.mem_append.mp hx with hx | hx
  · exact .inl hx
  · obtain rfl := List.mem_singleton.mp hx
    exact .inr ⟨e, h.known p e hentry, (h.perms p e hentry).symm⟩

theorem Columns.die (ht : s.die p = .ok t) : t.Columns := by
  unfold Machine.die at ht
  split at ht
  case h_2 => cases ht
  rename_i hp
  obtain ⟨fs, hfs, rfl⟩ := map_ok.mp ht
  exact h.leave (by rw [← hp, update_eq_self]) rfl (fun x hx => .inl hx)
    ((FileSys.Inv.act h.inv _).1 _ hfs) (fun q hq => (FileSys.act_live hfs).2.1 q (.inl hq))
    (fun i => (act_frame hfs).1 i (.inl rfl)) (act_frame hfs).2.1

theorem Columns.act {a : Act} (hs : s.Undisturbed a) (ht : s.act a = .ok t) : t.Columns := by
  cases a with
  | enter p num a0 => exact h.enter hs ht
  | handler p w => exact h.handler hs ht
  | test p tick => exact h.test ht
  | openLog p found => exact h.openLog hs ht
  | finish p tick => exact h.finish ht
  | append p => exact h.append ht
  | die p => exact h.die ht

end

end Columns

end Machine

end Xv6Audit.Audited
