import Mathlib.Data.Fintype.Prod
import Xv6Audit.Lib.Shared
import Xv6Audit.File.LogHandle

/-! Reference counts of the open file table against the descriptors, and the pages of the
pipes, in runs of the calls of any processes. -/
namespace Xv6Audit.Ftable
open Function

open Prog

inductive RefCall where
  | openFile (found : Option Found) (omode : Nat)
  | dup (fd : Int)
  | close (fd : Int)
  | pipe (page : Option Nat) (out0 out1 : Bool)
  | fork (np : Option (Fin NPROC))
  | exit
  | helper (found : Option Found) (omode : Nat)

/-- The table, the processes in use, and as ghosts the pages that `pipealloc` got from `kalloc`
and that `pipeclose` gave to `kfree`. -/
structure FileSys where
  files : Files
  live : Fin NPROC → Bool
  taken : List Nat
  freed : List Nat

def Released.pages : Released → List Nat
  | .page pi => [pi]
  | .nothing | .inode _ => []

def kallocs (s : Files) (page : Option Nat) : List Nat :=
  match (pipeEntries s).1 with
  | .ok (some _, _) => page.toList
  | .ok (none, _) | .error _ => []

namespace FileSys

def call {α : Type} (s : FileSys) (c : FileProg α) (back : α → List Released) :
    Except Halt FileSys :=
  match c s.files with
  | (.ok a, t) => .ok { s with files := t, freed := s.freed ++ (back a).flatMap Released.pages }
  | (.error e, _) => .error (.panic e)

def act (s : FileSys) (e : Fin NPROC × RefCall) : Except Halt FileSys :=
  let p := e.1
  if s.live p then
    match e.2 with
    | .openFile found omode => s.call (sysOpen p found omode) Prod.snd
    | .dup fd => s.call (sysDup p fd) fun _ => []
    | .close fd => s.call (sysClose p fd) fun r => [r.2]
    | .pipe page out0 out1 =>
      if ∀ pi ∈ page, s.taken.count pi ≤ s.freed.count pi then
        ({ s with taken := s.taken ++ kallocs s.files page }).call (sysPipe p page out0 out1) Prod.snd
      else .error .blocked
    | .fork none => .ok s
    | .fork (some np) =>
      if s.live np then .error .blocked
      else ({ s with live := update s.live np true }).call (forkFiles p np) fun _ => []
    | .exit =>
      if p = initproc then .error (.panic "init exiting")
      else (s.call (closeUpto p NOFILE) id).map fun t =>
        { t with live := update s.live p false }
    | .helper found omode => s.call (helperOpen p found omode) Prod.snd
  else .error .blocked

def boot : FileSys := ⟨bootFiles, fun p => p = initproc, [], []⟩

end FileSys

def slots (s : Files) (i : Fin NFILE) : Nat :=
  (Finset.univ.filter fun q : Fin NPROC × Fin NOFILE => s.ofile q.1 q.2 = some i).card

structure File.End (f : File) (pi : Nat) (w : Bool) : Prop where
  ref : 0 < f.ref
  type : f.type = .pipe
  pipe : f.pipe = pi
  readable : f.readable = !w
  writable : f.writable = w

def PipeEnds.side (e : PipeEnds) (w : Bool) : Bool := if w then e.writeopen else e.readopen

def PipeEnds.inUse (e : PipeEnds) : Bool := e.readopen || e.writeopen

/-- The table inside a call: `hand i` references to entry `i` are in local variables (less the
descriptors that were set before their reference is counted). -/
structure Counted (live : Fin NPROC → Bool) (hand : Fin NFILE → Int) (taken freed : List Nat)
    (s : Files) : Prop where
  ref : ∀ i, ((s.file i).ref : Int) = slots s i + hand i
  unused : ∀ i, (s.file i).ref = 0 → (s.file i).type = .none
  shape : ∀ i, (s.file i).type = .pipe → (s.file i).readable = !(s.file i).writable
  ends : ∀ pi w, (s.pipe pi).side w = true ↔ ∃ i, (s.file i).End pi w
  one : ∀ i j pi w, (s.file i).End pi w → (s.file j).End pi w → i = j
  pages : ∀ pi, taken.count pi = freed.count pi + (s.pipe pi).inUse.toNat
  idle : ∀ p, live p = false → ∀ fd, s.ofile p fd = none

/-! Counting the descriptors. -/

def names (i : Fin NFILE) (v : Option (Fin NFILE)) : Int := if v = some i then 1 else 0

theorem slots_eq (s : Files) (i : Fin NFILE) :
    (slots s i : Int) = ∑ q : Fin NPROC × Fin NOFILE, names i (s.ofile q.1 q.2) := by
  unfold slots names
  rw [Finset.card_filter]
  push_cast
  rfl

theorem slots_setFd (s : Files) (p : Fin NPROC) (fd : Fin NOFILE) (v : Option (Fin NFILE))
    (i : Fin NFILE) :
    (slots (s.setFd p fd v) i : Int) = slots s i - names i (s.ofile p fd) + names i v := by
  have hupd : (fun q : Fin NPROC × Fin NOFILE => (s.setFd p fd v).ofile q.1 q.2) =
      update (fun q => s.ofile q.1 q.2) (p, fd) v := by
    funext q
    by_cases hp : q.1 = p
    · by_cases hf : q.2 = fd
      · have hq : q = (p, fd) := Prod.ext hp hf
        simp [hq, Files.setFd]
      · have hq : q ≠ (p, fd) := fun h => hf (congrArg Prod.snd h)
        simp [Files.setFd, hp, hf, update_of_ne hq]
    · have hq : q ≠ (p, fd) := fun h => hp (congrArg Prod.fst h)
      simp [Files.setFd, hp, update_of_ne hq]
  have hsum := Shared.sum_update (fun q : Fin NPROC × Fin NOFILE => s.ofile q.1 q.2) (p, fd) v
    (names i)
  rw [← hupd] at hsum
  rw [slots_eq, slots_eq, hsum]

variable {fd : Fin NOFILE} {np : Fin NPROC} {α : Type}

theorem slots_pos {s : Files} {p : Fin NPROC} {i : Fin NFILE} (h : s.ofile p fd = some i) :
    1 ≤ slots s i :=
  Finset.card_pos.mpr ⟨(p, fd), by simpa using h⟩

theorem names_none (i : Fin NFILE) : names i none = 0 := if_neg (by simp)

/-! Steps of a call. -/

def noPanic : String → Files → Prop := fun _ _ => False

section Counted
attribute [local irreducible] forUpto
variable {live : Fin NPROC → Bool} {hand : Fin NFILE → Int} {taken freed : List Nat} {s : Files}
  {i : Fin NFILE} {p : Fin NPROC}

section
variable (h : Counted live hand taken freed s)
include h

theorem Counted.ref_pos (hi : 1 ≤ slots s i + hand i) : 1 ≤ (s.file i).ref := by
  have := h.ref i
  omega

theorem Counted.setLive {live' : Fin NPROC → Bool}
    (hidle : ∀ p, live' p = false → ∀ fd, s.ofile p fd = none) : Counted live' hand taken freed s :=
  { h with idle := hidle }

theorem Counted.grow : Counted (update live np true) hand taken freed s :=
  h.setLive fun q hq => by
    by_cases hqp : q = np
    · rw [hqp, update_self] at hq
      cases hq
    · rw [update_of_ne hqp] at hq
      exact h.idle q hq

theorem Counted.upd {f : File} {d : Int} (href : (f.ref : Int) = (s.file i).ref + d)
    (hz : f.ref = 0 → f.type = .none) (hs : f.type = .pipe → f.readable = !f.writable)
    (he : ∀ pi w, f.End pi w ↔ (s.file i).End pi w) :
    Counted live (hand + Pi.single i d) taken freed (s.upd i f) := by
  have hfile : ∀ j, (s.upd i f).file j = if j = i then f else s.file j := fun j => by
    simp [Files.upd, update_apply]
  have hend : ∀ j pi w, ((s.upd i f).file j).End pi w ↔ (s.file j).End pi w := fun j pi w => by
    rw [hfile]
    split
    · rename_i hj
      rw [hj, he]
    · rfl
  refine ⟨fun j => ?_, fun j => ?_, fun j => ?_, fun pi w => ?_, fun j k pi w => ?_, h.pages, h.idle⟩
  · have hr := h.ref j
    have hslots : slots (s.upd i f) j = slots s j := rfl
    rw [hfile, hslots, Pi.add_apply, Pi.single_apply]
    split
    · rename_i hj
      rw [hj] at hr ⊢
      omega
    · omega
  · rw [hfile]
    split
    · exact hz
    · exact h.unused j
  · rw [hfile]
    split
    · exact hs
    · exact h.shape j
  · simp only [hend]
    exact h.ends pi w
  · rw [hend, hend]
    exact h.one j k pi w

theorem Counted.setFd {v : Option (Fin NFILE)} (hp : live p = true) {hand' : Fin NFILE → Int}
    (hh : ∀ j, hand' j = hand j + names j (s.ofile p fd) - names j v) :
    Counted live hand' taken freed (s.setFd p fd v) := by
  refine ⟨fun j => ?_, h.unused, h.shape, h.ends, h.one, h.pages, fun q hq fd' => ?_⟩
  · have hr := h.ref j
    rw [slots_setFd, hh]
    change ((s.file j).ref : Int) = _
    omega
  · have hqp : q ≠ p := by
      rintro rfl
      rw [hp] at hq
      cases hq
    have hrow : (s.setFd p fd v).ofile q = s.ofile q := update_of_ne hqp _ _
    rw [hrow]
    exact h.idle q hq fd'

theorem Counted.filealloc :
    wp filealloc (fun r t => t.ofile = s.ofile ∧ match r with
      | none => t = s
      | some i => Counted live (hand + Pi.single i 1) taken freed t ∧ (t.file i).type = .none ∧
        (s.file i).ref = 0 ∧ t = s.upd i { s.file i with ref := 1 }) noPanic s := by
  refine wp_filealloc (fun _ => ⟨rfl, rfl⟩) fun i hi => ⟨rfl, ?_, ?_, hi, rfl⟩
  · have ht := h.unused i hi
    refine h.upd (by simp [hi]) (by simp) (fun hp => ?_) fun pi w => ?_
    · exact absurd (ht.symm.trans hp) (by decide)
    · constructor
      · exact fun he => absurd (ht.symm.trans he.type) (by decide)
      · exact fun he => absurd (ht.symm.trans he.type) (by decide)
  · simpa [Files.upd] using h.unused i hi

theorem Counted.fdalloc (hp : live p = true) :
    wp (fdalloc p i) (fun r t => t.file = s.file ∧ match r with
      | none => t = s
      | some fd => Counted live (hand - Pi.single i 1) taken freed t ∧
        t = s.setFd p fd (some i) ∧ s.ofile p fd = none) noPanic s := by
  refine wp_fdalloc (fun _ => ⟨rfl, rfl⟩) fun fd hfd => ⟨rfl, h.setFd hp fun j => ?_, rfl, hfd⟩
  rw [hfd, names_none, Pi.sub_apply, Pi.single_apply]
  by_cases hj : j = i
  · simp [names, hj]
  · have hij : i ≠ j := Ne.symm hj
    simp [names, hj, hij]

theorem Counted.filedup (hi : 1 ≤ (s.file i).ref) :
    wp (filedup i) (fun _ t => Counted live (hand + Pi.single i 1) taken freed t ∧
      t.ofile = s.ofile) noPanic s := by
  have hn : ¬ (s.file i).ref < 1 := by omega
  simp only [Ftable.filedup, wp_bind, wp_get, hn, if_false, wp_set]
  refine ⟨h.upd (by simp) (by simp) (h.shape i) fun pi w => ⟨fun he => ?_, fun he => ?_⟩, rfl⟩
  · exact ⟨hi, he.type, he.pipe, he.readable, he.writable⟩
  · exact ⟨by simp, he.type, he.pipe, he.readable, he.writable⟩

end

variable {pi : Nat} {f0 f1 : Fin NFILE}

section
variable (h : Counted live hand taken freed s)
include h

/-- The last reference to one end of a pipe goes: that end is closed, and with the other one
closed already the page is given back. -/
theorem Counted.closeEnd {w : Bool} (he : (s.file i).End pi w) (hr : (s.file i).ref = 1)
    {e : PipeEnds} {back : List Nat} (hside : ∀ w', e.side w' = ((s.pipe pi).side w' && (w' != w)))
    (hback : back = if e.inUse then [] else [pi]) :
    Counted live (hand - Pi.single i 1) taken (freed ++ back)
      ((s.upd i { s.file i with ref := 0, type := .none }).setPipe pi e) := by
  have hfile : ∀ j, j ≠ i →
      ((s.upd i { s.file i with ref := 0, type := .none }).setPipe pi e).file j = s.file j :=
    fun j hj => update_of_ne hj _ _
  have hfi : ((s.upd i { s.file i with ref := 0, type := .none }).setPipe pi e).file i =
      { s.file i with ref := 0, type := .none } := update_self ..
  have hnot : ∀ q w', ¬ File.End { s.file i with ref := 0, type := .none } q w' :=
    fun q w' hx => absurd hx.ref (lt_irrefl 0)
  have hend : ∀ j q w', (((s.upd i { s.file i with ref := 0, type := .none }).setPipe pi
      e).file j).End q w' ↔ j ≠ i ∧ (s.file j).End q w' := fun j q w' => by
    by_cases hj : j = i
    · rw [hj, hfi]
      simp [hnot q w']
    · rw [hfile j hj]
      simp [hj]
  have hopen : (s.pipe pi).side w = true := (h.ends pi w).mpr ⟨i, he⟩
  refine ⟨fun j => ?_, fun j => ?_, fun j => ?_, fun q w' => ?_, fun j k q w' => ?_, fun q => ?_,
    h.idle⟩
  · have hj := h.ref j
    have hslots : slots ((s.upd i { s.file i with ref := 0, type := .none }).setPipe pi e) j =
      slots s j := rfl
    rw [hslots, Pi.sub_apply, Pi.single_apply]
    by_cases hji : j = i
    · subst hji
      rw [hfi, if_pos rfl]
      simp only
      omega
    · rw [hfile j hji, if_neg hji]
      omega
  · by_cases hji : j = i
    · rw [hji, hfi]
      exact fun _ => rfl
    · rw [hfile j hji]
      exact h.unused j
  · by_cases hji : j = i
    · rw [hji, hfi]
      exact fun hx => by cases hx
    · rw [hfile j hji]
      exact h.shape j
  · simp only [hend]
    by_cases hq : q = pi
    · subst hq
      have hp : ((s.upd i { s.file i with ref := 0, type := .none }).setPipe q e).pipe q = e :=
        update_self ..
      rw [hp, hside, Bool.and_eq_true, h.ends, bne_iff_ne]
      constructor
      · rintro ⟨⟨j, hj⟩, hw⟩
        refine ⟨j, fun hji => hw ?_, hj⟩
        rw [← hj.writable, hji, he.writable]
      · rintro ⟨j, hji, hj⟩
        refine ⟨⟨j, hj⟩, fun hw => hji (h.one j i q w' hj ?_)⟩
        rw [hw]
        exact he
    · have hp : ((s.upd i { s.file i with ref := 0, type := .none }).setPipe pi e).pipe q =
        s.pipe q := update_of_ne hq _ _
      rw [hp, h.ends]
      refine exists_congr fun j => ⟨fun hj => ⟨fun hji => hq ?_, hj⟩, fun hj => hj.2⟩
      rw [← hj.pipe, hji, he.pipe]
  · rw [hend, hend]
    exact fun hj hk => h.one j k q w' hj.2 hk.2
  · have hpage := h.pages q
    rw [List.count_append]
    by_cases hq : q = pi
    · subst hq
      have hp : ((s.upd i { s.file i with ref := 0, type := .none }).setPipe q e).pipe q = e :=
        update_self ..
      have huse : (s.pipe q).inUse = true := by
        cases w <;> simp_all [PipeEnds.side, PipeEnds.inUse]
      rw [huse] at hpage
      rw [hp, hback, hpage]
      cases e.inUse <;> simp
    · have hp : ((s.upd i { s.file i with ref := 0, type := .none }).setPipe pi e).pipe q =
        s.pipe q := update_of_ne hq _ _
      have hz : back.count q = 0 := by
        rw [hback]
        split
        · rfl
        · exact List.count_eq_zero.mpr (by simpa using hq)
      rw [hp, hz, hpage]
      omega

theorem Counted.pipeclose {w : Bool} (he : (s.file i).End pi w) (hr : (s.file i).ref = 1) :
    wp (pipeclose pi w) (fun r t => Counted live (hand - Pi.single i 1) taken
      (freed ++ r.pages) t ∧ t.ofile = s.ofile) noPanic
      (s.upd i { s.file i with ref := 0, type := .none }) := by
  simp only [Ftable.pipeclose, wp_bind, wp_get, wp_set, wp_ite, wp_pure]
  refine ⟨fun hc => ⟨h.closeEnd he hr (fun w' => ?_) ?_, rfl⟩,
    fun hc => ⟨h.closeEnd he hr (fun w' => ?_) ?_, rfl⟩⟩
  · cases w <;> cases w' <;> simp [PipeEnds.side, Files.upd]
  · simp [PipeEnds.inUse, hc.1, hc.2, Released.pages]
  · cases w <;> cases w' <;> simp [PipeEnds.side, Files.upd]
  · rw [if_pos]
    · rfl
    · rw [← Bool.or_eq_false_iff, Bool.not_eq_false] at hc
      exact hc

theorem Counted.fileclose (hi : 1 ≤ slots s i + hand i) :
    wp (fileclose i) (fun r t => Counted live (hand - Pi.single i 1) taken
      (freed ++ r.pages) t ∧ t.ofile = s.ofile) noPanic s := by
  have hr := h.ref_pos hi
  have hn : ¬ (s.file i).ref < 1 := by omega
  have hsub : hand - Pi.single i 1 = hand + Pi.single i (-1 : Int) := by
    rw [Pi.single_neg, sub_eq_add_neg]
  simp only [Ftable.fileclose, wp_bind, wp_get, wp_ite, wp_set, wp_pure]
  refine ⟨fun hlt => absurd hlt hn, fun _ => ⟨fun hmore => ⟨?_, rfl⟩, fun hlast => ?_⟩⟩
  · rw [hsub, Released.pages, List.append_nil]
    refine h.upd ?_ (fun hz => ?_) (h.shape i) fun pi w => ⟨fun he => ?_, fun he => ?_⟩
    · simp only
      omega
    · simp only at hz
      omega
    · exact ⟨hr, he.type, he.pipe, he.readable, he.writable⟩
    · exact ⟨hmore, he.type, he.pipe, he.readable, he.writable⟩
  · have hone : (s.file i).ref = 1 := by omega
    have hplain : (s.file i).type ≠ .pipe → Counted live (hand - Pi.single i 1) taken (freed ++ [])
        (s.upd i { s.file i with ref := 0, type := .none }) := fun ht => by
      rw [hsub, List.append_nil]
      refine h.upd (by simp [hone]) (fun _ => rfl) (fun hx => by cases hx) fun pi w => ?_
      exact ⟨fun he => absurd he.ref (lt_irrefl 0), fun he => absurd he.type ht⟩
    cases ht : (s.file i).type with
    | pipe => exact h.pipeclose ⟨hr, ht, rfl, h.shape i ht, rfl⟩ hone
    | inode | device | none => exact ⟨hplain (by rw [ht]; decide), rfl⟩

theorem Counted.retype {f : File} (hs : (s.file i).type ≠ .pipe) (hf : f.type ≠ .pipe)
    (href : f.ref = (s.file i).ref) (hpos : 1 ≤ f.ref) :
    Counted live hand taken freed (s.upd i f) := by
  have hu := h.upd (i := i) (f := f) (d := 0) (by omega) (by omega) (fun ht => absurd ht hf)
    fun pi w => ⟨fun he => absurd he.type hf, fun he => absurd he.type hs⟩
  simpa using hu

end

def Settled (live : Fin NPROC → Bool) (taken freed : List Nat) (back : List Released)
    (s : Files) : Prop :=
  Counted live 0 taken (freed ++ back.flatMap Released.pages) s

section
variable (h : Counted live 0 taken freed s)
include h

theorem Settled.none : Settled live taken freed [] s := by
  simpa [Settled] using h

theorem Settled.inode (ip : Nat) : Settled live taken freed [.inode ip] s := by
  simpa [Settled, Released.pages] using h

theorem Counted.openEntry (hp : live p = true) (found : Found) :
    wp (openEntry p found) (fun r t => match r.1 with
      | none => Settled live taken freed r.2 t
      | some (_, i) => r.2 = [] ∧ Counted live 0 taken freed t ∧ (t.file i).type = .none ∧
        1 ≤ (t.file i).ref) noPanic s := by
  simp only [Ftable.openEntry, wp_ite, wp_pure, wp_bind]
  refine ⟨fun _ => Settled.inode h _, fun _ => wp_post h.filealloc ?_⟩
  rintro (_ | i) t ⟨-, ht⟩
  · rw [ht]
    exact Settled.inode h _
  · obtain ⟨ht, hty, -⟩ := ht
    rw [wp_bind]
    refine wp_post (ht.fdalloc hp) ?_
    rintro (_ | fd) u ⟨hfile, hu⟩
    · rw [wp_bind, hu]
      refine wp_post (ht.fileclose (i := i) ?_) fun r v hv => ?_
      · rw [zero_add, Pi.single_eq_same]
        omega
      · simpa [Settled, Released.pages] using hv.1
    · obtain ⟨hu, rfl, -⟩ := hu
      rw [zero_add, sub_self] at hu
      refine ⟨rfl, hu, hty, hu.ref_pos ?_⟩
      have hslot : (t.setFd p fd (some i)).ofile p fd = some i := by simp [Files.setFd]
      have := slots_pos hslot
      rw [Pi.zero_apply]
      omega

theorem Counted.opens (hp : live p = true) (found : Option Found) (omode : Nat) :
    wp (sysOpen p found omode) (fun r t => Settled live taken freed r.2 t) noPanic s ∧
      wp (helperOpen p found omode) (fun r t => Settled live taken freed r.2 t) noPanic s := by
  constructor <;> cases found with
  | none => exact Settled.none h
  | some found =>
    simp only [sysOpen, helperOpen, wp_ite, wp_pure, wp_bind]
    refine ⟨fun _ => Settled.inode h _, fun _ => wp_post (h.openEntry hp found) ?_⟩
    rintro ⟨_ | ⟨fd, i⟩, r⟩ t ht
    · exact ht
    · obtain ⟨rfl, ht, hty, hpos⟩ := ht
      refine Settled.none (ht.retype (by rw [hty]; decide) ?_ ?_ ?_)
      all_goals first | split <;> simp [hpos] | simp [hpos]

end

theorem argfd_ofile {fd : Int} {a : Fin NOFILE × Fin NFILE} (h : s.argfd p fd = some a) :
    s.ofile p a.1 = some a.2 := by
  unfold Files.argfd at h
  split at h
  · obtain ⟨i, hi, rfl⟩ := Option.map_eq_some_iff.mp h
    exact hi
  · cases h

-- the new descriptor is set before the reference is counted
theorem Counted.sysDup (h : Counted live 0 taken freed s) (hp : live p = true) (fd : Int) :
    wp (sysDup p fd) (fun _ t => Settled live taken freed [] t) noPanic s := by
  simp only [Ftable.sysDup, wp_bind, wp_get]
  cases ha : s.argfd p fd with
  | none => exact Settled.none h
  | some a =>
    rw [wp_bind]
    refine wp_post (h.fdalloc (i := a.2) hp) ?_
    rintro (_ | fd') t ⟨hfile, ht⟩
    · rw [ht]
      exact Settled.none h
    · obtain ⟨ht, rfl, hnone⟩ := ht
      have hpos : 1 ≤ ((s.setFd p fd' (some a.2)).file a.2).ref := by
        have hold := slots_pos (argfd_ofile ha)
        exact h.ref_pos (by rw [Pi.zero_apply]; omega)
      rw [wp_bind]
      refine wp_post (ht.filedup hpos) fun _ u hu => Settled.none ?_
      simpa using hu.1

theorem Counted.sysClose (h : Counted live 0 taken freed s) (hp : live p = true) (fd : Int) :
    wp (sysClose p fd) (fun r t => Settled live taken freed [r.2] t) noPanic s := by
  simp only [Ftable.sysClose, wp_bind, wp_get]
  cases ha : s.argfd p fd with
  | none => simpa [Settled, Released.pages] using h
  | some a =>
    have hfd := argfd_ofile ha
    have hs : Counted live (Pi.single a.2 1) taken freed (s.setFd p a.1 none) := by
      refine h.setFd hp fun j => ?_
      rw [hfd, names_none, Pi.single_apply, names]
      simp [eq_comm]
    simp only [wp_bind, wp_modify, wp_pure]
    refine wp_post (hs.fileclose (i := a.2) ?_) fun r t ht => ?_
    · rw [Pi.single_eq_same]
      omega
    · simpa [Settled] using ht.1

theorem Counted.closeBoth {rf wf : Fin NFILE} (f : Released → Released → α)
    (h : Counted live (Pi.single rf 1 + Pi.single wf 1) taken freed s) :
    wp (do
      let a ← Ftable.fileclose rf
      let b ← Ftable.fileclose wf
      pure (f a b)) (fun r t => ∃ a b, r = f a b ∧ Settled live taken freed [a, b] t) noPanic s := by
  simp only [wp_bind, wp_pure]
  refine wp_post (h.fileclose (i := rf) ?_) fun a t ht => ?_
  · have hw : (0 : Int) ≤ (Pi.single wf (1 : Int) : Fin NFILE → Int) rf := by
      rw [Pi.single_apply]
      split <;> omega
    rw [Pi.add_apply, Pi.single_eq_same]
    omega
  · obtain ⟨ht, -⟩ := ht
    rw [add_sub_cancel_left] at ht
    refine wp_post (ht.fileclose (i := wf) ?_) fun b u hu => ⟨a, b, rfl, ?_⟩
    · rw [Pi.single_eq_same]
      omega
    · simpa [Settled] using hu.1

theorem Counted.pipeEntries (h : Counted live 0 taken freed s) :
    wp pipeEntries (fun r t => match r.1 with
      | none => Settled live taken freed r.2 t
      | some (f0, f1) => f0 ≠ f1 ∧ Counted live (Pi.single f0 1 + Pi.single f1 1) taken freed t ∧
        (t.file f0).type = .none ∧ (t.file f1).type = .none) noPanic s := by
  simp only [Ftable.pipeEntries, wp_bind]
  refine wp_post h.filealloc ?_
  rintro (_ | f0) t ⟨-, ht⟩
  · rw [ht]
    exact Settled.none h
  · obtain ⟨ht, h0, -⟩ := ht
    rw [zero_add] at ht
    rw [wp_bind]
    refine wp_post ht.filealloc ?_
    rintro (_ | f1) u ⟨-, hu⟩
    · rw [wp_bind, hu]
      refine wp_post (ht.fileclose (i := f0) ?_) fun r v hv => ?_
      · rw [Pi.single_eq_same]
        omega
      · simpa [Settled] using hv.1
    · obtain ⟨hu, h1, hfree, rfl⟩ := hu
      have hne : f0 ≠ f1 := by
        rintro rfl
        have hpos := ht.ref_pos (i := f0) (by rw [Pi.single_eq_same]; omega)
        omega
      have hkeep : (t.upd f1 { t.file f1 with ref := 1 }).file f0 = t.file f0 :=
        update_of_ne hne _ _
      exact ⟨hne, hu, by rw [hkeep, h0], h1⟩

def Files.newPipe (s : Files) (f0 f1 : Fin NFILE) (pi : Nat) : Files :=
  let s := s.setPipe pi ⟨true, true⟩
  let s := s.upd f0
    { s.file f0 with type := .pipe, readable := true, writable := false, pipe := pi }
  s.upd f1 { s.file f1 with type := .pipe, readable := false, writable := true, pipe := pi }

theorem newPipe_other (h0 : i ≠ f0) (h1 : i ≠ f1) :
    (s.newPipe f0 f1 pi).file i = s.file i := by
  simp [Files.newPipe, Files.upd, Files.setPipe, h0, h1]

theorem newPipe_read (hne : f0 ≠ f1) :
    (s.newPipe f0 f1 pi).file f0 =
      { s.file f0 with type := .pipe, readable := true, writable := false, pipe := pi } := by
  simp [Files.newPipe, Files.upd, Files.setPipe, hne]

theorem newPipe_write (hne : f0 ≠ f1) :
    (s.newPipe f0 f1 pi).file f1 =
      { s.file f1 with type := .pipe, readable := false, writable := true, pipe := pi } := by
  simp [Files.newPipe, Files.upd, Files.setPipe, hne.symm]

theorem newPipe_end (hne : f0 ≠ f1) (h0 : (s.file f0).type = .none) (h1 : (s.file f1).type = .none)
    (r0 : 1 ≤ (s.file f0).ref) (r1 : 1 ≤ (s.file f1).ref) (q : Nat) (w : Bool) :
    ((s.newPipe f0 f1 pi).file i).End q w ↔
      (s.file i).End q w ∨ (q = pi ∧ i = if w then f1 else f0) := by
  have n0 : ¬ (s.file f0).End q w := fun he => absurd (h0.symm.trans he.type) (by decide)
  have n1 : ¬ (s.file f1).End q w := fun he => absurd (h1.symm.trans he.type) (by decide)
  by_cases hi0 : i = f0
  · subst hi0
    rw [newPipe_read hne]
    constructor
    · intro he
      have hw : w = false := he.writable.symm
      exact .inr ⟨he.pipe.symm, by rw [hw]; rfl⟩
    · rintro (he | ⟨rfl, hw⟩)
      · exact absurd he n0
      · cases w with
        | false => exact ⟨r0, rfl, rfl, rfl, rfl⟩
        | true => exact absurd hw hne
  · by_cases hi1 : i = f1
    · subst hi1
      rw [newPipe_write hne]
      constructor
      · intro he
        have hw : w = true := he.writable.symm
        exact .inr ⟨he.pipe.symm, by rw [hw]; rfl⟩
      · rintro (he | ⟨rfl, hw⟩)
        · exact absurd he n1
        · cases w with
          | false => exact absurd hw hi0
          | true => exact ⟨r1, rfl, rfl, rfl, rfl⟩
    · rw [newPipe_other hi0 hi1]
      refine ⟨.inl, ?_⟩
      rintro (he | ⟨-, hw⟩)
      · exact he
      · cases w with
        | false => exact absurd hw hi0
        | true => exact absurd hw hi1

theorem Counted.newPipe (h : Counted live hand taken freed s) (hne : f0 ≠ f1)
    (h0 : (s.file f0).type = .none) (h1 : (s.file f1).type = .none) (r0 : 1 ≤ (s.file f0).ref)
    (r1 : 1 ≤ (s.file f1).ref) (hpi : taken.count pi ≤ freed.count pi) :
    Counted live hand (taken ++ [pi]) freed (s.newPipe f0 f1 pi) := by
  have hunused : (s.pipe pi).inUse = false := by
    have hpage := h.pages pi
    cases hu : (s.pipe pi).inUse with
    | false => rfl
    | true =>
      rw [hu] at hpage
      simp only [Bool.toNat_true] at hpage
      omega
  have hside : ∀ w, (s.pipe pi).side w = false := fun w => by
    cases w <;> simp_all [PipeEnds.side, PipeEnds.inUse]
  have hnoend : ∀ j w, ¬ (s.file j).End pi w := fun j w he => by
    have hx := (h.ends pi w).mpr ⟨j, he⟩
    rw [hside] at hx
    cases hx
  have hpipe : (s.newPipe f0 f1 pi).pipe = update s.pipe pi ⟨true, true⟩ := rfl
  have href : ∀ j, ((s.newPipe f0 f1 pi).file j).ref = (s.file j).ref := fun j => by
    by_cases hj0 : j = f0
    · rw [hj0, newPipe_read hne]
    · by_cases hj1 : j = f1
      · rw [hj1, newPipe_write hne]
      · rw [newPipe_other hj0 hj1]
  have hend : ∀ j q w, ((s.newPipe f0 f1 pi).file j).End q w ↔
      (s.file j).End q w ∨ (q = pi ∧ j = if w then f1 else f0) :=
    fun j => newPipe_end hne h0 h1 r0 r1
  refine ⟨fun j => ?_, fun j hj => ?_, fun j hj => ?_, fun q w => ?_, fun j k q w => ?_, fun q => ?_,
    h.idle⟩
  · rw [href]
    exact h.ref j
  · rw [href] at hj
    have hj0 : j ≠ f0 := fun he => by rw [he] at hj; omega
    have hj1 : j ≠ f1 := fun he => by rw [he] at hj; omega
    rw [newPipe_other hj0 hj1]
    exact h.unused j hj
  · by_cases hj0 : j = f0
    · rw [hj0, newPipe_read hne]
      rfl
    · by_cases hj1 : j = f1
      · rw [hj1, newPipe_write hne]
        rfl
      · rw [newPipe_other hj0 hj1] at hj ⊢
        exact h.shape j hj
  · simp only [hend, hpipe]
    by_cases hq : q = pi
    · subst hq
      rw [update_self]
      refine iff_of_true (by cases w <;> rfl) ⟨if w then f1 else f0, .inr ⟨rfl, rfl⟩⟩
    · rw [update_of_ne hq, h.ends]
      simp [hq]
  · rw [hend, hend]
    rintro (hj | ⟨rfl, hj⟩) (hk | ⟨hq, hk⟩)
    · exact h.one j k q w hj hk
    · exact absurd (hq ▸ hj) (hnoend j w)
    · exact absurd hk (hnoend k w)
    · exact hj.trans hk.symm
  · have hpage := h.pages q
    rw [hpipe, List.count_append]
    by_cases hq : q = pi
    · subst hq
      rw [hunused] at hpage
      rw [update_self, hpage]
      simp [PipeEnds.inUse]
    · have hz : List.count q [pi] = 0 := List.count_eq_zero.mpr (by simpa using hq)
      rw [update_of_ne hq, hz, hpage]
      omega

theorem Counted.pipeFds (p : Fin NPROC) {rf wf : Fin NFILE} (out0 out1 : Bool) (hne : rf ≠ wf)
    (hp : live p = true) (h : Counted live (Pi.single rf 1 + Pi.single wf 1) taken freed s) :
    wp (pipeFds p rf wf out0 out1) (fun r t => Settled live taken freed r.2 t) noPanic s := by
  have hclose : ∀ u, Counted live (Pi.single rf 1 + Pi.single wf 1) taken freed u →
      wp (do
        let a ← Ftable.fileclose rf
        let b ← Ftable.fileclose wf
        pure ((-1 : Int), [a, b])) (fun r t => Settled live taken freed r.2 t) noPanic u :=
    fun u hu => wp_post (hu.closeBoth fun a b => ((-1 : Int), [a, b])) fun r t ⟨a, b, hr, ht⟩ => by
      rw [hr]
      exact ht
  simp only [Ftable.pipeFds]
  rw [wp_bind]
  refine wp_post (h.fdalloc (i := rf) hp) ?_
  rintro (_ | fd0) t ⟨-, ht⟩
  · rw [ht]
    exact hclose s h
  · obtain ⟨ht, ht0, hfd0⟩ := ht
    rw [add_sub_cancel_left] at ht
    have hset0 : t.ofile p fd0 = some rf := by simp [ht0, Files.setFd]
    rw [wp_bind]
    refine wp_post (ht.fdalloc (i := wf) hp) ?_
    rintro (_ | fd1) u ⟨-, hu⟩
    · rw [wp_bind, wp_modify]
      rw [hu]
      refine hclose _ (ht.setFd hp fun j => ?_)
      rw [hset0, names_none, names, Pi.add_apply, Pi.single_apply, Pi.single_apply]
      split_ifs <;> simp_all
    · obtain ⟨hu, hu1, hfd1⟩ := hu
      rw [sub_self] at hu
      have hfd : fd1 ≠ fd0 := by
        rintro rfl
        rw [hset0] at hfd1
        cases hfd1
      have hset1 : u.ofile p fd1 = some wf := by simp [hu1, Files.setFd]
      have hset0' : u.ofile p fd0 = some rf := by
        rw [← hset0, hu1]
        simp [Files.setFd, hfd.symm]
      rw [wp_ite]
      refine ⟨fun _ => ?_, fun _ => Settled.none hu⟩
      rw [wp_bind, wp_modify, wp_bind, wp_modify]
      have hone : Counted live (Pi.single rf 1) taken freed (u.setFd p fd0 none) := by
        refine hu.setFd hp fun j => ?_
        rw [hset0', names_none, names, Pi.zero_apply, Pi.single_apply]
        split_ifs <;> simp_all
      have hset1' : (u.setFd p fd0 none).ofile p fd1 = some wf := by
        rw [← hset1]
        simp [Files.setFd, hfd]
      refine hclose _ (hone.setFd hp fun j => ?_)
      rw [hset1', names_none, names, Pi.add_apply, Pi.single_apply, Pi.single_apply]
      split_ifs <;> simp_all

theorem Counted.sysPipe (h : Counted live 0 taken freed s) (hp : live p = true)
    {page : Option Nat} (hpage : ∀ pi ∈ page, taken.count pi ≤ freed.count pi)
    (out0 out1 : Bool) :
    wp (sysPipe p page out0 out1)
      (fun r t => Settled live (taken ++ kallocs s page) freed r.2 t) noPanic s := by
  simp only [Ftable.sysPipe, wp_bind]
  have hent := h.pipeEntries
  unfold wp at hent ⊢
  unfold kallocs
  rcases hrun : Ftable.pipeEntries s with ⟨e | ⟨_ | ⟨rf, wf⟩, r⟩, t⟩
  · simp only [hrun, noPanic] at hent
  · simp only [hrun] at hent ⊢
    rw [List.append_nil]
    exact hent
  · simp only [hrun] at hent ⊢
    obtain ⟨hne, ht, h0, h1⟩ := hent
    change wp (Ftable.pipeInit rf wf page >>= _) _ _ t
    rw [wp_bind]
    cases page with
    | none =>
      have hboth := ht.closeBoth fun a b => (false, [a, b])
      refine wp_post hboth fun r u hu => ?_
      obtain ⟨a, b, rfl, hu⟩ := hu
      simpa using hu
    | some pi =>
      have hr0 := ht.ref_pos (i := rf) (by
        rw [Pi.add_apply, Pi.single_eq_same, Pi.single_eq_of_ne hne]
        omega)
      have hr1 := ht.ref_pos (i := wf) (by
        rw [Pi.add_apply, Pi.single_eq_same, Pi.single_eq_of_ne hne.symm]
        omega)
      have hnew := ht.newPipe hne h0 h1 hr0 hr1 (hpage pi rfl)
      exact hnew.pipeFds p out0 out1 hne hp

theorem Counted.forkFd (h : Counted live 0 taken freed s) (hnp : live np = true)
    (hfd : s.ofile np fd = none) :
    wp (forkFd p np fd) (fun _ t => Counted live 0 taken freed t ∧
      ∀ fd', fd' ≠ fd → t.ofile np fd' = s.ofile np fd') noPanic s := by
  simp only [Ftable.forkFd, wp_bind, wp_get]
  cases hi : s.ofile p fd with
  | none => exact ⟨h, fun _ _ => rfl⟩
  | some i =>
    rw [wp_bind]
    have hpos := slots_pos hi
    refine wp_post (h.filedup (i := i) (h.ref_pos (by rw [Pi.zero_apply]; omega))) ?_
    rintro _ t ⟨ht, hof⟩
    refine ⟨ht.setFd hnp fun j => ?_, fun fd' hne => ?_⟩
    · rw [hof, hfd, names_none, names, zero_add, Pi.single_apply]
      split_ifs <;> simp_all
    · simp [Files.setFd, hof, hne]

theorem ofNat_ne_of_lt {k : Nat} (h : k < fd) : fd ≠ Fin.ofNat NOFILE k := by
  rintro rfl
  exact absurd h (Nat.not_lt.mpr (Nat.mod_le k NOFILE))

section
variable (h : Counted live 0 taken freed s)
include h

theorem Counted.forkFiles (hnp : live np = true) (hnone : ∀ fd, s.ofile np fd = none) :
    wp (forkFiles p np) (fun _ t => Settled live taken freed [] t) noPanic s := by
  unfold Ftable.forkFiles
  refine wp_post (wp_forUpto (fun k t => Counted live 0 taken freed t ∧
    ∀ fd : Fin NOFILE, k ≤ fd → t.ofile np fd = none) ⟨h, fun fd _ => hnone fd⟩ ?_)
    fun _ t ht => Settled.none ht.1
  · rintro k hk t ⟨ht, hrest⟩
    have hkval : ((Fin.ofNat NOFILE k : Fin NOFILE) : Nat) = k := Nat.mod_eq_of_lt hk
    refine wp_post (ht.forkFd (p := p) hnp (hrest _ hkval.ge)) ?_
    rintro _ u ⟨hu, hsame⟩
    refine ⟨hu, fun fd hfd => ?_⟩
    rw [hsame fd (ofNat_ne_of_lt hfd)]
    exact hrest fd (by omega)

-- `fileclose` comes before the descriptor is cleared
theorem Counted.exitFd (hp : live p = true) (fd : Fin NOFILE) :
    wp (exitFd p fd) (fun r t => Settled live taken freed [r] t ∧ t.ofile p fd = none ∧
      ∀ fd', s.ofile p fd' = none → t.ofile p fd' = none) noPanic s := by
  simp only [Ftable.exitFd, wp_bind, wp_get]
  cases hi : s.ofile p fd with
  | none =>
    refine ⟨?_, hi, fun _ hn => hn⟩
    simpa [Settled, Released.pages] using h
  | some i =>
    have hpos := slots_pos hi
    simp only [wp_bind, wp_modify, wp_pure]
    refine wp_post (h.fileclose (i := i) (by rw [Pi.zero_apply]; omega)) ?_
    rintro r t ⟨ht, hof⟩
    refine ⟨?_, by simp [Files.setFd], fun fd' hn => ?_⟩
    · have hset : Counted live 0 taken (freed ++ r.pages) (t.setFd p fd none) := by
        refine ht.setFd hp fun j => ?_
        rw [hof, hi, names_none, names, zero_sub, Pi.neg_apply, Pi.single_apply]
        split_ifs <;> simp_all
      simpa [Settled] using hset
    · by_cases hfd : fd' = fd
      · simp [Files.setFd, hfd]
      · simpa [Files.setFd, hfd, hof] using hn

theorem Counted.closeUpto (hp : live p = true) (k : Nat) (hk : k ≤ NOFILE) :
    wp (closeUpto p k) (fun r t => Settled live taken freed r t ∧
      ∀ fd : Fin NOFILE, fd < k → t.ofile p fd = none) noPanic s := by
  induction k with
  | zero => exact ⟨Settled.none h, fun fd hfd => absurd hfd (Nat.not_lt_zero _)⟩
  | succ k ih =>
    rw [Ftable.closeUpto, wp_bind]
    refine wp_post (ih (by omega)) ?_
    rintro rs t ⟨ht, hclosed⟩
    rw [wp_bind]
    refine wp_post (Counted.exitFd ht hp (Fin.ofNat NOFILE k)) ?_
    rintro r u ⟨hu, hfd, hkeep⟩
    refine ⟨?_, fun fd hlt => ?_⟩
    · simpa [Settled] using hu
    · by_cases hlast : fd = Fin.ofNat NOFILE k
      · rw [hlast]
        exact hfd
      · refine hkeep fd (hclosed fd ?_)
        have hval : ((Fin.ofNat NOFILE k : Fin NOFILE) : Nat) = k := Nat.mod_eq_of_lt (by omega)
        have hne : (fd : Nat) ≠ k := fun he => hlast (Fin.ext (he.trans hval.symm))
        omega

end

end Counted

/-! Runs. -/

namespace FileSys
variable {back : α → List Released} {c : FileProg α} {s : FileSys}

section
attribute [local irreducible] forkFiles closeUpto

def Inv (s : FileSys) : Prop := Counted s.live 0 s.taken s.freed s.files

theorem call_panic {Q : α → Files → Prop} (h : wp c Q noPanic s.files) (e : Halt) :
    s.call c back ≠ .error e := by
  unfold call
  unfold wp at h
  split at h
  · rename_i hc
    rw [hc]
    simp
  · exact h.elim

theorem call_spec (h : wp c (fun r t => Settled s.live s.taken s.freed (back r) t) noPanic s.files) :
    (∀ t, s.call c back = .ok t → t.Inv) ∧
    ∀ msg, s.call c back = .error (.panic msg) → msg = "init exiting" := by
  refine ⟨fun t ht => ?_, fun msg hm => absurd hm (call_panic h _)⟩
  unfold call at ht
  unfold wp at h
  split at h
  · rename_i hc
    rw [hc] at ht
    cases ht
    exact h
  · exact h.elim

theorem boot_inv : boot.Inv where
  ref i := by
    have hz : slots bootFiles i = 0 := by simp [slots, bootFiles]
    change ((bootFiles.file i).ref : Int) = slots bootFiles i + 0
    rw [hz]
    rfl
  unused _ _ := rfl
  shape _ h := by cases h
  ends pi w := by
    refine iff_of_false (by cases w <;> exact Bool.false_ne_true) ?_
    rintro ⟨i, he⟩
    exact absurd he.ref (lt_irrefl 0)
  one i _ _ _ he := absurd he.ref (lt_irrefl 0)
  pages _ := rfl
  idle _ _ _ := rfl

theorem Inv.grow (h : s.Inv) :
    Counted (update s.live np true) 0 s.taken s.freed s.files := Counted.grow h

theorem Inv.act (h : s.Inv) (e : Fin NPROC × RefCall) :
    (∀ t, s.act e = .ok t → t.Inv) ∧
    ∀ msg, s.act e = .error (.panic msg) → msg = "init exiting" := by
  obtain ⟨p, c⟩ := e
  by_cases hp : s.live p = true
  case neg => simp [FileSys.act, hp]
  simp only [FileSys.act, hp, if_true]
  cases c with
  | openFile found omode => exact call_spec (Counted.opens h hp found omode).1
  | dup fd => exact call_spec (Counted.sysDup h hp fd)
  | close fd => exact call_spec (Counted.sysClose h hp fd)
  | helper found omode => exact call_spec (Counted.opens h hp found omode).2
  | pipe page out0 out1 =>
    simp only
    split
    · rename_i hpage
      exact call_spec (s := { s with taken := s.taken ++ kallocs s.files page })
        (Counted.sysPipe h hp hpage out0 out1)
    · simp
  | fork np =>
    cases np with
    | none => simpa using h
    | some np =>
      simp only
      split
      · simp
      · rename_i hnp
        exact call_spec (s := { s with live := update s.live np true })
          (h.grow.forkFiles (update_self ..) (h.idle np (by simpa using hnp)))
  | exit =>
    simp only
    split
    · simp [eq_comm]
    have hw := Counted.closeUpto h hp NOFILE le_rfl
    cases hc : s.call (closeUpto p NOFILE) id with
    | error e => exact absurd hc (call_panic hw e)
    | ok t =>
      refine ⟨fun u hu => ?_, fun msg hm => (by cases hm)⟩
      cases hu
      unfold call at hc
      unfold wp at hw
      split at hw
      case h_2 => exact hw.elim
      rename_i hrun
      rw [hrun] at hc
      cases hc
      refine { hw.1 with idle := fun q hq fd => ?_ }
      by_cases hqp : q = p
      · rw [hqp]
        exact hw.2 fd fd.isLt
      · have hq : update s.live p false q = false := hq
        rw [update_of_ne hqp] at hq
        exact hw.1.idle q hq fd

end

/-! The machine of the log's handle works on the same table. -/

def asRefCalls (log : LogFile) : FileCall → List RefCall
  | .openFile found omode => [.openFile found omode]
  | .dup fd => [.dup fd]
  | .close fd => [.close fd]
  | .pipe page out0 out1 => [.pipe page out0 out1]
  | .fork np => [.fork np]
  | .exit => [.exit]
  | .flush found => if log.opened then [] else [.helper found O_CREATE]

structure Follows (y : Sys) (s : FileSys) : Prop where
  files : s.files = y.files
  live : s.live = y.live

theorem call_follows {α : Type} {y z : Sys} {c : FileProg α} {a : α} (back : α → List Released)
    (hf : s.files = y.files) (hz : y.files? c = some (a, z)) :
    ∃ t, s.call c back = .ok t ∧ t.files = z.files ∧ t.live = s.live ∧ z.live = y.live := by
  unfold Sys.files? at hz
  split at hz
  · rename_i hc
    cases hz
    refine ⟨{ s with files := _, freed := s.freed ++ (back a).flatMap Released.pages }, ?_, rfl,
      rfl, rfl⟩
    unfold FileSys.call
    rw [hf, hc]
  · cases hz

theorem wp_writeToLogs_files (p : Fin NPROC) (found : Option Found) (h : LogFile) (F : Files) :
    wp (writeToLogs p found h) (fun _ G => if h.opened then G = F
      else ∃ r, helperOpen p found O_CREATE F = (.ok r, G)) anyPanic F := by
  have hrest : ∀ (h : LogFile) (G : Files), wp (do
      let i ← h.entry
      let k ← kfilewrite i
      pure (h, k)) (fun _ K => K = G) anyPanic G := by
    rintro ⟨o, f⟩ G
    cases f with
    | null | bad => trivial
    | entry i =>
      simp only [LogFile.entry, kfilewrite, wp_bind, wp_pure, wp_get, wp_ite]
      refine ⟨fun _ => trivial, fun _ => ?_⟩
      cases (G.file i).type <;> simp [anyPanic]
  cases ho : h.opened with
  | true =>
    simp only [writeToLogs, ensureOpened, ho, if_true]
    exact hrest h F
  | false =>
    simp only [writeToLogs, ensureOpened, ho, Bool.false_eq_true, if_false]
    rw [wp_bind, wp_bind]
    refine wp_mono (wp_self (helperOpen p found O_CREATE)) (fun r G hr => ?_) fun _ _ _ => trivial
    obtain ⟨_ | i, rs⟩ := r
    · trivial
    · rw [wp_pure]
      exact wp_post (hrest ⟨true, .entry i⟩ G) fun _ K hK => ⟨_, hK ▸ hr⟩

theorem Follows.step {y z : Sys} {p : Fin NPROC} {c : FileCall} (h : Follows y s)
    (hpage : ∀ page out0 out1, c = .pipe page out0 out1 →
      ∀ pi ∈ page, s.taken.count pi ≤ s.freed.count pi)
    (hz : Ftable.step y (p, c) = some z) :
    ∃ t, Run.exec (Shared.step act) s ((asRefCalls y.log c).map (p, ·)) = some t ∧
      Follows z t := by
  have hone : ∀ {d : RefCall} {t : FileSys}, s.act (p, d) = .ok t →
      Run.exec (Shared.step act) s [(p, d)] = some t := by
    intro d t ht
    simp [Run.exec, Shared.step_eq_some.mpr ht]
  cases hp : y.live p with
  | false => simp [Ftable.step, hp] at hz
  | true =>
    have hps : s.live p = true := h.live ▸ hp
    simp only [Ftable.step, hp, if_true] at hz
    cases c with
    | openFile found omode =>
      obtain ⟨⟨a, z⟩, ha, rfl⟩ := Option.map_eq_some_iff.mp hz
      obtain ⟨t, ht, hf, hl, hy⟩ := call_follows Prod.snd h.files ha
      exact ⟨t, hone (by simpa [act, hps] using ht), hf, by rw [hl, hy, h.live]⟩
    | dup fd =>
      obtain ⟨⟨a, z⟩, ha, rfl⟩ := Option.map_eq_some_iff.mp hz
      obtain ⟨t, ht, hf, hl, hy⟩ := call_follows (fun _ => []) h.files ha
      exact ⟨t, hone (by simpa [act, hps] using ht), hf, by rw [hl, hy, h.live]⟩
    | close fd =>
      obtain ⟨⟨a, z⟩, ha, rfl⟩ := Option.map_eq_some_iff.mp hz
      obtain ⟨t, ht, hf, hl, hy⟩ := call_follows (fun r => [r.2]) h.files ha
      exact ⟨t, hone (by simpa [act, hps] using ht), hf, by rw [hl, hy, h.live]⟩
    | pipe page out0 out1 =>
      obtain ⟨⟨a, z⟩, ha, rfl⟩ := Option.map_eq_some_iff.mp hz
      obtain ⟨t, ht, hf, hl, hy⟩ := call_follows
        (s := { s with taken := s.taken ++ kallocs s.files page }) Prod.snd h.files ha
      refine ⟨t, hone ?_, hf, by rw [hl, hy, h.live]⟩
      simp only [act, hps, if_true]
      rw [if_pos (hpage page out0 out1 rfl)]
      exact ht
    | fork np =>
      cases np with
      | none =>
        cases hz
        exact ⟨s, hone (by simp [act, hps]), h⟩
      | some np =>
        by_cases hnp : y.live np = true
        · simp [hnp] at hz
        · simp only [hnp, Bool.false_eq_true, if_false] at hz
          obtain ⟨⟨a, z⟩, ha, rfl⟩ := Option.map_eq_some_iff.mp hz
          obtain ⟨t, ht, hf, hl, hy⟩ := call_follows
            (s := { s with live := update s.live np true }) (fun _ => []) h.files ha
          refine ⟨t, hone ?_, hf, by rw [hl, h.live]⟩
          simp only [act, hps, h.live, hnp, if_true, Bool.false_eq_true, if_false]
          exact h.live ▸ ht
    | exit =>
      by_cases hi : p = initproc
      · simp [hi] at hz
      · simp only [hi, if_false] at hz
        obtain ⟨⟨a, z⟩, ha, rfl⟩ := Option.map_eq_some_iff.mp hz
        obtain ⟨t, ht, hf, hl, hy⟩ := call_follows id h.files ha
        refine ⟨{ t with live := update s.live p false }, hone ?_, hf, by rw [h.live]⟩
        simp only [act, hps, hi, if_true, if_false, ht]
        rfl
    | flush found =>
      obtain ⟨⟨⟨l, k⟩, z⟩, ha, rfl⟩ := Option.map_eq_some_iff.mp hz
      unfold Sys.files? at ha
      have hw := wp_writeToLogs_files p found y.log y.files
      split at ha
      · rename_i hrun
        cases ha
        have hG := wp_of_run hw hrun
        cases ho : y.log.opened with
        | true =>
          rw [ho] at hG
          exact ⟨s, by simp [asRefCalls, ho, Run.exec], h.files.trans hG.symm, h.live⟩
        | false =>
          rw [ho] at hG
          obtain ⟨r, hr⟩ := hG
          refine ⟨{ s with files := _, freed := s.freed ++ r.2.flatMap Released.pages },
            ?_, rfl, h.live⟩
          simp only [asRefCalls, ho, Bool.false_eq_true, if_false, List.map_cons, List.map_nil]
          refine hone ?_
          simp only [act, hps, if_true, FileSys.call, h.files, hr]
      · cases ha

theorem call_live {t : FileSys} (h : s.call c back = .ok t) : t.live = s.live := by
  unfold call at h
  split at h
  · cases h
    rfl
  · cases h

theorem act_live {t : FileSys} {p : Fin NPROC} {c : RefCall} (h : s.act (p, c) = .ok t) :
    s.live p = true ∧ (∀ q, q ≠ p ∨ c ≠ .exit → s.live q = true → t.live q = true) ∧
      ∀ np, c = .fork (some np) → s.live np = false := by
  obtain ⟨hp, h⟩ := guard_ok.mp h
  refine ⟨hp, ?_⟩
  cases c with
  | openFile found omode | dup fd | close fd | helper found omode =>
    rw [call_live h]
    exact ⟨fun _ _ hq => hq, fun np hc => by cases hc⟩
  | pipe page out0 out1 =>
    obtain ⟨-, h⟩ := guard_ok.mp h
    rw [call_live h]
    exact ⟨fun _ _ hq => hq, fun np hc => by cases hc⟩
  | fork np =>
    cases np with
    | none =>
      cases h
      exact ⟨fun _ _ hq => hq, fun np hc => by cases hc⟩
    | some np =>
      obtain ⟨hnp, h⟩ := unless_ok.mp h
      rw [call_live h]
      refine ⟨fun q _ hq => ?_, fun np' hc => ?_⟩
      · by_cases hqp : q = np
        · rw [hqp]
          exact update_self ..
        · exact (update_of_ne hqp _ _).trans hq
      · cases hc
        simpa using hnp
  | exit =>
    obtain ⟨-, h⟩ := unless_ok.mp h
    obtain ⟨u, hu, rfl⟩ := map_ok.mp h
    refine ⟨fun q hqp hq => ?_, fun np hc => by cases hc⟩
    have hne : q ≠ p := hqp.elim id fun hx => absurd rfl hx
    exact (update_of_ne hne _ _).trans hq

/-- After every run of calls by any processes the counts are exact. A page is given back as
often as it was taken, once less while one of its ends is open. -/
theorem reference_counts_exact (s : FileSys) (hr : Shared.Reaches act boot s) :
    (∀ i, (s.files.file i).ref = slots s.files i) ∧
    (∀ i, (s.files.file i).ref = 0 → (s.files.file i).type = .none) ∧
    (∀ pi, (s.files.pipe pi).readopen = true ↔ ∃ i, (s.files.file i).End pi false) ∧
    (∀ pi, (s.files.pipe pi).writeopen = true ↔ ∃ i, (s.files.file i).End pi true) ∧
    (∀ pi, s.taken.count pi = s.freed.count pi + (s.files.pipe pi).inUse.toNat) ∧
    ∀ e, s.act e ≠ .error (.panic "fileclose") ∧ s.act e ≠ .error (.panic "filedup") := by
  have h : s.Inv := hr.inv boot_inv fun hi hs => (hi.act _).1 _ hs
  refine ⟨fun i => ?_, h.unused, fun pi => h.ends pi false, fun pi => h.ends pi true, h.pages,
    fun e => ⟨fun he => ?_, fun he => ?_⟩⟩
  · have hi := h.ref i
    rw [Pi.zero_apply] at hi
    omega
  · exact absurd ((h.act e).2 _ he) (by decide)
  · exact absurd ((h.act e).2 _ he) (by decide)

/-- The child closes its read end and exits; `init` closes both ends and takes the page again
for a pipe whose second `copyout` fails. -/
def pageTwice (p q : Fin NPROC) : List (Fin NPROC × RefCall) :=
  [(p, .pipe (some 7) true true), (p, .fork (some q)), (q, .close 0), (p, .dup 1), (q, .exit),
   (p, .close 0), (p, .close 1), (p, .close 2), (p, .pipe (some 7) true false),
   (p, .helper (some logInode) O_CREATE)]

theorem reference_counts_exact_pageTwice : ∃ s : FileSys,
    Run.exec (Shared.step act) boot (pageTwice 0 1) = some s ∧ s.taken = [7, 7] ∧
    s.freed = [7, 7] ∧ slots s.files 0 = 1 ∧ ¬ ∃ i, (s.files.file i).End 7 true := by
  have hrun : (Run.exec (Shared.step act) boot (pageTwice 0 1)).map
      (fun s => (s.taken, s.freed, (s.files.file 0).ref, (s.files.pipe 7).writeopen)) =
      some ([7, 7], [7, 7], 1, false) := by decide +kernel
  obtain ⟨s, hs, hst⟩ := Option.map_eq_some_iff.mp hrun
  simp only [Prod.mk.injEq] at hst
  obtain ⟨ht, hf, hr, hw⟩ := hst
  have h := reference_counts_exact s ⟨_, hs⟩
  refine ⟨s, hs, ht, hf, (h.1 0).symm.trans hr, fun hx => ?_⟩
  rw [(h.2.2.2.1 7).mpr hx] at hw
  cases hw

end FileSys

end Xv6Audit.Ftable
