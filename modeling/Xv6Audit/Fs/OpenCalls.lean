import Xv6Audit.Fs.NameCalls

/-! `sys_open`, and `open` of `kernel/file_helper.c`. -/
namespace Xv6Audit.FileSys
open Function

open Prog Disk
open Audit (ascii)
open Ftable (Files flag)

/-! The file table. -/

section Files
variable {F G : Files} {p : Fin NPROC} {i : Fin NFILE} {E : String → Files → Prop}

theorem upd_self (h : Cleared F) (h0 : (F.file i).ref = 0) (f : Ftable.File) :
    (F.upd i f).upd i { F.file i with ref := 0, type := .none } = F := by
  have hsame : ({ F.file i with ref := 0, type := .none } : Ftable.File) = F.file i := by
    have ht := h i h0
    cases hf : F.file i
    simp_all
  rw [hsame]
  simp [Files.upd]

end Files

/-! The inode. -/

section Open
variable {fs : Fs} {sb : Super} {I : Nat → Option Node} {S : Fin NINODE → Slot}
  {cwd : Fin NINODE}

theorem Shows.wp_openInode (h : Shows fs sb I S) (ha : AtRest I S) (hcwd : 0 < (S cwd).ref)
    (path : List UInt8) (omode : Nat) {Q : Option (Fin NINODE) → Fs → Prop}
    (hno : ∀ gs, Back gs sb I S → (flag omode O_CREATE = true →
      ¬ fs.Makes (startOf S cwd path) (elems path)) → Q none gs)
    (hold : ∀ ip gs T, Doing gs sb I S (one ip) (update noLocks ip true) T →
      (flag omode O_CREATE = true → ¬ fs.Makes (startOf S cwd path) (elems path)) →
      Q (some ip) gs)
    (hmade : ∀ x f I' ip gs T, flag omode O_CREATE = true →
      fs.Makes (startOf S cwd path) (elems path) → I x = none → f.nlink = 1 → I' x = some f →
      (gs.itable ip).d.type = some .file →
      Doing gs sb I' S (one ip) (update noLocks ip true) T → (T ip).inum = x → Q (some ip) gs) :
    wp (openInode cwd path omode) Q anyStop fs := by
  unfold openInode
  by_cases hcr : flag omode O_CREATE = true
  · rw [if_pos hcr]
    refine h.wp_create ha hcwd path .file 0 0 (fun _ _ _ => trivial)
      (fun gs hb hnot => hno gs hb fun _ => hnot rfl)
      (fun ip gs T hnot hd => hold ip gs T hd fun _ => hnot) ?_
    intro x f I' ip gs T hm hx hty hnl hI' hd hTx hTv
    refine hmade x f I' ip gs T hcr (hm rfl) hx hnl hI' ?_ hd hTx
    rw [← hty]
    exact (hd.shows.copy (hd.live (ha.nonneg ip) (one_pos ip)) hTv (by rw [hTx]; exact hI')).1
  · rw [if_neg hcr, wp_bind]
    refine h.wp_namei ha hcwd path (fun _ _ _ => trivial)
      (fun _ gs hb => hno gs hb fun hc => absurd hc hcr) ?_
    intro ip T gs hw _
    simp only [wp_bind, wp_pure]
    refine hw.doing.wp_ilock (ha.nonneg ip) (one_pos ip) rfl (fun _ _ => trivial) ?_
    intro ks U _ hd _ _ _ _ _
    exact hold ip ks U hd fun hc => absurd hc hcr

end Open

section
attribute [local irreducible] Run.exec Run.Along

end

/-! `open` of `file_helper.c`. -/

/-- `open` of `file_helper.c` for the running process. Its `create` is a copy of the one in
`sysfile.c`; the name is a string of the kernel, of any length. -/
def helperOpen (p : Fin NPROC) (filename : List UInt8) (omode : UInt32) :
    SysProg (Option (Fin NFILE)) := do
  let cwd ← mycwd p
  match ← onFs (openInode cwd filename omode.toNat) with
  | none => pure none
  | some ip =>
    let d := ((← get).fs.itable ip).d
    let found : Ftable.Found := ⟨ip.val, d.type.getD .file, d.major⟩
    let (f, rs) ← onFiles (Ftable.helperOpen p (some found) omode.toNat)
    onFs (openEnd ip omode.toNat (if f.isSome then 0 else -1))
    releaseAll rs
    pure f

section Helper
variable {F : Files} {p : Fin NPROC} {found : Ftable.Found} {omode : Nat}

end Helper

end Xv6Audit.FileSys
