import Xv6Audit.Lib.Shared
import Xv6Audit.Fs.Links
import Xv6Audit.Fs.Sysfile
import Xv6Audit.File.LogHandle

/-! Who refers to the entries of the inode table: open files, working directories, and the
call that is running. -/
namespace Xv6Audit.FileSys

open Prog LinkTree
open Shared (sum_update)
open Ftable (Files File Released)

def holds (f : File) (s : Fin NINODE) : Prop :=
  0 < f.ref ∧ (f.type = .inode ∨ f.type = .device) ∧ Fin.ofNat NINODE f.ip = s

instance (f : File) (s : Fin NINODE) : Decidable (holds f s) := inferInstanceAs (Decidable (_ ∧ _))

def weight (f : File) (s : Fin NINODE) : Int := if holds f s then 1 else 0

def held (F : Files) (s : Fin NINODE) : Int := ∑ i, weight (F.file i) s

def cwdWeight (c : Option (Fin NINODE)) (s : Fin NINODE) : Int := if c = some s then 1 else 0

def Sys.cwds (y : Sys) (s : Fin NINODE) : Int := ∑ p, cwdWeight (y.cwd p) s

def handed : Released → Fin NINODE → Int
  | .inode ip => one (Fin.ofNat NINODE ip)
  | .page _ => 0
  | .nothing => 0

def handedAll : List Released → Fin NINODE → Int
  | [] => 0
  | r :: rs => handed r + handedAll rs

def Cleared (F : Files) : Prop := ∀ i, (F.file i).ref = 0 → (F.file i).type = .none

section Weights
variable {F : Files} {f : File} {s : Fin NINODE}

theorem held_upd (F : Files) (i : Fin NFILE) (f : File) (s : Fin NINODE) :
    held (F.upd i f) s = held F s - weight (F.file i) s + weight f s :=
  sum_update F.file i f fun f => weight f s

theorem weight_nonneg (f : File) (s : Fin NINODE) : 0 ≤ weight f s := by
  unfold weight
  split <;> decide

theorem held_nonneg (F : Files) (s : Fin NINODE) : 0 ≤ held F s :=
  Finset.sum_nonneg fun _ _ => weight_nonneg _ _

theorem cwdWeight_nonneg (c : Option (Fin NINODE)) (s : Fin NINODE) : 0 ≤ cwdWeight c s := by
  unfold cwdWeight
  split <;> decide

theorem cwdWeight_some (c s : Fin NINODE) : cwdWeight (some c) s = one c s := by
  simp only [cwdWeight, one, Option.some.injEq, eq_comm]

theorem cwds_nonneg (y : Sys) (s : Fin NINODE) : 0 ≤ y.cwds s :=
  Finset.sum_nonneg fun _ _ => cwdWeight_nonneg _ _

theorem cwds_pos {y : Sys} {p : Fin NPROC} (h : y.cwd p = some s) : 0 < y.cwds s := by
  refine Finset.sum_pos' (fun _ _ => cwdWeight_nonneg _ _) ⟨p, Finset.mem_univ p, ?_⟩
  simp [cwdWeight, h]

theorem handed_nonneg (r : Released) (s : Fin NINODE) : 0 ≤ handed r s := by
  cases r with
  | inode ip => exact one_nonneg _ _
  | page pi | nothing => exact Int.le_refl 0

theorem handedAll_nonneg (rs : List Released) (s : Fin NINODE) : 0 ≤ handedAll rs s := by
  induction rs with
  | nil => exact Int.le_refl 0
  | cons r rs ih =>
    have := handed_nonneg r s
    simp only [handedAll, Pi.add_apply]
    omega

theorem weight_idle (h : f.ref = 0) (s : Fin NINODE) : weight f s = 0 :=
  if_neg fun hc => by
    have := hc.1
    omega

theorem weight_other (hi : f.type ≠ .inode) (hd : f.type ≠ .device) (s : Fin NINODE) :
    weight f s = 0 :=
  if_neg fun hc => hc.2.1.elim hi hd

theorem weight_inode (h : 0 < f.ref) (ht : f.type = .inode ∨ f.type = .device)
    (s : Fin NINODE) : weight f s = one (Fin.ofNat NINODE f.ip) s := by
  unfold weight holds one
  simp only [h, ht, true_and]
  by_cases hs : Fin.ofNat NINODE f.ip = s
  · rw [if_pos hs, if_pos hs.symm]
  · rw [if_neg hs, if_neg (Ne.symm hs)]

theorem weight_ref {n : Nat} (h : 0 < f.ref) (hn : 0 < n) (s : Fin NINODE) :
    weight { f with ref := n } s = weight f s := by
  simp only [weight, holds, h, hn]

end Weights

/-! What the table operations do to the holders. -/

section Table
-- a loop with a literal bound would be unfolded round by round
attribute [local irreducible] forUpto
variable {F : Files} {p : Fin NPROC} {i : Fin NFILE} {E : String → Files → Prop}

section
variable (h : Cleared F)
include h

theorem Cleared.upd {f : File} (hf : f.ref = 0 → f.type = .none) :
    Cleared (F.upd i f) := by
  intro j hj
  by_cases hji : j = i
  · subst j
    simp only [Files.upd, Function.update_self] at hj ⊢
    exact hf hj
  · simp only [Files.upd, Function.update_of_ne hji] at hj ⊢
    exact h j hj

theorem wp_fileclose (hE : ∀ G, E "fileclose" G) {Q : Released → Files → Prop}
    (hQ : ∀ r G, Cleared G → (∀ s, held G s + handed r s = held F s) → Q r G) :
    wp (Ftable.fileclose i) Q E F := by
  simp only [Ftable.fileclose, wp_bind, wp_get, wp_ite, wp_throw, wp_set, wp_pure]
  refine ⟨fun _ => hE _, fun hpos => ⟨fun hmany => ?_, fun hlast => ?_⟩⟩
  · refine hQ _ _ (h.upd fun h0 => ?_) fun s => ?_
    · simp only at h0
      omega
    · rw [held_upd, weight_ref (by omega) hmany]
      simp [handed]
  · have hclr : Cleared (F.upd i { F.file i with ref := 0, type := .none }) := h.upd fun _ => rfl
    have hheld : ∀ s, held (F.upd i { F.file i with ref := 0, type := .none }) s +
        weight (F.file i) s = held F s := by
      intro s
      have hzero := weight_idle (f := { F.file i with ref := 0, type := .none }) rfl s
      rw [held_upd, hzero]
      omega
    cases hty : (F.file i).type with
    | none =>
      refine hQ _ _ hclr fun s => ?_
      rw [← hheld s, weight_other (by rw [hty]; simp) (by rw [hty]; simp)]
      rfl
    | inode =>
      refine hQ _ _ hclr fun s => ?_
      rw [← hheld s, weight_inode (by omega) (.inl hty)]
      rfl
    | device =>
      refine hQ _ _ hclr fun s => ?_
      rw [← hheld s, weight_inode (by omega) (.inr hty)]
      rfl
    | pipe =>
      have hsame : ∀ (e : Ftable.PipeEnds) s, held ((F.upd i { F.file i with
          ref := 0, type := .none }).setPipe (F.file i).pipe e) s + 0 = held F s := by
        intro e s
        rw [← hheld s, weight_other (by rw [hty]; simp) (by rw [hty]; simp)]
        rfl
      simp only [Ftable.pipeclose, wp_bind, wp_get, wp_set, wp_ite, wp_pure]
      exact ⟨fun _ => hQ _ _ hclr (hsame _), fun _ => hQ _ _ hclr (hsame _)⟩

theorem wp_sysClose (fd : Int) (hE : ∀ G, E "fileclose" G) {Q : Int × Released → Files → Prop}
    (hQ : ∀ r G, Cleared G → (∀ s, held G s + handed r.2 s = held F s) → Q r G) :
    wp (Ftable.sysClose p fd) Q E F := by
  simp only [Ftable.sysClose, wp_bind, wp_get]
  cases F.argfd p fd with
  | none => exact hQ _ _ h fun s => Int.add_zero _
  | some a =>
    simp only [wp_bind, wp_modify, wp_pure]
    exact wp_fileclose (F := F.setFd p a.1 none) h hE fun r G hG hheld => hQ (0, r) G hG hheld

theorem wp_exitFd (fd : Fin NOFILE) (hE : ∀ G, E "fileclose" G) {Q : Released → Files → Prop}
    (hQ : ∀ r G, Cleared G → (∀ s, held G s + handed r s = held F s) → Q r G) :
    wp (Ftable.exitFd p fd) Q E F := by
  simp only [Ftable.exitFd, wp_bind, wp_get]
  cases F.ofile p fd with
  | none => exact hQ _ _ h fun s => Int.add_zero _
  | some i =>
    simp only [wp_bind, wp_modify, wp_pure]
    exact wp_fileclose h hE fun r G hG hheld => hQ r (G.setFd p fd none) hG hheld

theorem wp_openEntry (found : Ftable.Found) (hE : ∀ G, E "fileclose" G)
    {Q : Option (Fin NOFILE × Fin NFILE) × List Released → Files → Prop}
    (hback : ∀ rs G, Cleared G → (∀ s, held G s + handedAll rs s =
      held F s + one (Fin.ofNat NINODE found.ip) s) → Q (none, rs) G)
    (hnew : ∀ fd i G, Cleared G → (∀ s, held G s = held F s) → (G.file i).type = .none →
      (G.file i).ref = 1 → Q (some (fd, i), []) G) :
    wp (Ftable.openEntry p found) Q E F := by
  have hsame : Q (none, [.inode found.ip]) F :=
    hback _ F h fun s => by simp [handedAll, handed]
  simp only [Ftable.openEntry, wp_bind, wp_ite, wp_pure]
  refine ⟨fun _ => hsame, fun _ => Ftable.wp_filealloc (fun _ => hsame) fun i hi => ?_⟩
  obtain ⟨G, hG⟩ : ∃ G, G = F.upd i { F.file i with ref := 1 } := ⟨_, rfl⟩
  have hGi : G.file i = { F.file i with ref := 1 } := by simp [hG, Files.upd]
  have hGty : (G.file i).type = .none := by
    rw [hGi]
    exact h i hi
  have hclr : Cleared G := hG ▸ h.upd fun h1 => absurd h1 (by simp)
  have hw : ∀ s, weight (G.file i) s = 0 := weight_other (by rw [hGty]; simp) (by rw [hGty]; simp)
  have hheld : ∀ s, held G s = held F s := by
    intro s
    have hs := held_upd F i { F.file i with ref := 1 } s
    rw [← hG, ← hGi, hw s, weight_idle hi] at hs
    omega
  rw [← hG]
  simp only [wp_bind]
  refine Ftable.wp_fdalloc (fun _ => ?_) fun fd _ => ?_
  · simp only [wp_bind, wp_pure]
    refine wp_fileclose hclr hE fun r K hK hKheld => hback _ K hK fun s => ?_
    have h1 := hKheld s
    have h2 := hheld s
    have h3 : handed (.inode found.ip) s = one (Fin.ofNat NINODE found.ip) s := rfl
    simp only [handedAll, Pi.add_apply, Pi.zero_apply, h3]
    omega
  · exact hnew fd i _ hclr hheld hGty (by rw [show (G.setFd p fd (some i)).file i = _ from hGi])

end

theorem held_setup {G : Files} {f : File} {ip : Nat} (h : Cleared G)
    (hheld : ∀ s, held G s = held F s) (hty : (G.file i).type = .none) (hf : 0 < f.ref)
    (hft : f.type = .inode ∨ f.type = .device) (hip : f.ip = ip) :
    Cleared (G.upd i f) ∧ ∀ s, held (G.upd i f) s = held F s + one (Fin.ofNat NINODE ip) s := by
  refine ⟨h.upd fun h0 => absurd h0 hf.ne', fun s => ?_⟩
  rw [held_upd, hheld, weight_other (by rw [hty]; simp) (by rw [hty]; simp), weight_inode hf hft, hip]
  omega

section
variable (h : Cleared F)
include h

theorem wp_sysOpen (found : Ftable.Found) (omode : Nat) (hE : ∀ G, E "fileclose" G)
    {Q : Int × List Released → Files → Prop}
    (hQ : ∀ r G, Cleared G → (∀ s, held G s + handedAll r.2 s =
      held F s + one (Fin.ofNat NINODE found.ip) s) → Q r G) :
    wp (Ftable.sysOpen p (some found) omode) Q E F := by
  simp only [Ftable.sysOpen, wp_bind, wp_ite, wp_pure]
  refine ⟨fun _ => hQ _ F h fun s => by simp [handedAll, handed], fun _ => ?_⟩
  refine wp_openEntry h found hE (fun rs G hG hheld => hQ _ G hG hheld)
    fun fd i G hG hheld hty hone => ?_
  obtain ⟨hclr, hset⟩ := held_setup (f := { (if found.type = .device then
      { G.file i with type := .device, major := found.major }
    else { G.file i with type := .inode, off := 0 }) with
      ip := found.ip
      readable := !Ftable.flag omode O_WRONLY
      writable := Ftable.flag omode O_WRONLY || Ftable.flag omode O_RDWR })
    hG hheld hty (by split <;> simp [hone]) (by split <;> simp) rfl
  exact hQ _ _ hclr fun s => by simpa [handedAll] using hset s

theorem wp_helperOpen (found : Ftable.Found) (omode : Nat) (hE : ∀ G, E "fileclose" G)
    {Q : Option (Fin NFILE) × List Released → Files → Prop}
    (hQ : ∀ r G, Cleared G → (∀ s, held G s + handedAll r.2 s =
      held F s + one (Fin.ofNat NINODE found.ip) s) → Q r G) :
    wp (Ftable.helperOpen p (some found) omode) Q E F := by
  simp only [Ftable.helperOpen, wp_bind, wp_ite, wp_pure]
  refine ⟨fun _ => hQ _ F h fun s => by simp [handedAll, handed], fun _ => ?_⟩
  refine wp_openEntry h found hE (fun rs G hG hheld => hQ _ G hG hheld)
    fun fd i G hG hheld hty hone => ?_
  obtain ⟨hclr, hset⟩ := held_setup (f := { G.file i with
      type := .inode, off := 0, ip := found.ip
      readable := !Ftable.flag omode O_WRONLY
      writable := true }) hG hheld hty (by simp [hone]) (.inl rfl) rfl
  exact hQ _ _ hclr fun s => by simpa [handedAll] using hset s

theorem wp_filedup (hE : ∀ G, E "filedup" G) {Q : Unit → Files → Prop}
    (hQ : ∀ G, Cleared G → (∀ s, held G s = held F s) → Q () G) :
    wp (Ftable.filedup i) Q E F := by
  simp only [Ftable.filedup, wp_bind, wp_get, wp_ite, wp_throw, wp_set]
  refine ⟨fun _ => hE _, fun hpos => hQ _ (h.upd fun h0 => absurd h0 (by simp)) fun s => ?_⟩
  rw [held_upd, weight_ref (by omega) (Nat.succ_pos _)]
  omega

theorem wp_sysDup (fd : Int) (hE : ∀ G, E "filedup" G) {Q : Int → Files → Prop}
    (hQ : ∀ r G, Cleared G → (∀ s, held G s = held F s) → Q r G) :
    wp (Ftable.sysDup p fd) Q E F := by
  simp only [Ftable.sysDup, wp_bind, wp_get]
  cases F.argfd p fd with
  | none => exact hQ _ F h fun _ => rfl
  | some a =>
    rw [wp_bind]
    refine Ftable.wp_fdalloc (fun _ => hQ _ F h fun _ => rfl) fun fd' _ => ?_
    rw [wp_bind]
    exact wp_filedup (F := F.setFd p fd' (some a.2)) h hE fun G hG hheld => hQ _ G hG hheld

theorem wp_forkFiles {np : Fin NPROC} (hE : ∀ G, E "filedup" G) {Q : Unit → Files → Prop}
    (hQ : ∀ G, Cleared G → (∀ s, held G s = held F s) → Q () G) :
    wp (Ftable.forkFiles p np) Q E F := by
  unfold Ftable.forkFiles
  refine wp_post (wp_forUpto (fun _ G => Cleared G ∧ ∀ s, held G s = held F s)
    ⟨h, fun _ => rfl⟩ ?_) fun _ G hG => hQ G hG.1 hG.2
  rintro k _ G ⟨hG, hheld⟩
  simp only [Ftable.forkFd, wp_bind, wp_get]
  cases G.ofile p (Fin.ofNat NOFILE k) with
  | none => exact ⟨hG, hheld⟩
  | some i =>
    rw [wp_bind]
    refine wp_filedup hG hE fun K hK hKheld => ?_
    exact ⟨hK, fun s => (hKheld s).trans (hheld s)⟩

end

end Table

end Xv6Audit.FileSys
