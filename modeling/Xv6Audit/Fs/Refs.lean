import Xv6Audit.Fs.Itable
import Xv6Audit.Fs.Lookups

/-! The inode table as a table of counted references. Whether the calls run one at a time (`Fs`),
by several processes at once (`Itable`), or only their references are kept (`Lookups`): `iget`,
`idup` and `iput` do the same to it. -/
namespace Xv6Audit.FileSys
open Function Prog
open Icache (Itable)

abbrev RefTable (κ : Type) := Fin NINODE → κ × Nat

namespace RefTable
variable {κ : Type} [DecidableEq κ]

def dup (t : RefTable κ) (i : Fin NINODE) : RefTable κ := update t i ((t i).1, (t i).2 + 1)

def put (t : RefTable κ) (i : Fin NINODE) : RefTable κ := update t i ((t i).1, (t i).2 - 1)

def get (t : RefTable κ) (k : κ) : Option (Fin NINODE × RefTable κ) :=
  match (List.finRange NINODE).find? fun i => 0 < (t i).2 ∧ (t i).1 = k with
  | some i => some (i, t.dup i)
  | none => ((List.finRange NINODE).find? fun i => (t i).2 = 0).map fun i => (i, update t i (k, 1))

end RefTable

/-! Calls one at a time. -/

def Fs.refs (fs : Fs) : RefTable Nat := fun i => ((fs.itable i).inum, (fs.itable i).ref.toNat)

section Alone
variable {fs : Fs} {s : Fin NINODE} {E : String → Fs → Prop}

theorem refs_setInode (fs : Fs) (s : Fin NINODE) (ip : Inode) :
    (fs.setInode s ip).refs = update fs.refs s (ip.inum, ip.ref.toNat) := by
  funext i
  unfold Fs.refs Fs.setInode
  by_cases hi : i = s
  · simp [hi]
  · simp [hi]

theorem refs_dup (h : 0 ≤ (fs.itable s).ref) :
    (fs.setInode s { fs.itable s with ref := (fs.itable s).ref + 1 }).refs = fs.refs.dup s := by
  rw [refs_setInode, RefTable.dup]
  congr 2
  change ((fs.itable s).ref + 1).toNat = (fs.itable s).ref.toNat + 1
  omega

theorem refs_put (h : 0 < (fs.itable s).ref) :
    (fs.setInode s { fs.itable s with ref := (fs.itable s).ref - 1 }).refs = fs.refs.put s := by
  rw [refs_setInode, RefTable.put]
  congr 2
  change ((fs.itable s).ref - 1).toNat = (fs.itable s).ref.toNat - 1
  omega

theorem refs_iget (h : ∀ i, 0 ≤ (fs.itable i).ref) (inum : Nat) :
    wp (iget inum) (fun i gs => fs.refs.get inum = some (i, gs.refs))
      (fun _ _ => fs.refs.get inum = none) fs := by
  have hfind : ((List.finRange NINODE).find? fun i => 0 < (fs.refs i).2 ∧ (fs.refs i).1 = inum) =
      fs.find inum := by
    refine congrArg (List.find? · _) (funext fun i => decide_eq_decide.mpr ?_)
    simp [Fs.refs]
  have hempty : ((List.finRange NINODE).find? fun i => (fs.refs i).2 = 0) = fs.emptySlot := by
    refine congrArg (List.find? · _) (funext fun i => decide_eq_decide.mpr ?_)
    have := h i
    change (fs.itable i).ref.toNat = 0 ↔ _
    omega
  unfold RefTable.get
  rw [hfind, hempty]
  simp only [iget, wp_bind, wp_get]
  cases fs.find inum with
  | some s =>
    simp only [wp_bind, wp_set, wp_pure]
    rw [refs_dup (h s)]
  | none =>
    cases fs.emptySlot with
    | none => exact rfl
    | some s =>
      simp only [wp_bind, wp_set, wp_pure]
      rw [refs_setInode]
      rfl

theorem refs_idup (h : 0 ≤ (fs.itable s).ref) :
    wp (idup s) (fun i gs => i = s ∧ gs.refs = fs.refs.dup s) E fs := by
  simp only [idup, wp_bind, wp_modify, wp_pure]
  exact ⟨trivial, refs_dup h⟩

theorem refs_iput (h : WellFormed fs) (hl : fs.live s) :
    wp (iput s) (fun _ gs => gs.refs = fs.refs.put s) (fun _ _ => True) fs := by
  refine wp_iput h hl (fun _ _ _ => trivial) (fun _ _ => refs_put hl) ?_
  intro href _ _ gs _ _ _ hother href' _ hinum _ _
  funext i
  by_cases hi : i = s
  · rw [hi]
    simp [Fs.refs, RefTable.put, href, href', hinum]
  · rw [RefTable.put, update_of_ne hi]
    simp only [Fs.refs, hother i hi]

end Alone

/-! Calls of several processes. -/

def tableOf {n : Nat} (s : Itable n) : RefTable (Nat × Nat) := fun i =>
  ((s.slot i).key, (s.slot i).ref)

section Together
variable {n : Nat} (s : Itable n) (p : Fin n)

theorem tableOf_gain (i : Fin NINODE) : tableOf (s.gain p i) = (tableOf s).dup i := by
  funext j
  by_cases hj : j = i
  · simp [hj, tableOf, RefTable.dup, Itable.gain, Itable.setSlot, Itable.note, Icache.Slot.key]
  · simp [hj, tableOf, RefTable.dup, Itable.gain, Itable.setSlot, Itable.note]

theorem tableOf_lose (i : Fin NINODE) : tableOf (s.lose p i) = (tableOf s).put i := by
  funext j
  by_cases hj : j = i
  · simp [hj, tableOf, RefTable.put, Itable.lose, Itable.setSlot, Itable.note, Icache.Slot.key]
  · simp [hj, tableOf, RefTable.put, Itable.lose, Itable.setSlot, Itable.note]

theorem tableOf_iget (dev inum : Nat) : (s.iget p dev inum).toOption.map tableOf =
    ((tableOf s).get (dev, inum)).map Prod.snd := by
  unfold Itable.iget RefTable.get
  change _ = Option.map _ (match s.inTable? (dev, inum) with
    | some i => some (i, (tableOf s).dup i)
    | none => s.empty?.map fun i => (i, update (tableOf s) i ((dev, inum), 1)))
  cases s.inTable? (dev, inum) with
  | some i => exact congrArg some (tableOf_gain s p i)
  | none =>
    cases s.empty? with
    | none => rfl
    | some i =>
      refine congrArg some (funext fun j => ?_)
      by_cases hj : j = i
      · simp [hj, tableOf, Itable.fill, Itable.setSlot, Itable.note, Icache.Slot.key]
      · simp [hj, tableOf, Itable.fill, Itable.setSlot, Itable.note]

end Together

def Lookups.table (s : Lookups) : RefTable Nat := fun i => ((s.entry i).inum, (s.entry i).ref)

section References
variable (s : Lookups)

theorem Lookups.table_setEntry (i : Fin NINODE) (e : Entry) :
    (s.setEntry i e).table = update s.table i (e.inum, e.ref) := by
  funext j
  by_cases hj : j = i
  · simp [hj, Lookups.table, Lookups.setEntry]
  · simp [hj, Lookups.table, Lookups.setEntry]

theorem Lookups.table_idup (i : Fin NINODE) : (s.idup i).table = s.table.dup i :=
  s.table_setEntry i _

theorem Lookups.table_iput (i : Fin NINODE) : (s.iput i).table = s.table.put i :=
  s.table_setEntry i _

theorem Lookups.table_iget (inum : Nat) :
    (s.iget inum).toOption.map (fun r => (r.1, r.2.table)) = s.table.get inum := by
  unfold Lookups.iget RefTable.get
  change _ = (match s.inTable? inum with
    | some i => some (i, s.table.dup i)
    | none => s.empty?.map fun i => (i, update s.table i (inum, 1)))
  cases s.inTable? inum with
  | some i => exact congrArg (fun t => some (i, t)) (s.table_idup i)
  | none =>
    cases s.empty? with
    | none => rfl
    | some i => exact congrArg (fun t => some (i, t)) (s.table_setEntry i ⟨inum, 1⟩)

end References

end Xv6Audit.FileSys
