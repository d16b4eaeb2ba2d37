import Xv6Audit.Fs.NameCalls

/-! `sys_link`, `sys_unlink`, `sys_mkdir` and `sys_mknod` with their log operation. A call that
returns -1 has changed nothing, and its operation has ended. -/
namespace Xv6Audit.FileSys.Op

open Prog Disk

structure State where
  fs : Fs
  outstanding : Int

abbrev OpProg := Prog State String

def onFs {α : Type} (c : FsProg α) : OpProg α := zoom State.fs (fun fs s => { s with fs := fs }) c

def beginOp : OpProg Unit := modify fun s => { s with outstanding := s.outstanding + 1 }

def endOp : OpProg Unit := modify fun s => { s with outstanding := s.outstanding - 1 }

def linkBad (ip : Fin NINODE) : OpProg Int := do
  onFs (ilock ip)
  onFs (setNlink ip (· - 1))
  onFs (iunlockput ip)
  endOp
  pure (-1)

def sysLink (cwd : Fin NINODE) (old new : Option UserPath) : OpProg Int := do
  match old, new with
  | some old, some new =>
    beginOp
    match ← onFs (namei cwd old.bytes) with
    | none =>
      endOp
      pure (-1)
    | some ip =>
      onFs (ilock ip)
      if ((← get).fs.itable ip).d.type = some .dir then do
        onFs (iunlockput ip)
        endOp
        pure (-1)
      else do
        onFs (setNlink ip (· + 1))
        onFs (iunlock ip)
        match ← onFs (nameiparent cwd new.bytes) with
        | none => linkBad ip
        | some (dp, name) =>
          onFs (ilock dp)
          if ← onFs (dirlink dp name ((← get).fs.itable ip).inum) then do
            onFs (iunlockput dp)
            onFs (iput ip)
            endOp
            pure 0
          else do
            onFs (iunlockput dp)
            linkBad ip
  | _, _ => pure (-1)

def unlinkBad (dp : Fin NINODE) : OpProg Int := do
  onFs (iunlockput dp)
  endOp
  pure (-1)

def sysUnlink (cwd : Fin NINODE) (path : Option UserPath) : OpProg Int := do
  match path with
  | none => pure (-1)
  | some path =>
    beginOp
    match ← onFs (nameiparent cwd path.bytes) with
    | none =>
      endOp
      pure (-1)
    | some (dp, name) =>
      onFs (ilock dp)
      if namecmp name (Audit.ascii ".") = 0 ∨ namecmp name (Audit.ascii "..") = 0 then unlinkBad dp
      else
        match ← onFs (dirlookup dp name) with
        | none => unlinkBad dp
        | some (ip, off) =>
          onFs (ilock ip)
          let d := ((← get).fs.itable ip).d
          if d.nlink < 1 then throw "unlink: nlink < 1"
          else do
            if ← (if d.type = some .dir then onFs (isdirempty ip) else pure true) then do
              if ← onFs (writeDirent dp off ⟨0, List.replicate DIRSIZ 0⟩) then do
                if d.type = some .dir then onFs (setNlink dp (· - 1)) else pure ()
                onFs (iunlockput dp)
                onFs (setNlink ip (· - 1))
                onFs (iunlockput ip)
                endOp
                pure 0
              else throw "unlink: writei"
            else do
              onFs (iunlockput ip)
              unlinkBad dp

/-- `sys_mkdir` and `sys_mknod`, which begin their operation before they fetch the path. -/
def sysMake (cwd : Fin NINODE) (path : Option UserPath) (type : InodeType) (major minor : Int) :
    OpProg Int := do
  beginOp
  match path with
  | none =>
    endOp
    pure (-1)
  | some path =>
    match ← onFs (create cwd path.bytes type major minor) with
    | none =>
      endOp
      pure (-1)
    | some ip =>
      onFs (iunlockput ip)
      endOp
      pure 0

def sysMkdir (cwd : Fin NINODE) (path : Option UserPath) : OpProg Int := sysMake cwd path .dir 0 0

def sysMknod (cwd : Fin NINODE) (path : Option UserPath) (major minor : Int) : OpProg Int :=
  sysMake cwd path .device major minor

/-! The operation around the call. -/

section
variable {s : State} {E : String → State → Prop}

theorem wp_onFs {α : Type} (c : FsProg α) (Q : α → State → Prop) : wp (onFs c) Q E s ↔
    wp c (fun a gs => Q a { s with fs := gs }) (fun e gs => E e { s with fs := gs }) s.fs :=
  wp_zoom _ _ c s Q E

variable {Q : Int → State → Prop} {cwd : Fin NINODE}

theorem ended (fs : Fs) : (⟨fs, s.outstanding + 1 - 1⟩ : State) = { s with fs := fs } := by
  rw [Int.add_sub_cancel]

/-- `sys_link` is `link` of `Fs.Dir` inside an operation, which has ended after the call on every
path. -/
theorem wp_sysLink {old new : UserPath}
    (h : wp (link cwd old.bytes new.bytes) (fun r gs => Q r { s with fs := gs }) anyStop s.fs) :
    wp (sysLink cwd (some old) (some new)) Q anyStop s := by
  unfold link at h
  simp only [sysLink, beginOp, endOp, linkBad, wp_bind, wp_modify, wp_onFs] at h ⊢
  refine wp_post h fun r gs hr => ?_
  cases r with
  | none =>
    simp only [wp_bind, wp_modify, wp_pure, ended] at hr ⊢
    exact hr
  | some ip =>
    simp only [wp_bind, wp_modify, wp_pure, wp_get, wp_ite, wp_onFs, ended] at hr ⊢
    refine wp_post hr fun _ ks hk => ⟨hk.1, fun hno => ?_⟩
    refine wp_post (hk.2 hno) fun _ ls hl => ?_
    refine wp_post hl fun _ ms hm => ?_
    refine wp_post hm fun p ns hp => ?_
    cases p with
    | none =>
      simp only [wp_bind, wp_modify, wp_pure, wp_ite, wp_onFs, ended] at hp ⊢
      exact hp.2 (by decide)
    | some q =>
      simp only [wp_bind, wp_modify, wp_pure, wp_get, wp_ite, wp_onFs, ended] at hp ⊢
      refine wp_post hp fun _ os ho => ?_
      refine wp_post ho fun linked qs hq => ⟨fun hyes => ?_, fun hno => ?_⟩
      · exact wp_post hq fun _ _ hu => hu.1 hyes
      · exact wp_post hq fun _ _ hu => hu.2 hno

theorem wp_sysUnlink {path : UserPath}
    (h : wp (unlink cwd path.bytes) (fun r gs => Q r { s with fs := gs }) anyStop s.fs) :
    wp (sysUnlink cwd (some path)) Q anyStop s := by
  unfold unlink at h
  simp only [sysUnlink, beginOp, endOp, unlinkBad, wp_bind, wp_modify, wp_onFs] at h ⊢
  refine wp_post h fun r gs hr => ?_
  cases r with
  | none =>
    simp only [wp_bind, wp_modify, wp_pure, ended] at hr ⊢
    exact hr
  | some q =>
    simp only [wp_bind, wp_modify, wp_pure, wp_ite, wp_onFs, ended] at hr ⊢
    refine wp_post hr fun _ ks hk => ⟨hk.1, fun hno => ?_⟩
    refine wp_post (hk.2 hno) fun p ls hl => ?_
    cases p with
    | none =>
      simp only [wp_bind, wp_modify, wp_pure, wp_onFs, ended] at hl ⊢
      exact hl
    | some p =>
      simp only [wp_bind, wp_modify, wp_pure, wp_get, wp_ite, wp_throw, wp_onFs, ended] at hl ⊢
      exact wp_post hl fun _ ms hm => ⟨fun _ => trivial, hm.2⟩

theorem wp_sysMake {path : UserPath} {type : InodeType} {major minor : Int}
    (h : wp (create cwd path.bytes type major minor) (fun r gs => match r with
      | none => Q (-1) { s with fs := gs }
      | some ip => wp (iunlockput ip) (fun _ ks => Q 0 { s with fs := ks }) anyStop gs)
      anyStop s.fs) : wp (sysMake cwd (some path) type major minor) Q anyStop s := by
  simp only [sysMake, beginOp, endOp, wp_bind, wp_modify, wp_onFs]
  refine wp_post h fun r gs hr => ?_
  cases r with
  | none =>
    simp only [wp_bind, wp_modify, wp_pure, ended]
    exact hr
  | some ip =>
    simp only [wp_bind, wp_modify, wp_pure, wp_onFs, ended]
    exact hr

end

inductive Call where
  | link (old new : Option UserPath)
  | unlink (path : Option UserPath)
  | mkdir (path : Option UserPath)
  | mknod (path : Option UserPath) (major minor : Int)

def Call.prog (cwd : Fin NINODE) : Call → OpProg Int
  | .link old new => sysLink cwd old new
  | .unlink path => sysUnlink cwd path
  | .mkdir path => sysMkdir cwd path
  | .mknod path major minor => sysMknod cwd path major minor

structure Same (s t : State) : Prop where
  node : t.fs.node = s.fs.node
  ref : ∀ u, (t.fs.itable u).ref = (s.fs.itable u).ref
  outstanding : t.outstanding = s.outstanding

theorem same_of_back {s : State} {gs : Fs} (h : Back gs s.fs.sb s.fs.node s.fs.slot) :
    Same s { s with fs := gs } := by
  obtain ⟨S', hd⟩ := h
  refine ⟨hd.shows.node, fun u => ?_, rfl⟩
  rw [hd.shows.ref, hd.held.ref]
  exact Int.add_zero _

section
variable {s : State} {cwd : Fin NINODE}

theorem wp_sysMake_fail (h : WellFormed s.fs) (ha : AtRest s.fs.node s.fs.slot)
    (hcwd : s.fs.live cwd) (path : Option UserPath) (type : InodeType) (major minor : Int) :
    wp (sysMake cwd path type major minor) (fun r t => r = -1 → Same s t) anyStop s := by
  cases path with
  | none =>
    simp only [sysMake, beginOp, endOp, wp_bind, wp_modify, wp_pure]
    exact fun _ => ⟨rfl, fun _ => rfl, Int.add_sub_cancel _ _⟩
  | some path =>
    refine wp_sysMake (h.shows.wp_create ha hcwd path.bytes type major minor (fun _ _ _ => trivial)
      (fun gs hb _ _ => same_of_back hb) ?_ ?_)
    · intro ip gs _ _ _
      exact wp_skip fun _ _ h0 => absurd h0 (by decide)
    · intro _ _ _ ip gs _ _ _ _ _ _ _ _ _
      exact wp_skip fun _ _ h0 => absurd h0 (by decide)

/-- A call that returns -1 leaves all inodes, their contents and every reference to them as they
were, and its log operation has ended. -/
theorem failed_call_changes_nothing (h : WellFormed s.fs) (ha : AtRest s.fs.node s.fs.slot)
    (hcwd : s.fs.live cwd) (c : Call) :
    wp (c.prog cwd) (fun r t => r = -1 → Same s t) anyStop s := by
  cases c with
  | link old new =>
    cases old with
    | none =>
      change wp (pure (-1)) _ _ s
      exact fun _ => ⟨rfl, fun _ => rfl, rfl⟩
    | some old =>
      cases new with
      | none =>
        change wp (pure (-1)) _ _ s
        exact fun _ => ⟨rfl, fun _ => rfl, rfl⟩
      | some new =>
        refine wp_sysLink (h.shows.wp_link ha hcwd old.bytes new.bytes (fun _ _ _ => trivial)
          (fun gs hb _ => same_of_back hb) ?_)
        intro _ _ _ _ _ _ _ gs _ _ _ _ _ _ _ _ _ _ _ _ h0
        exact absurd h0 (by decide)
  | unlink path =>
    cases path with
    | none =>
      change wp (pure (-1)) _ _ s
      exact fun _ => ⟨rfl, fun _ => rfl, rfl⟩
    | some path =>
      exact wp_sysUnlink (wp_post (h.shows.wp_unlink ha hcwd path.bytes) fun r gs hr hneg =>
        same_of_back (hr hneg))
  | mkdir path => exact wp_sysMake_fail h ha hcwd path .dir 0 0
  | mknod path major minor => exact wp_sysMake_fail h ha hcwd path .device major minor

end

section
attribute [local irreducible] Run.exec Run.Along

/-- `link("f", "f")` raises the count of the file and lowers it again when it finds the name. -/
theorem failed_call_changes_nothing_clash : ∃ y, Run.exec Sys.step rootSys oneFile = some y ∧
    ∃ t, (Call.link (userPath "f" f_noNul f_short) (userPath "f" f_noNul f_short)).prog 0 ⟨y.fs, 3⟩ =
      (.ok (-1), t) ∧ t.fs.logged = y.fs.iblock 2 :: y.fs.iblock 2 :: y.fs.logged ∧
      Same ⟨y.fs, 3⟩ t := by
  have hal : Run.Along Sys.step Meets rootSys oneFile := by decide +kernel
  have hrun : (Run.exec Sys.step rootSys oneFile).map (fun y => decide (y.fs.live 0 ∧
      y.fs.Orderly y.fs.sb.ninodes ∧
      ((Call.link (userPath "f" f_noNul f_short) (userPath "f" f_noNul f_short)).prog 0
        ⟨y.fs, 3⟩).1.toOption = some (-1) ∧
      ((Call.link (userPath "f" f_noNul f_short) (userPath "f" f_noNul f_short)).prog 0
        ⟨y.fs, 3⟩).2.fs.logged = y.fs.iblock 2 :: y.fs.iblock 2 :: y.fs.logged)) = some true := by
    decide +kernel
  obtain ⟨y, hy, hd⟩ := Option.map_eq_some_iff.mp hrun
  obtain ⟨hlive, hord, hret, hlog⟩ := of_decide_eq_true hd
  obtain ⟨hwf, hrest⟩ := atRest_of_run hal hy hord
  refine ⟨y, hy, _, Prod.ext (toOption_eq_some hret) rfl, hlog, ?_⟩
  exact wp_of_run (failed_call_changes_nothing hwf hrest hlive _)
    (Prod.ext (toOption_eq_some hret) rfl) rfl

end

end Xv6Audit.FileSys.Op
