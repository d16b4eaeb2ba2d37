import Xv6Audit.Log.View
import Xv6Audit.Bio.Lru

/-! The buffer cache at three levels: its list with pointers (`Bcache`), its buffers with their
holders (`Cache`), and what the log sees of it (`Log.View`). Every operation of `Cache` is one of
`Bcache` or leaves it alone, and does to the view what the log's own cache does. -/
namespace Xv6Audit.Bio
open Function Disk Log

inductive CacheAct (D : Type) where
  | bget (p : Fin NPROC) (dev blockno : BitVec 32)
  | acquiresleep (p : Fin NPROC) (b : Fin NBUF)
  | fill (p : Fin NPROC) (b : Fin NBUF)
  | modify (p : Fin NPROC) (b : Fin NBUF) (x : D)
  | bwrite (p : Fin NPROC) (b : Fin NBUF)
  | brelse (p : Fin NPROC) (b : Fin NBUF)
  | unref (p : Fin NPROC) (b : Fin NBUF)
  | bpin (b : Fin NBUF)
  | bunpin (b : Fin NBUF)

variable {D : Type}

def Cache.act (c : Cache D) : CacheAct D → Except Halt (Cache D)
  | .bget p dev blockno => (c.bget p dev.toNat blockno.toNat).map (·.2)
  | .acquiresleep p b => c.acquiresleep p b
  | .fill p b => c.fill p b
  | .modify p b x => c.modify p b x
  | .bwrite p b => c.bwrite p b
  | .brelse p b => c.brelse p b
  | .unref p b => c.unref p b
  | .bpin b => .ok (c.bpin b)
  | .bunpin b => .ok (c.bunpin b)

def CacheAct.onList : CacheAct D → List BcacheAct
  | .bget _ dev blockno => [.bget dev blockno]
  | .acquiresleep _ b => [.acquiresleep b]
  | .brelse _ b => [.releasesleep b]
  | .unref _ b => [.unref b]
  | .bpin b => [.bpin b]
  | .bunpin b => [.bunpin b]
  | .fill _ _ | .modify _ _ _ | .bwrite _ _ => []

/-! What both levels keep of a buffer. -/

structure Entry where
  dev : Nat
  blockno : Nat
  refcnt : BitVec 32
  locked : Bool
  waiting : Int
  leaving : Int

def Bcache.entry (s : Bcache) (b : Fin NBUF) : Entry :=
  ⟨(s.dev b).toNat, (s.blockno b).toNat, s.refcnt b, s.locked b, s.waiting b, s.leaving b⟩

def Hold.isAt (st : Stage) (x : Option Hold) : Int := if x.map (·.stage) = some st then 1 else 0

def Cache.entry (c : Cache D) (b : Fin NBUF) : Entry where
  dev := (c.buf b).dev
  blockno := (c.buf b).blockno
  refcnt := (c.buf b).refcnt
  locked := (c.buf b).lock.isSome
  waiting := ∑ p, Hold.isAt .wait (c.hold p b)
  leaving := ∑ p, Hold.isAt .left (c.hold p b)

def Hold.holds (x : Option Hold) : Prop := (x.map (·.stage)).any Stage.owns = true

variable {x : Option Hold}

theorem Hold.holds.isAt (h : Hold.holds x) :
    Hold.isAt .wait x = 0 ∧ Hold.isAt .left x = 0 := by
  cases x with
  | none => cases h
  | some x =>
    obtain ⟨st, d, k⟩ := x
    cases st with
    | wait | left => cases h
    | locked | ready | dirty => exact ⟨rfl, rfl⟩

theorem Hold.holds.isSome (h : Hold.holds x) : x.isSome = true := by
  cases x with
  | none => cases h
  | some x => rfl

structure Follows (s : Bcache) (c : Cache D) : Prop where
  spells : s.links.Spells none (c.lru.map some)
  all : ∀ b, b ∈ c.lru
  entry : s.entry = c.entry

variable {s : Bcache} {c c' : Cache D} {p : Fin NPROC} {b : Fin NBUF}

theorem holds_of_stage {st : Stage} (h : c.stage p b = some st) (hst : st.owns = true) :
    Hold.holds (c.hold p b) := by
  change (c.stage p b).any Stage.owns = true
  rw [h]
  exact hst

theorem holds_of_reads (h : c.stage p b = some .ready ∨ c.stage p b = some .dirty) :
    Hold.holds (c.hold p b) := by
  rcases h with h | h
  · exact holds_of_stage h rfl
  · exact holds_of_stage h rfl

theorem sum_isAt {x : Option Hold} (hhold : c'.hold = update c.hold p (update (c.hold p) b x))
    (st : Stage) (d : Fin NBUF) : ∑ q, Hold.isAt st (c'.hold q d) =
      ∑ q, Hold.isAt st (c.hold q d) - Hold.isAt st (c.hold p d) +
        Hold.isAt st (update (c.hold p) b x d) := by
  rw [← Shared.sum_update (fun q => c.hold q d), hhold]
  refine Finset.sum_congr rfl fun q _ => ?_
  by_cases hq : q = p
  · rw [hq, update_self, update_self]
  · rw [update_of_ne hq, update_of_ne hq]

theorem entry_change {y : Buf D} (hbuf : c'.buf = update c.buf b y)
    (hhold : c'.hold = update c.hold p (update (c.hold p) b x)) :
    c'.entry = update c.entry b ⟨y.dev, y.blockno, y.refcnt, y.lock.isSome,
      (c.entry b).waiting - Hold.isAt .wait (c.hold p b) + Hold.isAt .wait x,
      (c.entry b).leaving - Hold.isAt .left (c.hold p b) + Hold.isAt .left x⟩ := by
  funext d
  unfold Cache.entry
  rw [sum_isAt hhold, sum_isAt hhold, hbuf]
  by_cases hd : d = b
  · subst hd
    simp
  · simp [hd]

theorem entry_setBuf {f : Buf D → Buf D} (b : Fin NBUF) :
    (c.setBuf b f).entry = update c.entry b { c.entry b with
      dev := (f (c.buf b)).dev
      blockno := (f (c.buf b)).blockno
      refcnt := (f (c.buf b)).refcnt
      locked := (f (c.buf b)).lock.isSome } := by
  refine eq_update_iff.mpr ⟨?_, fun d hd => ?_⟩
  · simp [Cache.entry]
  · simp [Cache.entry, Cache.setBuf, hd]

theorem Follows.set {t : Bcache} {e : Entry} (b : Fin NBUF) (f : Entry → Entry) (h : Follows s c)
    (hl : t.links = s.links) (hlru : c'.lru = c.lru) (hc : c'.entry = update c.entry b e)
    (he : e = f (c.entry b)) (hb : t.entry b = f (s.entry b))
    (hother : ∀ d, d ≠ b → t.entry d = s.entry d) : Follows t c' := by
  refine ⟨hl ▸ hlru ▸ h.spells, hlru ▸ h.all, ?_⟩
  rw [hc, he, ← h.entry]
  exact eq_update_iff.mpr ⟨hb, hother⟩

theorem one_le_isAt {st : Stage} (h : c.stage p b = some st) :
    1 ≤ ∑ q, Hold.isAt st (c.hold q b) := by
  have hle := Finset.single_le_sum (f := fun q => Hold.isAt st (c.hold q b))
    (fun q _ => by unfold Hold.isAt; split <;> decide) (Finset.mem_univ p)
  rw [show Hold.isAt st (c.hold p b) = 1 from if_pos h] at hle
  exact hle

namespace Follows
variable (h : Follows s c)
include h

theorem refcnt (d : Fin NBUF) : s.refcnt d = (c.buf d).refcnt :=
  congrArg Entry.refcnt (congrFun h.entry d)

theorem dev (d : Fin NBUF) : (s.dev d).toNat = (c.buf d).dev :=
  congrArg Entry.dev (congrFun h.entry d)

theorem blockno (d : Fin NBUF) : (s.blockno d).toNat = (c.buf d).blockno :=
  congrArg Entry.blockno (congrFun h.entry d)

theorem locked (d : Fin NBUF) : s.locked d = (c.buf d).lock.isSome :=
  congrArg Entry.locked (congrFun h.entry d)

theorem waiting_pos (hst : c.stage p b = some .wait) : 0 < s.waiting b := by
  have heq : (s.waiting b : Int) = _ := congrArg Entry.waiting (congrFun h.entry b)
  have hle := one_le_isAt hst
  simp only [Cache.entry] at heq
  omega

theorem leaving_pos (hst : c.stage p b = some .left) : 0 < s.leaving b := by
  have heq : (s.leaving b : Int) = _ := congrArg Entry.leaving (congrFun h.entry b)
  have hle := one_le_isAt hst
  simp only [Cache.entry] at heq
  omega

theorem bget {dev blockno : BitVec 32}
    (hnone : ∀ q d, (c.buf d).refcnt = 0 → c.hold q d = none)
    (hs : c.bget p dev.toNat blockno.toNat = .ok (b, c')) :
    ∃ t, s.bget dev blockno = .ok t ∧ Follows t c' := by
  have hfound : (fun d => decide (s.dev d = dev ∧ s.blockno d = blockno)) =
      fun d => decide ((c.buf d).dev = dev.toNat ∧ (c.buf d).blockno = blockno.toNat) := by
    refine funext fun d => decide_eq_decide.mpr ?_
    rw [← h.dev, ← h.blockno, BitVec.toNat_inj, BitVec.toNat_inj]
  have hfree : (fun d => decide (s.refcnt d = 0)) = fun d => decide ((c.buf d).refcnt = 0) := by
    funext d
    rw [h.refcnt]
  unfold Bcache.bget
  rw [Bcache.search_next h.spells h.all, Bcache.search_prev h.spells h.all, hfound, hfree]
  unfold Cache.bget Cache.cached? Cache.unused? at hs
  split at hs
  · rename_i d hd
    obtain ⟨hn, hs⟩ := unless_ok.mp hs
    cases hs
    simp only [hd]
    refine ⟨_, rfl, h.set b (fun e => { e with refcnt := e.refcnt + 1, waiting := e.waiting + 1 })
      rfl rfl (entry_change rfl rfl) ?_ ?_ fun d hd => ?_⟩
    · have hn : c.hold p b = none := by simpa using hn
      simp [hn, Hold.isAt, Cache.entry]
    · simp [Bcache.entry, Bcache.hit]
    · simp [Bcache.entry, Bcache.hit, hd]
  · rename_i hd
    split at hs
    · rename_i d hu
      cases hs
      simp only [hd, hu]
      refine ⟨_, rfl, h.set b
        (fun e => ⟨dev.toNat, blockno.toNat, 1, e.locked, e.waiting + 1, e.leaving⟩)
        rfl rfl (entry_change rfl rfl) ?_ ?_ fun d hd => ?_⟩
      · simp [Hold.isAt, Cache.entry, hnone p b (by simpa using List.find?_some hu)]
      · simp [Bcache.entry, Bcache.recycle]
      · simp [Bcache.entry, Bcache.recycle, hd]
    · cases hs

theorem acquiresleep (hs : c.acquiresleep p b = .ok c') :
    ∃ t, s.acquiresleep b = .ok t ∧ Follows t c' := by
  obtain ⟨⟨hst, hlock⟩, hs⟩ := guard_ok.mp hs
  cases hs
  have hw := h.waiting_pos hst
  have hfree : s.locked b = false := by rw [h.locked, hlock]; rfl
  refine ⟨_, if_pos ⟨hw, hfree⟩, h.set b (fun e => { e with locked := true, waiting := e.waiting - 1 })
    rfl rfl (entry_change rfl rfl) ?_ ?_ fun d hd => ?_⟩
  · obtain ⟨d, k, hh⟩ := Cache.hold_of_stage hst
    simp [hh, Hold.isAt, Cache.entry]
  · simp [Bcache.entry]
    omega
  · simp [Bcache.entry, hd]

theorem brelse (hs : c.brelse p b = .ok c') : ∃ t, s.releasesleep b = .ok t ∧ Follows t c' := by
  obtain ⟨hlock, hs⟩ := unless_ok.mp hs
  obtain ⟨hst, hs⟩ := guard_ok.mp hs
  cases hs
  have hheld : s.locked b = true := by rw [h.locked, not_not.mp hlock]; rfl
  refine ⟨_, if_pos hheld, h.set b (fun e => { e with locked := false, leaving := e.leaving + 1 })
    rfl rfl (entry_change rfl rfl) ?_ ?_ fun d hd => ?_⟩
  · obtain ⟨d, k, hh⟩ := Cache.hold_of_stage hst
    simp [hh, Hold.isAt, Cache.entry]
  · simp [Bcache.entry]
  · simp [Bcache.entry, hd]

theorem unref (hs : c.unref p b = .ok c') : ∃ t, s.unref b = .ok t ∧ Follows t c' := by
  obtain ⟨hst, hs⟩ := guard_ok.mp hs
  obtain ⟨d, k, hh⟩ := Cache.hold_of_stage hst
  have hl := h.leaving_pos hst
  -- the reference counted off, before the list is touched
  have hoff : Follows { s with
      refcnt := update s.refcnt b (s.refcnt b - 1)
      leaving := update s.leaving b (s.leaving b - 1)
      calls := s.calls + 1 }
      ((c.setBuf b fun x => { x with refcnt := x.refcnt - 1 }).setHold p b none) := by
    refine h.set b (fun e => { e with refcnt := e.refcnt - 1, leaving := e.leaving - 1 }) rfl rfl
      (entry_change rfl rfl) ?_ ?_ fun d hd => ?_
    · simp [hh, Hold.isAt, Cache.entry]
    · simp [Bcache.entry]
      omega
    · simp [Bcache.entry, hd]
  have hz := hoff.refcnt b
  unfold Bcache.unref
  rw [if_pos hl]
  simp only at hs ⊢
  rw [← hz] at hs
  split
  · rename_i h0
    rw [if_pos h0] at hs
    cases hs
    exact ⟨_, rfl, Bcache.spells_move h.spells (h.all b), Cache.Clear.mem_front h.all b, hoff.entry⟩
  · rename_i h0
    rw [if_neg h0] at hs
    cases hs
    exact ⟨_, rfl, hoff⟩

theorem bpin (b : Fin NBUF) : Follows (s.bpin b) (c.bpin b) := by
  refine h.set b (fun e => { e with refcnt := e.refcnt + 1 }) rfl rfl (entry_setBuf b) rfl ?_
    fun d hd => ?_
  · simp [Bcache.entry, Bcache.bpin]
  · simp [Bcache.entry, Bcache.bpin, hd]

theorem bunpin (b : Fin NBUF) : Follows (s.bunpin b) (c.bunpin b) := by
  refine h.set b (fun e => { e with refcnt := e.refcnt - 1 }) rfl rfl (entry_setBuf b) rfl ?_
    fun d hd => ?_
  · simp [Bcache.entry, Bcache.bunpin]
  · simp [Bcache.entry, Bcache.bunpin, hd]

theorem same {y : Buf D} {st : Stage} (hlru : c'.lru = c.lru) (hbuf : c'.buf = update c.buf b y)
    (hhold : c'.hold = (c.restage p b st).hold) (hp : Hold.holds (c.hold p b))
    (hst : st.owns = true) (hy : y.dev = (c.buf b).dev ∧ y.blockno = (c.buf b).blockno ∧
      y.refcnt = (c.buf b).refcnt ∧ y.lock = (c.buf b).lock) : Follows s c' := by
  refine h.set b id rfl hlru (entry_change hbuf hhold) ?_ rfl fun _ _ => rfl
  have hx : Hold.holds ((c.hold p b).map fun x => { x with stage := st }) := by
    obtain ⟨x, hx⟩ := Option.isSome_iff_exists.mp hp.isSome
    rw [hx]
    exact hst
  obtain ⟨hd, hk, hr, hl⟩ := hy
  simp [hp.isAt, hx.isAt, hd, hk, hr, hl, Cache.entry]

theorem act {a : CacheAct D} {n : Nat} {pins : List Nat} (hclear : c.Clear n pins)
    (hs : c.act a = .ok c') :
    ∃ t, Run.exec (Shared.step Bcache.act) s a.onList = some t ∧ Follows t c' := by
  have one {x : BcacheAct} (ht : ∃ t, s.act x = .ok t ∧ Follows t c') :
      ∃ t, Run.exec (Shared.step Bcache.act) s [x] = some t ∧ Follows t c' := by
    obtain ⟨t, hx, ht⟩ := ht
    exact ⟨t, by simp [Run.exec, Shared.step, hx], ht⟩
  cases a with
  | bget p dev blockno =>
    obtain ⟨r, hr, rfl⟩ := map_ok.mp hs
    exact one (h.bget (fun q d h0 => (hclear.unused h0).1 q) hr)
  | acquiresleep p b => exact one (h.acquiresleep hs)
  | brelse p b => exact one (h.brelse hs)
  | unref p b => exact one (h.unref hs)
  | bpin b =>
    cases hs
    exact one ⟨_, rfl, h.bpin b⟩
  | bunpin b =>
    cases hs
    exact one ⟨_, rfl, h.bunpin b⟩
  | fill p b =>
    obtain ⟨hst, hs⟩ := guard_ok.mp hs
    have hp : Hold.holds (c.hold p b) := holds_of_stage hst rfl
    cases hs
    refine ⟨s, rfl, ?_⟩
    split
    · exact h.same rfl (update_eq_self b _).symm rfl hp rfl ⟨rfl, rfl, rfl, rfl⟩
    · exact h.same rfl rfl rfl hp rfl ⟨rfl, rfl, rfl, rfl⟩
  | modify p b x =>
    obtain ⟨hr, hs⟩ := guard_ok.mp hs
    cases hs
    exact ⟨s, rfl, h.same rfl rfl rfl (holds_of_reads hr) rfl ⟨rfl, rfl, rfl, rfl⟩⟩
  | bwrite p b =>
    obtain ⟨-, hs⟩ := unless_ok.mp hs
    obtain ⟨hr, hs⟩ := guard_ok.mp hs
    cases hs
    exact ⟨s, rfl, h.same rfl (update_eq_self b _).symm rfl (holds_of_reads hr) rfl
      ⟨rfl, rfl, rfl, rfl⟩⟩

end Follows

theorem Follows.run {as : List (CacheAct D)} (h : Follows s c)
    (hclear : Run.Along (Shared.step Cache.act) (fun c _ => ∃ n pins, Cache.Clear n pins c) c as)
    (hrun : Run.exec (Shared.step Cache.act) c as = some c') :
    ∃ t, Run.exec (Shared.step Bcache.act) s (as.flatMap CacheAct.onList) = some t ∧
      Follows t c' := by
  induction as generalizing s c with
  | nil =>
    cases hrun
    exact ⟨s, rfl, h⟩
  | cons a as ih =>
    obtain ⟨d, hd, hrest⟩ := Run.exec_cons hrun
    obtain ⟨⟨n, pins, ha⟩, has⟩ := hclear
    rw [hd] at has
    obtain ⟨t, ht, hfol⟩ := h.act ha (Shared.step_eq_some.mp hd)
    rw [List.flatMap_cons, Run.exec_append, ht]
    exact ih hfol has hrest

theorem boot_follows [Inhabited D] (L : Links (Option (Fin NBUF))) (disk : Nat → D) :
    Follows (Bcache.boot L) (Cache.boot disk) :=
  ⟨Bcache.binit_spells L, by simp [Cache.boot], by
    funext b
    simp [Bcache.entry, Bcache.boot, Cache.entry, Cache.boot, Hold.isAt]⟩

/-! The view of the log. -/

def Buf.refsTo (x : Buf Block) (k : Nat) : Int :=
  if x.dev ≠ 0 ∧ x.blockno = k then x.refcnt.toNat else 0

structure Shown (c : Cache Block) (A : View) : Prop where
  view : A.view = c.latest
  disk : A.disk = c.disk
  ref : ∀ k, (A.ref k : Int) = ∑ b, (c.buf b).refsTo k

def CacheAct.onView (c : Cache Block) (A : View) : CacheAct Block → View
  | .bget _ _ k => A.hold k.toNat
  | .modify _ b x => A.store (c.buf b).blockno x
  | .bwrite _ b => A.write (c.buf b).blockno
  | .unref _ b | .bunpin b => A.drop (c.buf b).blockno
  | .bpin b => A.hold (c.buf b).blockno
  | .acquiresleep _ _ | .fill _ _ | .brelse _ _ => A

def CacheAct.Proper (n : Nat) (c : Cache Block) : CacheAct Block → Prop
  | .bget _ dev _ => dev.toNat = n ∧ n ≠ 0
  | .bpin b | .bunpin b => (c.buf b).dev ≠ 0 ∧ (c.buf b).refcnt ≠ 0
  | .acquiresleep _ _ | .fill _ _ | .modify _ _ _ | .bwrite _ _ | .brelse _ _ | .unref _ _ => True

theorem Buf.refsTo_succ {x y : Buf Block} {k : Nat} (hx : x.dev ≠ 0 ∧ x.blockno = k)
    (hy : y.dev = x.dev ∧ y.blockno = x.blockno) (hr : y.refcnt.toNat = x.refcnt.toNat + 1) (j : Nat) :
    y.refsTo j = x.refsTo j + if j = k then 1 else 0 := by
  unfold Buf.refsTo
  rw [hy.1, hy.2, hx.2]
  by_cases hj : j = k
  · simp [hx.1, hj, hr]
  · simp [hj, Ne.symm hj]

namespace Shown
variable {c c' : Cache Block} {A B : View} {y : Buf Block} {n k : Nat} {pins : List Nat}
variable (h : Shown c A)
include h

theorem refsTo_le (b : Fin NBUF) (k : Nat) : (c.buf b).refsTo k ≤ A.ref k := by
  rw [h.ref]
  refine Finset.single_le_sum (f := fun b => (c.buf b).refsTo k) (fun b _ => ?_) (Finset.mem_univ b)
  unfold Buf.refsTo
  split <;> omega

theorem clean (hc : c.Clear n pins) : A.Clean := by
  intro k hk
  have hfree : ∀ b, c.Caches b k → (c.buf b).refcnt = 0 := fun b hb => by
    have hle := h.refsTo_le b k
    rw [hk, show (c.buf b).refsTo k = (c.buf b).refcnt.toNat from if_pos hb] at hle
    exact BitVec.eq_of_toNat_eq (by simpa using hle)
  rw [h.view, h.disk]
  rcases hc.clean k with hd | hpin | ⟨p, b, hst, hb⟩
  · exact hd.symm
  · obtain ⟨b, hb, -⟩ := hc.kept k hpin
    exact absurd hb ((hc.unused (hfree b hb)).2 k hpin)
  · obtain ⟨d, j, hh⟩ := Cache.hold_of_stage hst
    rw [(hc.unused (hfree b hb)).1 p] at hh
    cases hh

variable (hbuf : c'.buf = update c.buf b y)
include hbuf

theorem change (hview : B.view = c'.latest) (hdisk : B.disk = c'.disk)
    (href : ∀ k, (B.ref k : Int) = A.ref k - (c.buf b).refsTo k + y.refsTo k) : Shown c' B := by
  refine ⟨hview, hdisk, fun k => ?_⟩
  rw [href, h.ref, hbuf]
  exact (Shared.sum_update c.buf b y fun x => x.refsTo k).symm

theorem still (hy : y.refsTo = (c.buf b).refsTo) (hview : B.view = c'.latest)
    (hdisk : B.disk = c'.disk) (hB : B.ref = A.ref) : Shown c' B :=
  h.change hbuf hview hdisk fun k => by rw [hB, hy, Int.sub_add_cancel]

theorem hold (hview : c'.latest = c.latest) (hdisk : c'.disk = c.disk)
    (hy : ∀ j, y.refsTo j = (c.buf b).refsTo j + if j = k then 1 else 0) : Shown c' (A.hold k) := by
  refine h.change hbuf (hview ▸ h.view) (hdisk ▸ h.disk) fun j => ?_
  rw [hy j]
  by_cases hj : j = k
  · simp [View.hold, hj]
    omega
  · simp [View.hold, hj]

theorem drop (hview : c'.latest = c.latest) (hdisk : c'.disk = c.disk)
    (hy : ∀ j, (c.buf b).refsTo j = y.refsTo j + if j = k then 1 else 0) : Shown c' (A.drop k) := by
  refine h.change hbuf (hview ▸ h.view) (hdisk ▸ h.disk) fun j => ?_
  have hle := h.refsTo_le b j
  rw [hy j] at hle ⊢
  by_cases hj : j = k
  · have hnn : 0 ≤ y.refsTo k := by
      unfold Buf.refsTo
      split <;> omega
    simp only [View.drop, hj, update_self, if_true] at hle ⊢
    omega
  · simp [View.drop, hj]

end Shown

theorem Shown.act {c c' : Cache Block} {A : View} {n : Nat} {pins : List Nat} {a : CacheAct Block}
    (h : Shown c A) (hc : c.Clear n pins) (ha : a.Proper n c) (hs : c.act a = .ok c') :
    Shown c' (a.onView c A) := by
  have asked {p : Fin NPROC} {b : Fin NBUF} {st : Stage} (hst : c.stage p b = some st) :
      c.Caches b (c.buf b).blockno := by
    obtain ⟨d, k, hh⟩ := Cache.hold_of_stage hst
    exact ⟨(hc.asked p b _ hh).2.1, rfl⟩
  have pred {b : Fin NBUF} (h0 : (c.buf b).refcnt ≠ 0) :
      (c.buf b).refcnt.toNat = ((c.buf b).refcnt - 1).toNat + 1 := by
    have hpos : 1 ≤ (c.buf b).refcnt.toNat :=
      Nat.one_le_iff_ne_zero.mpr fun hz => h0 (BitVec.eq_of_toNat_eq hz)
    rw [Cache.Clear.pred_toNat hpos, Nat.sub_add_cancel hpos]
  cases a with
  | bget p dev k =>
    obtain ⟨r, hr, rfl⟩ := map_ok.mp hs
    obtain ⟨hdev, hn0⟩ := ha
    unfold Cache.bget at hr
    split at hr
    · rename_i b hb
      obtain ⟨-, hr⟩ := unless_ok.mp hr
      cases hr
      have hfound : (c.buf b).dev = dev.toNat ∧ (c.buf b).blockno = k.toNat := by
        simpa using List.find?_some hb
      exact h.hold rfl rfl rfl (Buf.refsTo_succ ⟨by rw [hfound.1, hdev]; exact hn0, hfound.2⟩
        ⟨rfl, rfl⟩ (hc.succ_toNat b))
    · split at hr
      · rename_i b hu
        cases hr
        have hfree : (c.buf b).refcnt = 0 := by simpa using List.find?_some hu
        exact h.hold rfl rfl rfl fun j => by simp [Buf.refsTo, hfree, hdev, hn0, eq_comm]
      · cases hr
  | acquiresleep p b =>
    obtain ⟨-, hs⟩ := guard_ok.mp hs
    cases hs
    exact h.still rfl rfl h.view h.disk rfl
  | fill p b =>
    obtain ⟨-, hs⟩ := guard_ok.mp hs
    cases hs
    split
    · exact h.still (update_eq_self b _).symm rfl h.view h.disk rfl
    · exact h.still rfl rfl h.view h.disk rfl
  | modify p b x =>
    obtain ⟨-, hs⟩ := guard_ok.mp hs
    cases hs
    refine h.still rfl rfl ?_ h.disk rfl
    exact congrArg (update · _ x) h.view
  | bwrite p b =>
    obtain ⟨-, hs⟩ := unless_ok.mp hs
    obtain ⟨hr, hs⟩ := guard_ok.mp hs
    have hv : (c.buf b).valid = true := hc.valid p b (by rcases hr with hr | hr <;> rw [hr] <;> rfl)
    cases hs
    refine h.still (update_eq_self b _).symm rfl h.view ?_ rfl
    change update A.disk _ (A.view _) = update c.disk _ _
    rw [h.disk, h.view, hc.data b _ (hr.elim asked asked) hv]
  | brelse p b =>
    obtain ⟨-, hs⟩ := unless_ok.mp hs
    obtain ⟨-, hs⟩ := guard_ok.mp hs
    cases hs
    exact h.still rfl rfl h.view h.disk rfl
  | unref p b =>
    obtain ⟨hst, hs⟩ := guard_ok.mp hs
    have hpos : (c.buf b).refcnt ≠ 0 := fun h0 => by
      obtain ⟨d, k, hh⟩ := Cache.hold_of_stage hst
      rw [(hc.unused h0).1 p] at hh
      cases hh
    have hy := Buf.refsTo_succ (x := { c.buf b with refcnt := (c.buf b).refcnt - 1 }) (y := c.buf b)
      (asked hst) ⟨rfl, rfl⟩ (pred hpos)
    cases hs
    change Shown (if _ then _ else _) _
    split
    · exact h.drop rfl rfl rfl hy
    · exact h.drop rfl rfl rfl hy
  | bpin b =>
    cases hs
    exact h.hold rfl rfl rfl (Buf.refsTo_succ ⟨ha.1, rfl⟩ ⟨rfl, rfl⟩ (hc.succ_toNat b))
  | bunpin b =>
    cases hs
    exact h.drop rfl rfl rfl (Buf.refsTo_succ ⟨ha.1, rfl⟩ ⟨rfl, rfl⟩ (pred ha.2))

end Xv6Audit.Bio
