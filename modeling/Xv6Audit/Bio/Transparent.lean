import Xv6Audit.Bio.Logged

/-! The buffer cache hides the disk: in every interleaving a block that was read holds what was
last put into it, and a logged block stays in memory until it is installed. -/
namespace Xv6Audit.Bio
open Function

def Body.copies : Body → Nat
  | .copied _ _ | .written _ _ | .last _ => 1
  | .top | .one _ | .two _ _ | .unpinned _ _ | .rest _ => 0

def Body.frees : Body → Nat
  | .unpinned _ _ | .last _ => 1
  | .top | .one _ | .two _ _ | .copied _ _ | .written _ _ | .rest _ => 0

namespace Store
open Disk Log Cache

def Has (s : Store) (p : Fin NPROC) (b : Fin NBUF) (st : Stage) (k : Nat) : Prop :=
  s.cache.hold p b = some ⟨st, s.dev, k⟩

def Gets (s : Store) (p : Fin NPROC) (b : Fin NBUF) (k : Nat) : Prop :=
  s.Has p b .wait k ∨ s.Has p b .locked k ∨ s.Has p b .ready k

def Loop (s : Store) (p : Fin NPROC) (k k' : Nat) (install : Bool) : Body → Prop
  | .top => True
  | .one b => s.Gets p b k
  | .two b b' => s.Has p b .ready k ∧ s.Gets p b' k'
  | .copied b b' => s.Has p b (if install then .ready else .dirty) k ∧ s.Has p b' .ready k'
  | .written b b' => s.Has p b .ready k ∧ s.Has p b' .ready k' ∧
    (install = true → s.cache.disk k' = s.cache.latest k')
  | .unpinned b b' => install = true ∧ s.Has p b .ready k ∧ s.Has p b' .ready k'
  | .last b => s.Has p b .ready (if install then k' else k)
  | .rest _ => False

def Head (s : Store) (p : Fin NPROC) (k : Nat) : Body → Prop
  | .top => True
  | .one b => s.Gets p b k
  | .copied b _ => s.Has p b .dirty k
  | .two _ _ | .written _ _ | .unpinned _ _ | .last _ | .rest _ => False

def Rest (s : Store) (p : Fin NPROC) (k : Nat) : Body → Prop
  | .rest b => s.Has p b .ready k
  | .top | .one _ | .two _ _ | .copied _ _ | .written _ _ | .unpinned _ _ | .last _ => False

def Place (s : Store) (p : Fin NPROC) : CommitAt → Prop
  | .enter => s.body = .top ∧ s.made = 0 ∧ s.installed = 0
  | .writeLog t => s.installed = 0 ∧ s.made = t + s.body.copies ∧ t ≤ s.log.lh.n ∧
    (s.body ≠ .top → t < s.log.lh.n) ∧ s.Loop p (s.start + t + 1) (s.log.lh.block t) false s.body
  | .writeHead => s.installed = 0 ∧ s.made = s.log.lh.n ∧ s.Head p s.start s.body
  | .install t => s.made = s.log.lh.n ∧ s.installed = t + s.body.frees ∧ t ≤ s.log.lh.n ∧
    (s.Rest p s.start s.body ∨ (s.body ≠ .top → t < s.log.lh.n) ∧
      s.Loop p (s.start + t + 1) (s.log.lh.block t) true s.body)
  | .clear => s.body = .top ∧ s.made = s.log.lh.n ∧ s.installed = s.log.lh.n
  | .eraseHead => s.installed = 0 ∧ s.made = 0 ∧ s.Head p s.start s.body
  | .leave => s.installed = 0 ∧ s.made = 0 ∧ (s.body = .top ∨ s.Rest p s.start s.body)

/-- The log holds a copy of what was last put into the `i`-th logged block, unless a process
is at it right now. -/
def Copied (s : Store) (i : Nat) : Prop :=
  s.cache.latest (s.start + i + 1) = s.cache.latest (s.log.lh.block i) ∨
    s.cache.Dirty (s.log.lh.block i)

structure Whole (s : Store) : Prop where
  dev : s.dev ≠ 0
  clear : s.cache.Clear s.dev s.pins
  orderly : s.log.Orderly
  area : ∀ k ∈ s.log.lh.blocks, ¬ s.InArea k
  room : 0 < s.log.lh.n → (s.log.lh.n : Int) ≤ s.log.size - 1
  idle : (∀ p c, s.log.place p ≠ .commit c) → s.body = .top ∧ s.made = 0 ∧ s.installed = 0
  place : ∀ p c, s.log.place p = .commit c → s.Place p c
  copied : ∀ i, s.installed ≤ i → i < s.made → i < s.log.lh.n → s.Copied i

structure Keeps (s s' : Store) : Prop where
  whole : s'.Whole
  cached : ∀ b k, k ∈ s.pins → s.cache.Caches b k → s'.cache.Caches b k
  home : ∀ k ∈ s.pins, ¬ s.Committed → s'.cache.disk k = s.cache.disk k

section Whole
variable {s s' : Store} {p : Fin NPROC} {b : Fin NBUF} {k k' t : Nat}

theorem mem_blocks {lh : LogHeader} : k ∈ lh.blocks ↔ ∃ i, i < lh.n ∧ lh.block i = k := by
  simp [LogHeader.blocks]

theorem mem_pins : k ∈ s.pins ↔ ∃ i, s.installed ≤ i ∧ i < s.log.lh.n ∧ s.log.lh.block i = k := by
  unfold pins LogHeader.blocks
  rw [← List.map_drop, List.range_eq_range', List.drop_range']
  simp only [List.mem_map, List.mem_range'_1]
  constructor
  · rintro ⟨i, hi, rfl⟩
    exact ⟨i, by omega, by omega, rfl⟩
  · rintro ⟨i, h1, h2, rfl⟩
    exact ⟨i, by omega, rfl⟩

structure Leaves (p : Fin NPROC) (s s' : Store) : Prop where
  ready : ∀ b k, s.Has p b .ready k → s'.Has p b .ready k
  dirty : ∀ b k, s.Has p b .dirty k → s'.Has p b .dirty k
  gets : ∀ b k, s.Gets p b k → s'.Gets p b k
  disk : ∀ b k, s.Has p b .ready k → s.cache.disk k = s.cache.latest k →
    s'.cache.disk k = s'.cache.latest k

variable {body : Body} {c : CommitAt} {x : Cache Block}

theorem Leaves.of_same (hsame : ∀ b st k, s.Has p b st k → s'.Has p b st k)
    (hdisk : ∀ b k, s.Has p b .ready k → s.cache.disk k = s.cache.latest k →
      s'.cache.disk k = s'.cache.latest k) : Leaves p s s' :=
  ⟨fun b k => hsame b _ k, fun b k => hsame b _ k,
    fun b k hb => hb.imp (hsame b _ k) (Or.imp (hsame b _ k) (hsame b _ k)), hdisk⟩

theorem Leaves.loop {install : Bool} (hl : Leaves p s s') (h : s.Loop p k k' install body) :
    s'.Loop p k k' install body := by
  cases body with
  | top => exact h
  | one b => exact hl.gets b _ h
  | two b b' => exact ⟨hl.ready b _ h.1, hl.gets b' _ h.2⟩
  | copied b b' =>
    cases install with
    | true => exact ⟨hl.ready b _ h.1, hl.ready b' _ h.2⟩
    | false => exact ⟨hl.dirty b _ h.1, hl.ready b' _ h.2⟩
  | written b b' =>
    exact ⟨hl.ready b _ h.1, hl.ready b' _ h.2.1, fun hi => hl.disk b' _ h.2.1 (h.2.2 hi)⟩
  | unpinned b b' => exact ⟨h.1, hl.ready b _ h.2.1, hl.ready b' _ h.2.2⟩
  | last b => exact hl.ready b _ h
  | rest b => exact h

theorem Leaves.head (hl : Leaves p s s') (h : s.Head p k body) :
    s'.Head p k body := by
  cases body with
  | top => exact h
  | one b => exact hl.gets b _ h
  | copied b b' => exact hl.dirty b _ h
  | two | written | unpinned | last | rest => exact h

theorem Leaves.rest (hl : Leaves p s s') (h : s.Rest p k body) :
    s'.Rest p k body := by
  cases body with
  | rest b => exact hl.ready b _ h
  | top | one | two | copied | written | unpinned | last => exact h

theorem Leaves.place (hl : Leaves p s { s with cache := x }) (h : s.Place p c) :
    Place { s with cache := x } p c := by
  cases c with
  | enter => exact h
  | writeLog t => exact ⟨h.1, h.2.1, h.2.2.1, h.2.2.2.1, hl.loop h.2.2.2.2⟩
  | writeHead => exact ⟨h.1, h.2.1, hl.head h.2.2⟩
  | install t =>
    exact ⟨h.1, h.2.1, h.2.2.1, h.2.2.2.imp hl.rest fun hb => ⟨hb.1, hl.loop hb.2⟩⟩
  | clear => exact h
  | eraseHead => exact ⟨h.1, h.2.1, hl.head h.2.2⟩
  | leave => exact ⟨h.1, h.2.1, h.2.2.imp_right hl.rest⟩

namespace Whole

theorem inCache (h : Whole s) (hclear : x.Clear s.dev s.pins)
    (hleaves : ∀ q c, s.log.place q = .commit c → Leaves q s { s with cache := x })
    (hcopied : ∀ i, s.installed ≤ i → i < s.made → i < s.log.lh.n → s.Copied i →
      Copied { s with cache := x } i) : Whole { s with cache := x } :=
  ⟨h.dev, hclear, h.orderly, h.area, h.room, h.idle,
    fun q c hq => (hleaves q c hq).place (h.place q c hq),
    fun i h1 h2 h3 => hcopied i h1 h2 h3 (h.copied i h1 h2 h3)⟩

variable {st : Stage} {i : Nat} {l : Logger NPROC}

theorem has_eq {st' : Stage} {d : Nat} (hh : s.Has p b st k)
    (hold : s.cache.hold p b = some ⟨st', d, k'⟩) : st' = st ∧ d = s.dev ∧ k' = k := by
  simpa only [Option.some.injEq, Hold.mk.injEq] using hold.symm.trans hh

theorem gets_eq {st' : Stage} {d : Nat} (hg : s.Gets p b k)
    (hold : s.cache.hold p b = some ⟨st', d, k'⟩) : d = s.dev ∧ k' = k := by
  rcases hg with hg | hg | hg <;> exact (has_eq hg hold).2

theorem apart (h : Whole s) {q : Fin NPROC} {c : Fin NBUF} {st' : Stage} {d d' : Nat}
    (hp : s.cache.hold p b = some ⟨st, d, k⟩) (hq : s.cache.hold q c = some ⟨st', d', k'⟩)
    (hst : st.owns = true) (hst' : st'.owns = true) (hne : q ≠ p) : k' ≠ k := by
  rintro rfl
  have hcb := h.clear.uniq b c k' (h.clear.asked p b _ hp).2 (h.clear.asked q c _ hq).2
  subst hcb
  have hlp := (h.clear.lock p b).mpr (by simp [stage, hp, hst])
  have hlq := (h.clear.lock q b).mpr (by simp [stage, hq, hst'])
  exact hne (Option.some.inj (hlq.symm.trans hlp))

theorem leaves_other {q : Fin NPROC} (hne : q ≠ p) (ht : Touch p b s.cache x)
    (hdisk : ∀ c k, s.Has q c .ready k → s.cache.disk k = s.cache.latest k → x.disk k = x.latest k)
    : Leaves q s { s with cache := x } :=
  .of_same (fun c _ _ hc => (ht.hold q c (.inl hne)).trans hc) hdisk

theorem dirty_kept (h : Whole s) (ht : Touch p b s.cache x)
    (hd : s.cache.stage p b = some .dirty → s.cache.Caches b k → x.stage p b = some .dirty)
    (hk : s.cache.Dirty k) : x.Dirty k := by
  obtain ⟨q, c, hq, hc⟩ := hk
  have hcach : x.Caches c k := by
    refine (ht.ident c k hc).resolve_right fun h0 => ?_
    obtain ⟨d, j, hh⟩ := hold_of_stage hq
    rw [(h.clear.unused h0).1 q] at hh
    cases hh
  by_cases hpb : q = p ∧ c = b
  · obtain ⟨rfl, rfl⟩ := hpb
    exact ⟨q, c, hd hq hc, hcach⟩
  · refine ⟨q, c, ?_, hcach⟩
    rw [stage, ht.hold q c (by tauto)]
    exact hq

theorem keeps_touch (h : Whole s) (ht : Touch p b s.cache x) (hcache : s'.cache = x)
    (hdisk : ∀ k ∈ s.pins, ¬ s.Committed → x.disk k = s.cache.disk k) (h' : Whole s') :
    Keeps s s' := by
  refine ⟨h', fun c k hk hc => ?_, fun k hk hn => hcache ▸ hdisk k hk hn⟩
  rw [hcache]
  refine (ht.ident c k hc).resolve_right fun h0 => ?_
  exact (h.clear.unused h0).2 k hk hc

theorem quiet (h : Whole s) (hclear : x.Clear s.dev s.pins) (ht : Touch p b s.cache x)
    (hdisk : x.disk = s.cache.disk) (hlatest : x.latest = s.cache.latest)
    (hnd : s.cache.stage p b ≠ some .dirty)
    (hmine : ∀ c, s.log.place p = .commit c → Leaves p s { s with cache := x }) :
    Keeps s { s with cache := x } := by
  refine h.keeps_touch ht rfl (fun k _ _ => by rw [hdisk])
    (h.inCache hclear (fun q c hq => ?_) fun i _ _ _ hi => ?_)
  · by_cases hqp : q = p
    · subst hqp
      exact hmine c hq
    · refine leaves_other hqp ht fun c k _ hk => ?_
      rw [hdisk, hlatest]
      exact hk
  · refine hi.imp (fun he => ?_) (h.dirty_kept ht fun hd => absurd hd hnd)
    change x.latest _ = x.latest _
    rw [hlatest]
    exact he

theorem leaves_own (ht : Touch p b s.cache x) (hdisk : x.disk = s.cache.disk)
    (hlatest : x.latest = s.cache.latest) {d : Nat} (hold : s.cache.hold p b = some ⟨st, d, k⟩)
    (hst : st.reads = false) (hgets : ∀ k, s.Gets p b k → Gets { s with cache := x } p b k) :
    Leaves p s { s with cache := x } := by
  have hsame : ∀ c st' k', c ≠ b → s.Has p c st' k' → Has { s with cache := x } p c st' k' :=
    fun c st' k' hc hh => (ht.hold p c (.inr hc)).trans hh
  have hnot : ∀ st' k', st'.reads = true → ¬ s.Has p b st' k' := fun st' k' hr hh => by
    rw [(has_eq hh hold).1, hr] at hst
    cases hst
  refine ⟨fun c k' hc => ?_, fun c k' hc => ?_, fun c k' hc => ?_, fun c k' _ hk => ?_⟩
  · refine hsame c _ k' (fun hcb => ?_) hc
    exact hnot .ready k' rfl (hcb ▸ hc)
  · refine hsame c _ k' (fun hcb => ?_) hc
    exact hnot .dirty k' rfl (hcb ▸ hc)
  · by_cases hcb : c = b
    · subst hcb
      exact hgets k' hc
    · exact hc.imp (hsame c _ k' hcb) (Or.imp (hsame c _ k' hcb) (hsame c _ k' hcb))
  · change x.disk k' = x.latest k'
    rw [hdisk, hlatest]
    exact hk

section
variable (h : Whole s)
include h

theorem acquiresleep (hx : s.cache.acquiresleep p b = .ok x) :
    Keeps s { s with cache := x } := by
  obtain ⟨ht, hdisk, hlatest, d, k, hh, hh'⟩ := acquiresleep_spec hx
  refine h.quiet (h.clear.acquiresleep hx) ht hdisk hlatest (by simp [stage, hh]) fun c _ => ?_
  refine leaves_own ht hdisk hlatest hh rfl fun j hj => ?_
  have he := gets_eq hj hh
  exact .inr (.inl (by rw [← he.2]; exact he.1 ▸ hh'))

theorem fill (hx : s.cache.fill p b = .ok x) :
    Keeps s { s with cache := x } := by
  obtain ⟨ht, hdisk, hlatest, d, k, hh, hh'⟩ := fill_spec hx
  refine h.quiet (h.clear.fill hx) ht hdisk hlatest (by simp [stage, hh]) fun c _ => ?_
  refine leaves_own ht hdisk hlatest hh rfl fun j hj => ?_
  have he := gets_eq hj hh
  exact .inr (.inr (by rw [← he.2]; exact he.1 ▸ hh'))

theorem unref (hx : s.cache.unref p b = .ok x) :
    Keeps s { s with cache := x } := by
  obtain ⟨ht, hdisk, hlatest, d, k, hh, hh'⟩ := unref_spec hx
  refine h.quiet (h.clear.unref hx) ht hdisk hlatest (by simp [stage, hh]) fun c _ => ?_
  refine leaves_own ht hdisk hlatest hh rfl fun j hj => ?_
  rcases hj with hj | hj | hj <;> have := hh.symm.trans hj <;> simp_all

theorem brelse (hp : ∀ c, s.log.place p ≠ .commit c) (hx : s.cache.brelse p b = .ok x) :
    Keeps s { s with cache := x } := by
  obtain ⟨ht, hdisk, hlatest, d, k, hh, -⟩ := brelse_spec hx
  exact h.quiet (h.clear.brelse hx) ht hdisk hlatest (by simp [stage, hh]) fun c hc =>
    absurd hc (hp c)

theorem bget (hp : ∀ c, s.log.place p ≠ .commit c) (hx : s.cache.bget p s.dev k = .ok (b, x)) :
    Keeps s { s with cache := x } := by
  obtain ⟨ht, hn, -, hdisk, hlatest⟩ := bget_spec h.clear hx
  exact h.quiet (h.clear.bget h.dev hx) ht hdisk hlatest (by simp [stage, hn]) fun c hc =>
    absurd hc (hp c)

theorem inArea_log (hi : i < s.log.lh.n) : s.InArea (s.start + i + 1) := by
  have := h.room (by omega)
  exact ⟨by omega, by omega⟩

theorem modify {y : Block} (hp : ∀ c, s.log.place p ≠ .commit c)
    (ha : ¬ s.InArea (s.cache.buf b).blockno) (hx : s.cache.modify p b y = .ok x) :
    Keeps s { s with cache := x } := by
  obtain ⟨ht, hdisk, hlatest, st, d, k, hst, hh, hh'⟩ := modify_spec hx
  have hask := h.clear.asked p b _ hh
  have hk : (s.cache.buf b).blockno = k := hask.2.2
  have hown : st.owns = true := by
    simpa [stage, hh] using reads_owns (x := some st) (by simpa using hst)
  rw [hk] at ha hlatest
  refine h.keeps_touch ht rfl (fun k _ _ => by rw [hdisk])
    (h.inCache (h.clear.modify hx) (fun q c hq => ?_) fun i _ _ hi hcop => ?_)
  · have hqp : q ≠ p := fun he => hp c (he ▸ hq)
    refine leaves_other hqp ht fun c j hc hj => ?_
    rw [hdisk, hlatest, update_of_ne (h.apart hh hc hown rfl hqp)]
    exact hj
  · by_cases hik : s.log.lh.block i = k
    · refine .inr ⟨p, b, by simp [stage, hh'], ?_⟩
      exact hik ▸ (ht.ident b k hask.2).resolve_right fun h0 => by
        have := (h.clear.unused h0).1 p
        simp [hh] at this
    · refine hcop.imp (fun he => ?_) (h.dirty_kept ht fun _ hc => by simp [stage, hh'])
      change x.latest _ = x.latest _
      rw [hlatest, update_of_ne hik, update_of_ne]
      · exact he
      · rintro rfl
        exact ha (h.inArea_log hi)

theorem bwrite (hp : ∀ c, s.log.place p ≠ .commit c) (ha : (s.cache.buf b).blockno ∉ s.pins)
    (hx : s.cache.bwrite p b = .ok x) :
    Keeps s { s with cache := x } := by
  obtain ⟨ht, hdisk, hlatest, hbuf, st, d, k, hst, hh, hh'⟩ := bwrite_spec hx
  have hask := h.clear.asked p b _ hh
  have hk : (s.cache.buf b).blockno = k := hask.2.2
  have hown : st.owns = true := by
    simpa [stage, hh] using reads_owns (x := some st) (by simpa using hst)
  rw [hk] at ha hdisk
  refine h.keeps_touch ht rfl (fun j hj _ => ?_)
    (h.inCache (h.clear.bwrite hx) (fun q c hq => ?_) fun i h1 _ hi hcop => ?_)
  · rw [hdisk, update_of_ne]
    rintro rfl
    exact ha hj
  · have hqp : q ≠ p := fun he => hp c (he ▸ hq)
    refine leaves_other hqp ht fun c j hc hj => ?_
    rw [hdisk, hlatest, update_of_ne (h.apart hh hc hown rfl hqp)]
    exact hj
  · refine hcop.imp (fun he => ?_) (h.dirty_kept ht fun _ hc => ?_)
    · change x.latest _ = x.latest _
      rw [hlatest]
      exact he
    · exact absurd (mem_pins.mpr ⟨i, h1, hi, hc.2.symm.trans hk⟩) ha

theorem inLog (ho : l.Orderly) (hlh : l.lh = s.log.lh) (hsize : l.size = s.log.size)
    (hback : ∀ q c, l.place q = .commit c → s.log.place q = .commit c ∨
      c = .enter ∧ ∀ r d, s.log.place r ≠ .commit d)
    (hkeep : ∀ q c, s.log.place q = .commit c → l.place q = .commit c) :
    Keeps s { s with log := l } := by
  obtain ⟨dev, start, cache, log, body, made, installed⟩ := s
  obtain ⟨size, outstanding, committing, lh, place, op, begun, notes, headers⟩ := l
  dsimp only at hlh hsize hback hkeep
  subst hlh hsize
  refine ⟨⟨h.dev, h.clear, ho, h.area, h.room, fun hn => ?_, fun q c hq => ?_, h.copied⟩,
    fun b k _ hc => hc, fun _ _ _ => rfl⟩
  · exact h.idle fun r d hr => hn r d (hkeep r d hr)
  · rcases hback q c hq with hq | ⟨rfl, hn⟩
    · exact h.place q c hq
    · exact h.idle hn

theorem no_commit (hc : s.log.committing = false) (q : Fin NPROC) (c : CommitAt) :
    s.log.place q ≠ .commit c := by
  intro hq
  rw [(h.orderly.alone q c hq).1] at hc
  cases hc

theorem not_committing (hp : s.log.place p = .inside) : s.log.committing = false := by
  cases hc : s.log.committing with
  | false => rfl
  | true => exact absurd hp (h.orderly.nobody (h.orderly.quiet hc) p)

end

theorem wakeup_commit (q : Fin NPROC) (c : CommitAt) :
    l.wakeup.place q = .commit c ↔ l.place q = .commit c := by
  simp only [Logger.wakeup]
  split
  · rename_i hq
    simp [hq]
  · rfl

theorem move_commit {x : Log.Place} (hp : ∀ c, l.place p ≠ .commit c) (hx : ∀ c, x ≠ .commit c)
    (q : Fin NPROC) (c : CommitAt) :
    (l.move p x).place q = .commit c ↔ l.place q = .commit c := by
  by_cases hq : q = p
  · subst hq
    simp [Logger.move, hp, hx]
  · simp [Logger.move, hq]

theorem moved {y : Log.Place} (h : Whole s) (ho : l.Orderly) (hlh : l.lh = s.log.lh)
    (hsize : l.size = s.log.size) (hp : ∀ c, s.log.place p ≠ .commit c) (hy : ∀ c, y ≠ .commit c)
    (hl : l.place = (s.log.move p y).place) : Keeps s { s with log := l } :=
  h.inLog ho hlh hsize (fun q c hq => .inl ((move_commit hp hy q c).mp (hl ▸ hq)))
    fun q c hq => hl ▸ (move_commit hp hy q c).mpr hq

theorem beginOp (h : Whole s) (hl : s.log.act (.beginOp p) = .ok l) :
    Keeps s { s with log := l } := by
  have ho := h.orderly.act hl
  obtain ⟨hp, hl⟩ := guard_ok.mp hl
  have hnc : ∀ c, s.log.place p ≠ .commit c := by
    rcases hp with hp | hp <;> simp [hp]
  cases hl
  unfold Logger.beginOp at ho ⊢
  split at ho
  · rename_i hc
    rw [if_pos hc]
    exact h.moved ho rfl rfl hnc (by simp) rfl
  · rename_i hc
    rw [if_neg hc]
    split at ho
    · rename_i hr
      rw [if_pos hr]
      exact h.moved ho rfl rfl hnc (by simp) rfl
    · rename_i hr
      rw [if_neg hr]
      exact h.moved ho rfl rfl hnc (by simp) rfl

theorem endOp (h : Whole s) (hl : s.log.act (.endOp p) = .ok l) :
    Keeps s { s with log := l } := by
  have ho := h.orderly.act hl
  obtain ⟨hp, hl⟩ := guard_ok.mp hl
  have hnone := h.no_commit (h.not_committing hp)
  obtain ⟨-, hl⟩ := unless_ok.mp hl
  split at hl
  · cases hl
    refine h.inLog ho rfl rfl (fun q c hq => .inr ⟨?_, hnone⟩) fun q c hq => absurd hq (hnone q c)
    by_cases hqp : q = p
    · subst hqp
      simpa [Logger.move, eq_comm] using hq
    · exact absurd (by simpa [Logger.move, hqp] using hq) (hnone q c)
  · cases hl
    refine h.inLog ho rfl rfl (fun q c hq => ?_) fun q c hq => absurd hq (hnone q c)
    rw [wakeup_commit] at hq
    exact .inl ((move_commit (hnone p) (by simp) q c).mp hq)

theorem kill (h : Whole s) (hl : s.log.act (.kill p) = .ok l) :
    Keeps s { s with log := l } := by
  have ho := h.orderly.act hl
  obtain ⟨hp, hl⟩ := guard_ok.mp hl
  cases hl
  have hnc : ∀ c, s.log.place p ≠ .commit c := by simp [hp]
  exact h.moved ho rfl rfl hnc (by simp) rfl

theorem logWrite_spec (hl : s.log.logWrite p k = .ok l) :
    l.size = s.log.size ∧ (l.lh.n : Int) ≤ l.size - 1 ∧
      (l.lh.n = s.log.lh.n ∧ k ∈ s.log.lh.blocks ∧ l.lh.blocks = s.log.lh.blocks ∨
        l.lh.n = s.log.lh.n + 1 ∧ k ∉ s.log.lh.blocks ∧
          l.lh.blocks = s.log.lh.blocks ++ [k]) := by
  obtain ⟨hroom, hl⟩ := unless_ok.mp hl
  rw [not_or] at hroom
  split at hl
  · cases hl
  cases hl
  rcases Logger.blocks_absorb s.log.lh k with ⟨i, hi, hne, hk, heq⟩ | ⟨hi, hk, heq⟩
  · simp only [hi, if_neg hne]
    exact ⟨trivial, by omega, .inl ⟨trivial, hk, heq⟩⟩
  · simp only [hi, if_true]
    exact ⟨trivial, by omega, .inr ⟨trivial, hk, heq⟩⟩

theorem logWrite (h : Whole s) (ha : ¬ s.InArea (s.cache.buf b).blockno)
    (hs : s.logWrite p b = .ok s') : Keeps s s' := by
  obtain ⟨hr, hs⟩ := guard_ok.mp hs
  obtain ⟨st, d, k, hh, -, hst⟩ := Clear.hold_of_reads hr
  have hask := h.clear.asked p b _ hh
  have hk : (s.cache.buf b).blockno = k := hask.2.2
  have hv : (s.cache.buf b).valid = true := h.clear.valid p b (by simp [stage, hh, hst])
  rw [hk] at ha hs
  obtain ⟨l, hl, rfl⟩ := map_ok.mp hs
  have ho := h.orderly.act hl
  obtain ⟨hp, hl⟩ := guard_ok.mp hl
  have hplace := (h.orderly.logWrite hp hl).2
  have hnone := h.no_commit (h.not_committing hp)
  obtain ⟨hbody, hmade, hinst⟩ := h.idle hnone
  have hclear := h.clear
  rw [show s.pins = s.log.lh.blocks by simp [pins, hinst]] at hclear
  obtain ⟨hsize, hroom, hcases⟩ := logWrite_spec hl
  have hpins : ∀ x, pins { s with log := l, cache := x } = l.lh.blocks := fun x => by
    simp [pins, hinst]
  have hmem : k ∈ l.lh.blocks := by
    rcases hcases with ⟨-, hk, heq⟩ | ⟨-, -, heq⟩
    · exact heq ▸ hk
    · simp [heq]
  -- everything but the cache is the same in both cases
  have key : ∀ x : Cache Block, x.Clear s.dev l.lh.blocks →
      (∀ c j, s.cache.Caches c j → x.Caches c j) → x.disk = s.cache.disk →
      Keeps s { s with log := l, cache := x } := by
    intro x hx hcach hdisk
    refine ⟨⟨h.dev, (hpins x).symm ▸ hx, ho, fun j hj => ?_, fun _ => hroom, fun _ => ?_,
      fun q c hq => ?_, fun i _ hi => ?_⟩, fun c j _ hc => hcach c j hc, fun j _ _ => ?_⟩
    · unfold InArea
      change ¬ (s.start ≤ j ∧ (j : Int) < s.start + l.size)
      rw [hsize]
      rcases hcases with ⟨-, -, heq⟩ | ⟨-, -, heq⟩
      · exact h.area j (heq ▸ hj)
      · have hj : j ∈ l.lh.blocks := hj
        rw [heq, List.mem_append, List.mem_singleton] at hj
        rcases hj with hj | rfl
        · exact h.area j hj
        · exact ha
    · exact ⟨hbody, hmade, hinst⟩
    · have hq : l.place q = .commit c := hq
      rw [hplace] at hq
      exact absurd hq (hnone q c)
    · have hi : i < s.made := hi
      omega
    · change x.disk j = _
      rw [hdisk]
  rcases hcases with ⟨hn, hin, heq⟩ | ⟨hn, hin, heq⟩
  · rw [if_pos hn]
    exact key _ (heq ▸ hclear.settle hh hst hin) (fun _ _ hc => hc) rfl
  · rw [if_neg (by omega)]
    have hblocks : ∀ j, j ∈ l.lh.blocks ↔ j ∈ s.log.lh.blocks ∨ j = k :=
      fun j => by simp [heq]
    have hpin := hclear.bpin hask.2 hv hin hblocks
    exact key _ (hpin.settle hh hst hmem) (fun c j hc => caches_bpin.mpr hc) rfl

/-! `commit()`. -/

structure Next (s : Store) (p : Fin NPROC) (c : CommitAt) (l : Logger NPROC) : Prop where
  orderly : l.Orderly
  lh : l.lh = s.log.lh
  size : l.size = s.log.size
  here : l.place p = .commit c

theorem stays (h : Whole s) (hp : s.log.place p = .commit c) : Next s p c s.log :=
  ⟨h.orderly, rfl, rfl, hp⟩

theorem steps {c' : CommitAt} (h : Whole s) (hp : s.log.place p = .commit c)
    (hlh : (s.log.commitStep p c).lh = s.log.lh) (hsize : (s.log.commitStep p c).size = s.log.size)
    (hnext : (s.log.commitStep p c).place p = .commit c') :
    Next s p c' (s.log.commitStep p c) :=
  ⟨h.orderly.commitStep hp, hlh, hsize, hnext⟩

theorem mine (h : Whole s) (hl : Next s p c l) {m : Nat}
    (hclear : x.Clear s.dev (s.log.lh.blocks.drop i))
    (hplace : Store.Place { s with cache := x, body := body, made := m, installed := i } p c)
    (hcopied : ∀ j, i ≤ j → j < m → j < s.log.lh.n →
      Copied { s with cache := x, body := body, made := m, installed := i } j) :
    Whole { s with cache := x, log := l, body := body, made := m, installed := i } := by
  obtain ⟨ho, hlh, hsize, hhere⟩ := hl
  have hmine : ∀ q d, l.place q = .commit d → q = p ∧ d = c := by
    intro q d hq
    have hqp := (ho.alone p c hhere).2 q d hq
    subst hqp
    exact ⟨rfl, by simpa using hq.symm.trans hhere⟩
  obtain ⟨dev, start, cache, log, body', made, installed⟩ := s
  obtain ⟨size, outstanding, committing, lh, place, op, begun, notes, headers⟩ := l
  dsimp only at hlh hsize hmine hhere
  subst hlh hsize
  refine ⟨h.dev, hclear, ho, h.area, h.room, fun hn => absurd hhere (hn p c), fun q d hq => ?_,
    hcopied⟩
  obtain ⟨rfl, rfl⟩ := hmine q d hq
  exact hplace

theorem mine_quiet (h : Whole s) (hl : Next s p c l) (hclear : x.Clear s.dev s.pins)
    (ht : Touch p b s.cache x) (hdisk : x.disk = s.cache.disk) (hlatest : x.latest = s.cache.latest)
    (hnd : s.cache.stage p b ≠ some .dirty)
    (hplace : Store.Place { s with cache := x, body := body } p c) :
    Keeps s { s with cache := x, log := l, body := body } := by
  refine h.keeps_touch ht rfl (fun k _ _ => by rw [hdisk])
    (h.mine hl hclear hplace fun j h1 h2 h3 => ?_)
  refine (h.copied j h1 h2 h3).imp (fun he => ?_) (h.dirty_kept ht fun hd => absurd hd hnd)
  change x.latest _ = x.latest _
  rw [hlatest]
  exact he

theorem take {next : Fin NBUF → Body} (h : Whole s) (hp : s.log.place p = .commit c)
    (hs : s.take p k next = .ok s')
    (hplace : ∀ b x, Leaves p s { s with cache := x } →
      Has { s with cache := x } p b .wait k →
      Store.Place { s with cache := x, body := next b } p c) : Keeps s s' := by
  obtain ⟨⟨b, x⟩, hx, rfl⟩ := map_ok.mp hs
  obtain ⟨ht, hn, hw, hdisk, hlatest⟩ := bget_spec h.clear hx
  refine h.mine_quiet (h.stays hp) (h.clear.bget h.dev hx) ht hdisk hlatest (by simp [stage, hn])
    (hplace b x (.of_same (fun a st j ha => ?_) fun a j _ hj => ?_) hw)
  · refine (ht.hold p a (.inr fun he => ?_)).trans ha
    rw [Has, he, hn] at ha
    cases ha
  · change x.disk j = x.latest j
    rw [hdisk, hlatest]
    exact hj

theorem drop (h : Whole s) (hl : Next s p c l) (hx : s.cache.brelse p b = .ok x)
    (hplace : (∀ a st j, a ≠ b → s.Has p a st j → Has { s with cache := x } p a st j) →
      Store.Place { s with cache := x, body := body } p c) :
    Keeps s { s with cache := x, log := l, body := body } := by
  obtain ⟨ht, hdisk, hlatest, d, k, hh, -⟩ := brelse_spec hx
  exact h.mine_quiet hl (h.clear.brelse hx) ht hdisk hlatest (by simp [stage, hh])
    (hplace fun a st j ha hj => (ht.hold p a (.inr ha)).trans hj)

theorem keeps_cache (h : s'.cache = s.cache) (h' : Whole s') : Keeps s s' :=
  ⟨h', fun _ _ _ hc => h ▸ hc, fun _ _ _ => by rw [h]⟩

theorem stage_of_has (hh : s.Has p b st k) : s.cache.stage p b = some st := by
  rw [stage, hh]
  rfl

theorem gets_ready (hg : s.Gets p b k) (hr : s.isReady p b = true) : s.Has p b .ready k := by
  have hst : s.cache.stage p b = some .ready := by simpa [isReady] using hr
  rcases hg with hg | hg | hg
  · rw [stage_of_has hg] at hst
    cases hst
  · rw [stage_of_has hg] at hst
    cases hst
  · exact hg

theorem block_mem (hi : i < s.log.lh.n) : s.log.lh.block i ∈ s.log.lh.blocks :=
  mem_blocks.mpr ⟨i, hi, rfl⟩

theorem block_ne (h : Whole s) (hi : i < s.log.lh.n) (hk : s.InArea k) :
    s.log.lh.block i ≠ k := by
  rintro rfl
  exact h.area _ (block_mem hi) hk

theorem data_of_has (h : Whole s) (hh : s.Has p b st k) (hst : st.reads = true) :
    (s.cache.buf b).data = s.cache.latest k ∧ (s.cache.buf b).blockno = k := by
  have hask := h.clear.asked p b _ hh
  have hv := h.clear.valid p b (by simp [stage_of_has hh, hst])
  exact ⟨h.clear.data b k hask.2 hv, hask.2.2⟩

theorem mine_modify {y : Block} {m : Nat} (h : Whole s) (hp : s.log.place p = .commit c)
    (hh : s.Has p b .ready k) (hx : s.cache.modify p b y = .ok x)
    (hk : ∀ i, i < s.log.lh.n → s.log.lh.block i ≠ k)
    (hplace : (∀ a st j, a ≠ b → s.Has p a st j → Has { s with cache := x } p a st j) →
      Has { s with cache := x } p b .dirty k →
      Store.Place { s with cache := x, body := body, made := m } p c)
    (hnew : ∀ j, j < m → j < s.log.lh.n → k ≠ s.start + j + 1 ∧ j < s.made ∨
      k = s.start + j + 1 ∧ y = s.cache.latest (s.log.lh.block j)) :
    Keeps s { s with cache := x, body := body, made := m } := by
  obtain ⟨ht, hdisk, hlatest, st, d, k', hst, hold, hold'⟩ := modify_spec hx
  have hno := (h.data_of_has hh rfl).2
  have hdk := (has_eq hh hold).2
  rw [hdk.1, hdk.2] at hold'
  rw [hno] at hlatest
  refine h.keeps_touch ht rfl (fun k _ _ => by rw [hdisk]) (h.mine (h.stays hp) (h.clear.modify hx)
    (hplace (fun a st j ha hj => (ht.hold p a (.inr ha)).trans hj) hold') fun j h1 h2 h3 => ?_)
  have hother : x.latest (s.log.lh.block j) = s.cache.latest (s.log.lh.block j) := by
    rw [hlatest, update_of_ne (hk j h3)]
  rcases hnew j h2 h3 with ⟨hkj, hj⟩ | ⟨hkj, hy⟩
  · refine (h.copied j h1 hj h3).imp (fun he => ?_) (h.dirty_kept ht fun _ _ => ?_)
    · change x.latest (s.start + j + 1) = x.latest (s.log.lh.block j)
      rw [hother, hlatest, update_of_ne (Ne.symm hkj)]
      exact he
    · rw [stage, hold']
      rfl
  · refine .inl ?_
    change x.latest (s.start + j + 1) = x.latest (s.log.lh.block j)
    rw [hother, hlatest, hkj, update_self, hy]

theorem mine_bwrite (h : Whole s) (hl : Next s p c l) (hh : s.Has p b st k) (hst : st.reads = true)
    (hx : s.cache.bwrite p b = .ok x)
    (hk : st = .ready ∨ ∀ i, i < s.log.lh.n → s.log.lh.block i ≠ k)
    (hhome : ¬ s.Committed → k ∉ s.pins)
    (hplace : (∀ a st j, a ≠ b → s.Has p a st j → Has { s with cache := x } p a st j) →
      Has { s with cache := x } p b .ready k → x.disk k = x.latest k →
      Store.Place { s with cache := x, body := body } p c) :
    Keeps s { s with cache := x, log := l, body := body } := by
  obtain ⟨ht, hdisk, hlatest, -, st', d, k', -, hold, hold'⟩ := bwrite_spec hx
  obtain ⟨hdata, hno⟩ := h.data_of_has hh hst
  have hdk := (has_eq hh hold).2
  rw [hdk.1, hdk.2] at hold'
  rw [hno, hdata] at hdisk
  refine h.keeps_touch ht rfl (fun j hj hn => ?_) (h.mine hl (h.clear.bwrite hx) (hplace
    (fun a st j ha hj => (ht.hold p a (.inr ha)).trans hj) hold' ?_) fun j h1 h2 h3 => ?_)
  · rw [hdisk, update_of_ne]
    rintro rfl
    exact hhome hn hj
  · rw [hdisk, hlatest, update_self]
  · refine (h.copied j h1 h2 h3).imp (fun he => ?_) (h.dirty_kept ht fun hd hc => ?_)
    · change x.latest _ = x.latest _
      rw [hlatest]
      exact he
    · rcases hk with rfl | hk
      · rw [stage_of_has hh] at hd
        cases hd
      · exact absurd (hc.2.symm.trans hno) (hk j h3)

theorem not_pinned (h : Whole s) (hk : s.InArea k) : k ∉ s.pins := fun hmem => by
  obtain ⟨i, -, hi, hik⟩ := mem_pins.mp hmem
  exact h.block_ne hi hk hik

theorem buf_ne {b' : Fin NBUF} {st' : Stage} (hk : k ≠ k') (hh : s.Has p b st k)
    (hh' : s.Has p b' st' k') : b ≠ b' := by
  rintro rfl
  exact hk (has_eq hh' hh).2.2

section
variable (h : Whole s)
include h

theorem writeLog (hp : s.log.place p = .commit (.writeLog t)) (ht : t < s.log.lh.n)
    (hs : s.writeLog p t = .ok s') : Keeps s s' := by
  obtain ⟨hinst, hmade, hle, hlt, hloop⟩ := h.place p _ hp
  have harea := h.inArea_log ht
  have hne : ∀ i, i < s.log.lh.n → s.log.lh.block i ≠ s.start + t + 1 := fun i hi =>
    h.block_ne hi harea
  unfold Store.writeLog at hs
  cases hb : s.body with
  | top =>
    rw [hb] at hs hmade
    refine h.take hp hs fun b x hl hw => ?_
    exact ⟨hinst, hmade, hle, fun _ => ht, .inl hw⟩
  | one b =>
    rw [hb] at hs hmade hloop
    obtain ⟨hr, hs⟩ := guard_ok.mp hs
    refine h.take hp hs fun b' x hl hw => ?_
    exact ⟨hinst, hmade, hle, fun _ => ht, hl.ready b _ (gets_ready hloop hr), .inl hw⟩
  | two b b' =>
    rw [hb] at hs hmade hloop
    obtain ⟨hr, hs⟩ := guard_ok.mp hs
    obtain ⟨hh, hg⟩ := hloop
    have hh' := gets_ready hg hr.2
    have hbb := buf_ne (Ne.symm (hne t ht)) hh hh'
    obtain ⟨_, hy, rfl⟩ := map_ok.mp hs
    obtain ⟨x, hx, rfl⟩ := map_ok.mp hy
    refine h.mine_modify hp hh hx hne (fun hkeep hd => ?_) fun j hj hjn => ?_
    · refine ⟨hinst, ?_, hle, fun _ => ht, hd, hkeep b' _ _ (Ne.symm hbb) hh'⟩
      change s.made + 1 = t + 1
      rw [hmade]
      rfl
    · have hm : s.made = t := hmade
      have hj : j < s.made + 1 := hj
      by_cases hjt : j = t
      · subst hjt
        exact .inr ⟨rfl, (h.data_of_has hh' rfl).1⟩
      · exact .inl ⟨by omega, by omega⟩
  | copied b b' =>
    rw [hb] at hs hmade hloop
    obtain ⟨x, hx, rfl⟩ := map_ok.mp hs
    obtain ⟨hh, hh'⟩ := hloop
    refine h.mine_bwrite (h.stays hp) hh rfl hx (.inr hne) (fun _ => h.not_pinned harea)
      fun hkeep hr _ => ?_
    exact ⟨hinst, hmade, hle, fun _ => ht, hr, hkeep b' _ _ (buf_ne (hne t ht) hh' hh) hh',
      fun hf => by cases hf⟩
  | written b b' =>
    rw [hb] at hs hmade hloop
    obtain ⟨x, hx, rfl⟩ := map_ok.mp hs
    obtain ⟨hh, hh', -⟩ := hloop
    refine h.drop (h.stays hp) hx fun hkeep => ?_
    exact ⟨hinst, hmade, hle, fun _ => ht, hkeep b _ _ (buf_ne (Ne.symm (hne t ht)) hh hh') hh⟩
  | last b =>
    rw [hb] at hs hmade hloop
    obtain ⟨_, hy, rfl⟩ := map_ok.mp hs
    obtain ⟨x, hx, rfl⟩ := map_ok.mp hy
    refine h.drop (c := .writeLog (t + 1)) (h.steps hp rfl rfl ?_) hx fun _ => ?_
    · simp [Logger.commitStep, Logger.move, ht]
    · exact ⟨hinst, hmade, ht, fun hf => absurd rfl hf, trivial⟩
  | unpinned | rest =>
    rw [hb] at hs
    cases hs

theorem not_dirty (hh : s.Has p b .ready k) : ¬ s.cache.Dirty k := by
  rintro ⟨q, c, hq, hc⟩
  have hcb := h.clear.uniq c b k hc (h.clear.asked p b _ hh).2
  subst hcb
  have hlp := (h.clear.lock p c).mpr (by simp [stage_of_has hh, Stage.owns])
  have hlq := (h.clear.lock q c).mpr (by simp [hq, Stage.owns])
  have hpq : p = q := Option.some.inj (hlp.symm.trans hlq)
  rw [← hpq, stage_of_has hh] at hq
  cases hq

theorem mem_drop_succ (ht : t < s.log.lh.n) (j : Nat) :
    j ∈ s.log.lh.blocks.drop (t + 1) ↔
      j ∈ s.log.lh.blocks.drop t ∧ j ≠ s.log.lh.block t := by
  have hlen : t < s.log.lh.blocks.length := by simpa [LogHeader.blocks] using ht
  have hcons := List.drop_eq_getElem_cons hlen
  have hget : s.log.lh.blocks[t] = s.log.lh.block t := by simp [LogHeader.blocks]
  have hnd := (List.drop_sublist t s.log.lh.blocks).nodup h.orderly.nodup
  rw [hcons, hget] at hnd ⊢
  rw [List.nodup_cons] at hnd
  constructor
  · exact fun hj => ⟨List.mem_cons_of_mem _ hj, fun he => hnd.1 (he ▸ hj)⟩
  · rintro ⟨hj, hne⟩
    exact (List.mem_cons.mp hj).resolve_left hne

theorem installTrans (hp : s.log.place p = .commit (.install t)) (ht : t < s.log.lh.n)
    (hloop : s.Loop p (s.start + t + 1) (s.log.lh.block t) true s.body)
    (hs : s.installTrans p t = .ok s') : Keeps s s' := by
  obtain ⟨hmade, hinst, hle, -⟩ := h.place p _ hp
  have hcom : s.Committed := ⟨p, t, hp⟩
  have harea := h.inArea_log ht
  have hne : s.log.lh.block t ≠ s.start + t + 1 := h.block_ne ht harea
  unfold Store.installTrans at hs
  cases hb : s.body with
  | top =>
    rw [hb] at hs hinst
    refine h.take hp hs fun b x hl hw => ?_
    exact ⟨hmade, hinst, hle, .inr ⟨fun _ => ht, .inl hw⟩⟩
  | one b =>
    rw [hb] at hs hinst hloop
    obtain ⟨hr, hs⟩ := guard_ok.mp hs
    refine h.take hp hs fun b' x hl hw => ?_
    exact ⟨hmade, hinst, hle, .inr ⟨fun _ => ht, hl.ready b _ (gets_ready hloop hr), .inl hw⟩⟩
  | two b b' =>
    rw [hb] at hs hinst hloop
    obtain ⟨hr, hs⟩ := guard_ok.mp hs
    obtain ⟨hh, hg⟩ := hloop
    have hh' := gets_ready hg hr.2
    have hin : s.installed = t := hinst
    -- the block in the log is the one in memory: the copy changes nothing
    have hcopy : s.cache.latest (s.start + t + 1) = s.cache.latest (s.log.lh.block t) :=
      (h.copied t (by omega) (by omega) ht).resolve_right (h.not_dirty hh')
    have hsame : (s.cache.buf b').data = (s.cache.buf b).data := by
      rw [(h.data_of_has hh' rfl).1, (h.data_of_has hh rfl).1, hcopy]
    rw [put_same hsame] at hs
    cases hs
    refine keeps_cache rfl (h.mine (h.stays hp) h.clear ?_ h.copied)
    exact ⟨hmade, hinst, hle, .inr ⟨fun _ => ht, hh, hh'⟩⟩
  | copied b b' =>
    rw [hb] at hs hinst hloop
    obtain ⟨x, hx, rfl⟩ := map_ok.mp hs
    obtain ⟨hh, hh'⟩ := hloop
    refine h.mine_bwrite (h.stays hp) hh' rfl hx (.inl rfl) (fun hn => absurd hcom hn)
      fun hkeep hr hd => ?_
    exact ⟨hmade, hinst, hle, .inr ⟨fun _ => ht, hkeep b _ _ (buf_ne (Ne.symm hne) hh hh') hh, hr,
      fun _ => hd⟩⟩
  | written b b' =>
    rw [hb] at hs hinst hloop
    obtain ⟨hh, hh', hdisk⟩ := hloop
    have hin : s.installed = t := hinst
    cases hs
    have hask := h.clear.asked p b' _ hh'
    have hmem := mem_pins.mpr ⟨t, by omega, ht, rfl⟩
    have hclear : (s.cache.bunpin b').Clear s.dev (s.log.lh.blocks.drop (s.installed + 1)) :=
      h.clear.bunpin hask.2 hmem (hdisk rfl) fun j => hin ▸ h.mem_drop_succ ht j
    refine ⟨h.mine (h.stays hp) hclear ?_ fun j h1 h2 h3 => ?_, fun c j _ hc => ?_,
      fun _ _ _ => rfl⟩
    · refine ⟨hmade, ?_, hle, .inr ⟨fun _ => ht, rfl, hh, hh'⟩⟩
      change s.installed + 1 = t + 1
      rw [hin]
    · refine (h.copied j (by omega) h2 h3).imp id ?_
      rintro ⟨q, c, hq, hc⟩
      exact ⟨q, c, hq, caches_bunpin.mpr hc⟩
    · exact caches_bunpin.mpr hc
  | unpinned b b' =>
    rw [hb] at hs hinst hloop
    obtain ⟨x, hx, rfl⟩ := map_ok.mp hs
    obtain ⟨-, hh, hh'⟩ := hloop
    refine h.drop (h.stays hp) hx fun hkeep => ?_
    exact ⟨hmade, hinst, hle, .inr ⟨fun _ => ht, hkeep b' _ _ (buf_ne hne hh' hh) hh'⟩⟩
  | last b =>
    rw [hb] at hs hinst hloop
    obtain ⟨_, hy, rfl⟩ := map_ok.mp hs
    obtain ⟨x, hx, rfl⟩ := map_ok.mp hy
    refine h.drop (c := .install (t + 1)) (h.steps hp rfl rfl ?_) hx fun _ => ?_
    · simp [Logger.commitStep, Logger.move, ht]
    · exact ⟨hmade, hinst, ht, .inr ⟨fun hf => absurd rfl hf, trivial⟩⟩
  | rest =>
    rw [hb] at hs
    cases hs

theorem start_ne (hi : i < s.log.lh.n) : s.log.lh.block i ≠ s.start := by
  have := h.room (by omega)
  exact h.block_ne hi ⟨le_refl _, by omega⟩

theorem writeHead {d : CommitAt} (hp : s.log.place p = .commit c) (hhead : s.Head p s.start s.body)
    (hplace : ∀ x body, Head { s with cache := x } p s.start body →
      Store.Place { s with cache := x, body := body } p c) (hl : Next s p d (s.log.commitStep p c))
    (hrest : ∀ x b, Has { s with cache := x } p b .ready s.start →
      Store.Place { s with cache := x, body := .rest b } p d) (hs : s.writeHead p c = .ok s') :
    Keeps s s' := by
  unfold Store.writeHead at hs
  cases hb : s.body with
  | top =>
    rw [hb] at hs
    refine h.take hp hs fun b x _ hw => ?_
    exact hplace x (.one b) (.inl hw)
  | one b =>
    rw [hb] at hs
    have hg : s.Gets p b s.start := by
      rw [hb] at hhead
      exact hhead
    obtain ⟨hr, hs⟩ := guard_ok.mp hs
    obtain ⟨x, hx, rfl⟩ := map_ok.mp hs
    refine h.mine_modify hp (gets_ready hg hr) hx (fun i hi => h.start_ne hi) (fun _ hd => ?_)
      fun j hj _ => .inl ⟨by omega, hj⟩
    exact hplace x (.copied b b) hd
  | copied b b' =>
    rw [hb] at hs
    have hh : s.Has p b .dirty s.start := by
      rw [hb] at hhead
      exact hhead
    obtain ⟨_, hy, rfl⟩ := map_ok.mp hs
    obtain ⟨x, hx, rfl⟩ := map_ok.mp hy
    refine h.mine_bwrite hl hh rfl hx (.inr fun i hi => h.start_ne hi) (fun _ hmem => ?_)
      fun _ hr _ => hrest x b hr
    obtain ⟨i, -, hi, hik⟩ := mem_pins.mp hmem
    exact h.start_ne hi hik
  | two | written | unpinned | last | rest =>
    rw [hb] at hs
    cases hs

theorem afterHead {next : Except Halt Store} (hp : s.log.place p = .commit c)
    (hrest : ∀ b x, s.body = .rest b → Store.Place { s with cache := x, body := .top } p c)
    (hnext : (∀ b, s.body ≠ .rest b) → next = .ok s' → Keeps s s')
    (hs : s.afterHead p next = .ok s') : Keeps s s' := by
  unfold Store.afterHead at hs
  cases hb : s.body with
  | rest b =>
    rw [hb] at hs
    obtain ⟨x, hx, rfl⟩ := map_ok.mp hs
    exact h.drop (h.stays hp) hx fun _ => hrest b x hb
  | top | one | two | copied | written | unpinned | last =>
    rw [hb] at hs
    exact hnext (by simp [hb]) hs

end

theorem not_rest (hr : s.Rest p k s.body) : ∃ b, s.body = .rest b := by
  cases hb : s.body with
  | rest b => exact ⟨b, rfl⟩
  | top | one | two | copied | written | unpinned | last =>
    rw [hb] at hr
    exact hr.elim

theorem advance {d : CommitAt} (h : Whole s) (hl : Next s p d (s.log.commitStep p c))
    (hplace : s.Place p d) : Keeps s (s.advance p c) :=
  keeps_cache rfl (h.mine hl h.clear hplace h.copied)

theorem clearHead (h : Whole s) (hp : s.log.place p = .commit .clear) :
    Whole { s.advance p .clear with made := 0, installed := 0 } := by
  obtain ⟨hbody, hmade, hinst⟩ := h.place p _ hp
  have ho := h.orderly.commitStep hp
  have hhere : (s.log.commitStep p .clear).place p = .commit .eraseHead := by
    simp [Logger.commitStep, Logger.move]
  have hclear := h.clear
  have hempty : s.pins = [] := by
    unfold pins
    rw [hinst]
    exact List.drop_eq_nil_of_le (by simp [LogHeader.blocks])
  rw [hempty] at hclear
  refine ⟨h.dev, hclear, ho, ?_, ?_, fun hn => absurd hhere (hn p _), fun q d hq => ?_,
    fun j _ hj => ?_⟩
  · intro k hk
    simp [Store.advance, Logger.commitStep, LogHeader.blocks] at hk
  · intro h0
    simp [Store.advance, Logger.commitStep] at h0
  · have hqp := (ho.alone p _ hhere).2 q d hq
    subst hqp
    have hd : d = .eraseHead := by simpa using hq.symm.trans hhere
    subst hd
    refine ⟨rfl, rfl, ?_⟩
    change Store.Head _ q _ s.body
    rw [hbody]
    trivial
  · exact absurd hj (Nat.not_lt_zero j)

theorem leave (h : Whole s) (hp : s.log.place p = .commit .leave) (hbody : s.body = .top) :
    Whole (s.advance p .leave) := by
  obtain ⟨hinst, hmade, -⟩ := h.place p _ hp
  have ho := h.orderly.commitStep hp
  have hnone : ∀ q d, (s.log.commitStep p .leave).place q ≠ .commit d := by
    intro q d hq
    have hq : (Logger.wakeup { s.log.move p .outside with committing := false }).place q =
      .commit d := hq
    rw [wakeup_commit] at hq
    by_cases hqp : q = p
    · subst hqp
      simp [Logger.move] at hq
    · have hq' : s.log.place q = .commit d := by simpa [Logger.move, hqp] using hq
      exact hqp ((h.orderly.alone p _ hp).2 q d hq')
  exact ⟨h.dev, h.clear, ho, h.area, h.room, fun _ => ⟨hbody, hmade, hinst⟩,
    fun q d hq => absurd hq (hnone q d), h.copied⟩

theorem commitStep (h : Whole s) (hp : s.log.place p = .commit c) (hs : s.commitStep p c = .ok s') :
    Keeps s s' := by
  have hpl := h.place p c hp
  cases c with
  | enter =>
    obtain ⟨hbody, hmade, hinst⟩ := hpl
    cases hs
    by_cases hn : 0 < s.log.lh.n
    · refine h.advance (d := .writeLog 0) (h.steps hp rfl rfl ?_) ?_
      · simp [Logger.commitStep, Logger.move, hn]
      · simp [Store.Place, hbody, hmade, hinst, Body.copies, Loop]
    · refine h.advance (d := .leave) (h.steps hp rfl rfl ?_) ?_
      · simp [Logger.commitStep, Logger.move, hn]
      · simp [Store.Place, hbody, hmade, hinst]
  | writeLog t =>
    obtain ⟨hinst, hmade, hle, hlt, -⟩ := hpl
    simp only [Store.commitStep] at hs
    split at hs
    · rename_i ht
      exact h.writeLog hp ht hs
    · rename_i ht
      have hbody : s.body = .top := not_imp_comm.mp hlt ht
      cases hs
      refine h.advance (d := .writeHead) (h.steps hp rfl rfl ?_) ?_
      · simp [Logger.commitStep, Logger.move, ht]
      · rw [hbody] at hmade
        refine ⟨hinst, hmade.trans (le_antisymm hle (not_lt.mp ht)), ?_⟩
        rw [hbody]
        trivial
  | writeHead =>
    refine h.writeHead (d := .install 0) hp hpl.2.2 (fun x body hh => ?_)
      (h.steps hp rfl rfl ?_) (fun x b hh => ?_) hs
    · exact ⟨hpl.1, hpl.2.1, hh⟩
    · simp [Logger.commitStep, Logger.move]
    · exact ⟨hpl.2.1, hpl.1, Nat.zero_le _, .inl hh⟩
  | install t =>
    obtain ⟨hmade, hinst, hle, hbody⟩ := hpl
    refine h.afterHead hp (fun b x hb => ?_) (fun hnr hnext => ?_) hs
    · rw [hb] at hinst
      exact ⟨hmade, hinst, hle, .inr ⟨fun hf => absurd rfl hf, trivial⟩⟩
    · have hloop := hbody.resolve_left fun hr => by
        obtain ⟨b, hb⟩ := not_rest hr
        exact hnr b hb
      split at hnext
      · rename_i ht
        exact h.installTrans hp ht hloop.2 hnext
      · rename_i ht
        have hb : s.body = .top := not_imp_comm.mp hloop.1 ht
        cases hnext
        refine h.advance (d := .clear) (h.steps hp rfl rfl ?_) ?_
        · simp [Logger.commitStep, Logger.move, ht]
        · rw [hb] at hinst
          exact ⟨hb, hmade, hinst.trans (le_antisymm hle (not_lt.mp ht))⟩
  | clear =>
    cases hs
    exact keeps_cache rfl (h.clearHead hp)
  | eraseHead =>
    refine h.writeHead (d := .leave) hp hpl.2.2 (fun x body hh => ?_)
      (h.steps hp rfl rfl ?_) (fun x b hh => ?_) hs
    · exact ⟨hpl.1, hpl.2.1, hh⟩
    · simp [Logger.commitStep, Logger.move]
    · exact ⟨hpl.1, hpl.2.1, .inr hh⟩
  | leave =>
    obtain ⟨hinst, hmade, hbody⟩ := hpl
    refine h.afterHead hp (fun _ _ _ => ⟨hinst, hmade, .inl rfl⟩) (fun hnr hnext => ?_) hs
    have hb := hbody.resolve_right fun hr => by
      obtain ⟨b, hb⟩ := not_rest hr
      exact hnr b hb
    cases hnext
    exact keeps_cache rfl (h.leave hp hb)

theorem runs_commit (hr : s.runs p = true) (c : CommitAt) : s.log.place p ≠ .commit c := by
  intro hp
  simp [runs, hp] at hr

theorem act {a : StoreAct} (h : Whole s) (hf : s.Fits a) (hs : s.act a = .ok s') :
    Keeps s s' := by
  cases a with
  | bget p d k =>
    obtain ⟨hr, hs⟩ := guard_ok.mp hs
    obtain ⟨x, hx, rfl⟩ := map_ok.mp hs
    cases hf
    obtain ⟨y, hy, rfl⟩ := map_ok.mp hx
    exact h.bget (runs_commit hr) hy
  | acquiresleep p b =>
    obtain ⟨x, hx, rfl⟩ := map_ok.mp hs
    exact h.acquiresleep hx
  | fill p b =>
    obtain ⟨x, hx, rfl⟩ := map_ok.mp hs
    exact h.fill hx
  | modify p b y =>
    obtain ⟨hr, hs⟩ := guard_ok.mp hs
    obtain ⟨x, hx, rfl⟩ := map_ok.mp hs
    exact h.modify (runs_commit hr) hf hx
  | bwrite p b =>
    obtain ⟨hr, hs⟩ := guard_ok.mp hs
    obtain ⟨x, hx, rfl⟩ := map_ok.mp hs
    exact h.bwrite (runs_commit hr) hf hx
  | logWrite p b =>
    obtain ⟨-, hs⟩ := guard_ok.mp hs
    exact h.logWrite hf hs
  | brelse p b =>
    obtain ⟨hr, hs⟩ := guard_ok.mp hs
    obtain ⟨x, hx, rfl⟩ := map_ok.mp hs
    exact h.brelse (runs_commit hr) hx
  | unref p b =>
    obtain ⟨x, hx, rfl⟩ := map_ok.mp hs
    exact h.unref hx
  | beginOp p =>
    obtain ⟨-, hs⟩ := guard_ok.mp hs
    obtain ⟨l, hl, rfl⟩ := map_ok.mp hs
    exact h.beginOp hl
  | endOp p =>
    obtain ⟨-, hs⟩ := guard_ok.mp hs
    obtain ⟨l, hl, rfl⟩ := map_ok.mp hs
    exact h.endOp hl
  | kill p =>
    obtain ⟨l, hl, rfl⟩ := map_ok.mp hs
    exact h.kill hl
  | commit p =>
    simp only [Store.act] at hs
    split at hs
    case h_1 c hp =>
      split at hs
      · exact h.commitStep hp hs
      · cases hs
    all_goals cases hs

theorem boot {dev start : Nat} (hdev : dev ≠ 0) (size : Int) (disk : Nat → Block) :
    Whole (boot dev start size disk) where
  dev := hdev
  clear := boot_clear dev disk
  orderly := Logger.boot_orderly NPROC size
  area := by simp [Store.boot, Logger.boot, LogHeader.blocks]
  room := by simp [Store.boot, Logger.boot]
  idle := fun _ => ⟨rfl, rfl, rfl⟩
  place := by simp [Store.boot, Logger.boot]
  copied := by simp [Store.boot]

end Whole

end Whole

/-- In every interleaving in which processes name one device, change no block of the log's own
and do not write a block behind the back of the log: what `bread` returned for a block is what
was last put into it, and a block that is in the header and not installed keeps its buffer, and
is not written to its home before the header is. -/
theorem cache_transparent (dev start : Nat) (size : Int) (disk : Nat → Block) (hdev : dev ≠ 0)
    (acts : List StoreAct) (s : Store)
    (hfit : Run.Along (Shared.step act) Fits (boot dev start size disk) acts)
    (hrun : Run.exec (Shared.step act) (boot dev start size disk) acts = some s) :
    (∀ p b x, s.cache.hold p b = some x → x.stage.reads = true →
      (s.cache.buf b).data = s.cache.latest x.blockno) ∧
    ∀ i, s.installed ≤ i → i < s.log.lh.n →
      (∃ b, s.cache.Caches b (s.log.lh.block i) ∧
        ∀ a s', s.Fits a → s.act a = .ok s' → s'.cache.Caches b (s.log.lh.block i)) ∧
      (¬ s.Committed → ∀ a s', s.Fits a → s.act a = .ok s' →
        s'.cache.disk (s.log.lh.block i) = s.cache.disk (s.log.lh.block i)) := by
  have h : Whole s := Run.exec_inv
    (fun hi hf hs => (hi.act hf (Shared.step_eq_some.mp hs)).whole)
    (Whole.boot hdev size disk) hfit hrun
  refine ⟨fun p b x hx hst => ?_, fun i h1 h2 => ?_⟩
  · have hask := h.clear.asked p b x hx
    exact h.clear.data b _ hask.2 (h.clear.valid p b (by simp [stage, hx, hst]))
  · have hmem := mem_pins.mpr ⟨i, h1, h2, rfl⟩
    obtain ⟨b, hb, -⟩ := h.clear.kept _ hmem
    exact ⟨⟨b, hb, fun a s' hf hs => (h.act hf hs).cached b _ hmem hb⟩,
      fun hn a s' hf hs => (h.act hf hs).home _ hmem hn⟩

def logOne (p : Fin NPROC) (b : Fin NBUF) (dev k : Nat) (x : Block) : List StoreAct :=
  [.beginOp p, .bget p dev k, .acquiresleep p b, .fill p b, .modify p b x, .logWrite p b]

def commitAndRead (p q : Fin NPROC) (b c : Fin NBUF) (k : Nat) (x : Block) : List StoreAct :=
  logOne p b 1 k x ++ [.brelse p b, .unref p b, .endOp p, .commit p, .commit p,
    .acquiresleep p c, .fill p c, .commit p, .acquiresleep p b, .fill p b, .commit p, .commit p,
    .commit p, .unref p b, .commit p, .unref p c, .bget q 1 k, .acquiresleep q b, .fill q b]

theorem cache_transparent_commitAndRead :
    ∃ s, Run.exec (Shared.step act) (boot 1 2 LOGSIZE fun _ => Block.zero)
        (commitAndRead 0 1 0 1 40 (Block.zero.setByte 0 7)) = some s ∧
      s.cache.hold 1 0 = some ⟨.ready, 1, 40⟩ ∧
      (s.cache.buf 0).data = s.cache.latest 40 ∧ (s.cache.latest 40).byte 0 = 7 ∧
      (s.cache.disk 40).byte 0 = 0 := by
  have hrun : (Run.exec (Shared.step act) (boot 1 2 LOGSIZE fun _ => Block.zero)
      (commitAndRead 0 1 0 1 40 (Block.zero.setByte 0 7))).map
      (fun s => (s.cache.hold 1 0, (s.cache.latest 40).byte 0, (s.cache.disk 40).byte 0)) =
      some (some ⟨.ready, 1, 40⟩, 7, 0) := by
    decide +kernel
  have hfit : Run.Along (Shared.step act) Fits (boot 1 2 LOGSIZE fun _ => Block.zero)
      (commitAndRead 0 1 0 1 40 (Block.zero.setByte 0 7)) := by
    decide +kernel
  obtain ⟨s, hs, hst⟩ := Option.map_eq_some_iff.mp hrun
  simp only [Prod.mk.injEq] at hst
  exact ⟨s, hs, hst.1, (cache_transparent 1 2 LOGSIZE _ (by decide) _ s hfit hs).1 1 0 _ hst.1 rfl,
    hst.2.1, hst.2.2⟩

def twoNames (p : Fin NPROC) (b c : Fin NBUF) (x : Block) : List StoreAct :=
  [.bget p 2 5, .acquiresleep p b, .fill p b, .brelse p b, .unref p b,
   .bget p 1 5, .acquiresleep p c, .fill p c, .modify p c x, .bwrite p c, .brelse p c, .unref p c,
   .bget p 2 5, .acquiresleep p b, .fill p b]

/-- Without those conditions: a read through another device number is stale, and `bwrite` of a
logged block goes to the disk before the header. -/
theorem stale_read_and_early_write :
    (∃ s, Run.exec (Shared.step act) (boot 1 2 LOGSIZE fun _ => Block.zero)
        (twoNames 0 0 1 (Block.zero.setByte 0 7)) = some s ∧
      s.cache.hold 0 0 = some ⟨.ready, 2, 5⟩ ∧ (s.cache.buf 0).data ≠ s.cache.latest 5) ∧
    ∃ s s', Run.exec (Shared.step act) (boot 1 2 LOGSIZE fun _ => Block.zero)
        (logOne 0 0 1 40 (Block.zero.setByte 0 7)) = some s ∧
      s.act (.bwrite 0 0) = .ok s' ∧ s.log.lh.n = 1 ∧ s.installed = 0 ∧ s.log.lh.block 0 = 40 ∧
      ¬ s.Committed ∧ s'.cache.disk 40 ≠ s.cache.disk 40 := by
  constructor
  · have hrun : (Run.exec (Shared.step act) (boot 1 2 LOGSIZE fun _ => Block.zero)
        (twoNames 0 0 1 (Block.zero.setByte 0 7))).map
        (fun s => (s.cache.hold 0 0, (s.cache.buf 0).data.byte 0, (s.cache.latest 5).byte 0)) =
        some (some ⟨.ready, 2, 5⟩, 0, 7) := by
      decide +kernel
    obtain ⟨s, hs, hst⟩ := Option.map_eq_some_iff.mp hrun
    simp only [Prod.mk.injEq] at hst
    refine ⟨s, hs, hst.1, fun he => ?_⟩
    rw [he, hst.2.2] at hst
    exact absurd hst.2.1 (by decide)
  · have hrun : (Run.exec (Shared.step act) (boot 1 2 LOGSIZE fun _ => Block.zero)
        (logOne 0 0 1 40 (Block.zero.setByte 0 7))).map
        (fun s => ((s.log.lh.n, s.installed, s.log.lh.block 0, decide s.Committed),
          (s.cache.disk 40).byte 0,
          (Shared.step act s (.bwrite 0 0)).map fun s' => (s'.cache.disk 40).byte 0)) =
        some ((1, 0, 40, false), 0, some 7) := by
      decide +kernel
    obtain ⟨s, hs, hst⟩ := Option.map_eq_some_iff.mp hrun
    simp only [Prod.mk.injEq] at hst
    obtain ⟨s', hs', hbyte⟩ := Option.map_eq_some_iff.mp hst.2.2
    refine ⟨s, s', hs, Shared.step_eq_some.mp hs', hst.1.1, hst.1.2.1, hst.1.2.2.1,
      of_decide_eq_false hst.1.2.2.2, fun he => ?_⟩
    rw [he, hst.2.1] at hbyte
    exact absurd hbyte (by decide)

end Store

end Xv6Audit.Bio
