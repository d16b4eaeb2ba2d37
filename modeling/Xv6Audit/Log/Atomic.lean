import Xv6Audit.Log.Install

/-! Crash atomicity: whatever the crash points of commits and of earlier recoveries, a
recovery that completes leaves exactly the first `k` transactions installed. -/
namespace Xv6Audit.Log
open Function Disk Prog
variable {g : Geometry} {s : Machine} {A B : View} {H H' : Nat → Block}

/-! Header block. -/

theorem putBlocks_word (lh : LogHeader) (hb : Block) (k : Nat) (hk : k ≤ LOGSIZE)
    (hlt : ∀ i, i < k → lh.block i < 4294967296) (j : Nat) :
    (putBlocks lh hb k).word j =
      if 1 ≤ j ∧ j ≤ k then lh.block (j-1) else hb.word j := by
  induction k with
  | zero =>
    have hj : ¬(1 ≤ j ∧ j ≤ 0) := by omega
    rw [if_neg hj]
    rfl
  | succ k ih =>
    unfold LOGSIZE at hk
    rw [putBlocks, Block.word_setWord _ _ _ _ (by omega) (hlt k (by omega)),
      ih (by unfold LOGSIZE; omega) fun i hi => hlt i (by omega)]
    by_cases hj : j = k+1
    · subst j
      rw [if_pos rfl, if_pos (by omega)]
      rfl
    · rw [if_neg hj]
      by_cases hjk : 1 ≤ j ∧ j ≤ k
      · rw [if_pos hjk, if_pos (by omega)]
      · rw [if_neg hjk, if_neg (by omega)]

theorem putHeader_n (lh : LogHeader) (hb : Block) (hn : lh.n ≤ LOGSIZE)
    (hlt : ∀ i, i < lh.n → lh.block i < 4294967296) : (putHeader lh hb).word 0 = lh.n := by
  have hn' : lh.n < 4294967296 := by unfold LOGSIZE at hn; omega
  rw [putHeader, putBlocks_word _ _ _ hn hlt, if_neg (by omega),
    Block.word_setWord_self _ _ _ (by omega) hn']

theorem putHeader_block (lh : LogHeader) (hb : Block) (hn : lh.n ≤ LOGSIZE)
    (hlt : ∀ i, i < lh.n → lh.block i < 4294967296) {i : Nat} (hi : i < lh.n) :
    (putHeader lh hb).word (i+1) = lh.block i := by
  rw [putHeader, putBlocks_word _ _ _ hn hlt, if_pos (by omega)]
  rfl

def headWritten (A : View) : View :=
  { A with
    view := update A.view A.start (putHeader A.lh (A.view A.start))
    disk := update A.disk A.start (putHeader A.lh (A.view A.start))
    left := A.left - 1 }

theorem wp_writeHead {Q : Unit → Machine → Prop} {E : Stop → Machine → Prop}
    (h : Shows s A) (hE : ∀ s', s'.disk = A.disk → A.left = 0 → E .powerFail s')
    (hQ : ∀ s', Shows s' (headWritten A) → Q () s') : wp writeHead Q E s := by
  unfold writeHead
  simp only [wp_bind, wp_get]
  rw [h.start, h.lh]
  refine wp_bread h fun s1 h1 => wp_bdata h1 ?_
  refine wp_setData h1 (by simp [View.hold]) fun s2 h2 => ?_
  refine wp_bwrite h2 (fun hl => hE _ h2.disk hl) fun s3 h3 => ?_
  refine wp_brelse h3 (fun _ => by simp [View.store, View.write]) fun s4 h4 => hQ _ ?_
  have he : headWritten A = ((((A.hold A.start).store A.start
      (putHeader A.lh (A.view A.start))).write A.start).drop A.start) := by
    simp [headWritten, View.hold, View.store, View.write, View.drop]
  rw [he]
  exact h4

theorem Shows.setLh (h : Shows s A) (lh : LogHeader) :
    Shows { s with lh := lh } { A with lh := lh } := by
  obtain ⟨rfl, hc⟩ := h
  exact ⟨rfl, hc⟩

theorem Shows.setOutstanding (h : Shows s A) (n : Nat) :
    Shows { s with outstanding := n } { A with outstanding := n } := by
  obtain ⟨rfl, hc⟩ := h
  exact ⟨rfl, hc⟩

theorem wp_clearHead (h : Shows s A) (hst : A.start = g.start) (hsz : A.size = g.size)
    (ho : A.outstanding = 0) (hdur : Durable g A.disk H)
    (hhome : ∀ x, ¬InLog g x → A.disk x = H x ∧ A.view x = H x) :
    wp clearHead (fun _ s' => ∃ B, Shows s' B ∧ Idle g B H)
      (fun _ s' => Durable g s'.disk H ∧ A.left = 0) s := by
  unfold clearHead
  simp only [wp_bind, wp_modify]
  have h0 := h.setLh { s.lh with n := 0 }
  refine wp_writeHead h0 (fun s' hd hl => ⟨by rw [hd]; exact hdur, hl⟩) fun s1 h1 =>
    ⟨_, h1, ?_⟩
  refine ⟨hst, hsz, ho, rfl, ?_, ?_, ?_⟩
  · simp only [hdr, headWritten, hst, update_self]
    exact putHeader_n _ _ (by simp) (by simp)
  · intro x hx
    have hne : x ≠ A.start := by
      intro he; rw [he, hst] at hx; exact hx (header_in_log g)
    simpa [headWritten, update_of_ne hne] using (hhome x hx).1
  · intro x hx
    have hne : x ≠ A.start := by
      intro he; rw [he, hst] at hx; exact hx (header_in_log g)
    simpa [headWritten, update_of_ne hne] using (hhome x hx).2

/-! Recovery. -/

theorem boot_shows (g : Geometry) (d : Nat → Block) (w : Nat) (v : List Nat) :
    Shows (bootMachine g d w v) ⟨d, fun _ => 0, d, w, g.start, g.size, 0, ⟨0, fun _ => 0⟩⟩ :=
  ⟨rfl, fun _ _ => rfl⟩

/-- Recovery brings back `H`, stands for `H` at every crash point, and needs one write for
each logged block and one for the header. -/
theorem wp_recoverFromLog (d : Nat → Block) (w : Nat) (v : List Nat) (hd : Durable g d H) :
    wp recoverFromLog (fun _ s' => ∃ B, Shows s' B ∧ Idle g B H)
      (fun _ s' => Durable g s'.disk H ∧ w < (hdr g d).n + 1) (bootMachine g d w v) := by
  have hb := boot_shows g d w v
  unfold recoverFromLog readHead
  simp only [wp_bind, wp_get, wp_modify]
  refine wp_bread hb fun s1 h1 => wp_bdata h1 ?_
  refine wp_brelse (h1.setLh _) (fun _ => rfl) fun s2 h2 => ?_
  have hlh : (getHeader s1.lh (d g.start)).n = (hdr g d).n := rfl
  have hA : Installable g (View.drop { (View.hold ⟨d, fun _ => 0, d, w, g.start, g.size, 0,
      ⟨0, fun _ => 0⟩⟩ g.start) with lh := getHeader s1.lh (d g.start) } g.start) H := by
    refine ⟨rfl, hd, rfl, ?_, fun _ _ => rfl, fun _ _ _ => rfl⟩
    intro i hi
    have hi' : i < (d g.start).word 0 := hi
    simp [View.drop, View.hold, getHeader, hdr, hi']
  refine wp_mono (wp_installTrans true h2 hA) ?_ ?_
  · rintro _ s3 ⟨B, h3, hB⟩
    refine wp_mono (wp_clearHead h3 hB.start hB.size hB.outstanding hB.durable
      (hB.home hA)) (fun _ _ h => h) ?_
    rintro _ s4 ⟨h4, hl⟩
    refine ⟨h4, ?_⟩
    have hleft : B.left = w - (hdr g d).n := hB.left
    omega
  · rintro _ s3 ⟨h3, hl⟩
    refine ⟨h3, ?_⟩
    have hl' : w < (hdr g d).n := hl
    omega

/-! Transactions. -/

def applyTxn (t : Txn) (H : Nat → Block) : Nat → Block :=
  t.foldl (fun H w => update H w.1 w.2) H

def applyTxns (ts : List Txn) (H : Nat → Block) : Nat → Block :=
  ts.foldl (fun H t => applyTxn t H) H

def TxnOk (g : Geometry) (t : Txn) : Prop := ∀ w ∈ t, ¬InLog g w.1 ∧ w.1 < 4294967296

/-- Before commit: the disk still shows `H`, the cache shows `H'`, and the blocks where they
differ are logged and pinned. -/
structure Logging (g : Geometry) (A : View) (H H' : Nat → Block) : Prop where
  start : A.start = g.start
  size : A.size = g.size
  hdr_empty : (hdr g A.disk).n = 0
  small : A.lh.n ≤ LOGSIZE
  room : A.lh.n + 1 ≤ g.size
  disk : ∀ x, ¬InLog g x → A.disk x = H x
  view : ∀ x, ¬InLog g x → A.view x = H' x
  dirty : ∀ x, ¬InLog g x → (∀ i, i < A.lh.n → A.lh.block i ≠ x) → A.view x = A.disk x
  blocks : ∀ i, i < A.lh.n →
    ¬InLog g (A.lh.block i) ∧ A.lh.block i < 4294967296 ∧ 1 ≤ A.ref (A.lh.block i)

theorem Idle.logging (h : Idle g A H) : Logging g A H H where
  start := h.start
  size := h.size
  hdr_empty := h.hdr_empty
  small := by rw [h.empty]; omega
  room := by rw [h.empty]; have := g.size_pos; omega
  disk := h.disk
  view := h.view
  dirty := fun x hx _ => (h.view x hx).trans (h.disk x hx).symm
  blocks := by intro i hi; rw [h.empty] at hi; omega

theorem Logging.durable (h : Logging g A H H') : Durable g A.disk H :=
  Durable.of_empty h.hdr_empty h.disk

/-- `log_write` of a held buffer: a panic leaves the disk alone; otherwise the block is
appended to the header and pinned, or it is there already and nothing changes. -/
theorem wp_logWrite {b : Nat} {Q : Unit → Machine → Prop} {E : Stop → Machine → Prop}
    (h : Shows s A) (hb : 1 ≤ A.ref b) (hE : ∀ e s', s'.disk = A.disk → E e s')
    (hnew : A.lh.n < LOGSIZE → A.lh.n + 1 < A.size → ∀ s',
      Shows s' { A.hold b with lh := ⟨A.lh.n + 1, update A.lh.block A.lh.n b⟩ } → Q () s')
    (hold : ∀ i, i < A.lh.n → A.lh.block i = b → ∀ s', Shows s' A → Q () s') :
    wp (logWrite b) Q E s := by
  have hlh := h.lh
  have hsz : s.size = A.size := by rw [← h.1]; rfl
  unfold logWrite
  simp only [wp_bind, wp_get, wp_ite, wp_throw, wp_modify, wp_pure]
  rw [hlh, hsz]
  refine ⟨fun _ => hE _ _ h.disk, fun hroom => ⟨fun _ => hE _ _ h.disk, fun _ => ?_⟩⟩
  rcases absorb_spec A.lh b A.lh.n (Nat.le_refl _) with hi | ⟨hi, hblk⟩
  · rw [hi]
    refine ⟨fun _ => ?_, fun hne => absurd rfl hne⟩
    have h1 := h.setLh ⟨A.lh.n, update A.lh.block A.lh.n b⟩
    rw [hsz] at h1
    refine wp_bpin h1 hb fun s2 h2 => ?_
    refine hnew (by omega) (by omega) _ ?_
    have h3 := h2.setLh ⟨A.lh.n + 1, update A.lh.block A.lh.n b⟩
    rw [h2.lh]
    exact h3
  · refine ⟨fun he => by omega, fun _ => hold _ hi hblk _ ?_⟩
    have hsame : update A.lh.block (absorb A.lh b A.lh.n) b = A.lh.block :=
      update_eq_self_iff.mpr hblk.symm
    rw [hsame]
    have h1 := h.setLh A.lh
    rw [hsz] at h1
    exact h1

theorem wp_modifyBlock {b : Nat} {d : Block} (hs : Shows s A) (hA : Logging g A H H')
    (hb : ¬InLog g b) (hlt : b < 4294967296) :
    wp (modifyBlock b d)
      (fun _ s' => ∃ B, Shows s' B ∧ Logging g B H (update H' b d) ∧
        B.outstanding = A.outstanding)
      (fun _ s' => Durable g s'.disk H) s := by
  unfold modifyBlock
  simp only [wp_bind]
  have hview : ∀ x, ¬InLog g x → update A.view b d x = update H' b d x := by
    intro x hx
    by_cases hxb : x = b
    · subst x; rw [update_self, update_self]
    · rw [update_of_ne hxb, update_of_ne hxb]; exact hA.view x hx
  refine wp_bread hs fun s1 h1 => wp_setData h1 (by simp [View.hold]) fun s2 h2 => ?_
  refine wp_logWrite h2 (by simp [View.hold, View.store]) ?_ ?_ ?_
  · intro e s' hd
    rw [hd]
    exact hA.durable
  · intro hsm hrm s3 h3
    have hrm' : A.lh.n + 1 < g.size := by rw [← hA.size]; exact hrm
    refine wp_brelse h3 (by simp [View.hold, View.store]) fun s4 h4 => ⟨_, h4, ?_, rfl⟩
    refine ⟨hA.start, hA.size, hA.hdr_empty, hsm, hrm', hA.disk, hview, ?_, ?_⟩
    · intro x hx hne
      have hxb : x ≠ b := by
        intro he; subst x
        exact hne A.lh.n (Nat.lt_succ_self _) (update_self _ _ _)
      simp only [View.drop, View.hold, View.store, update_of_ne hxb]
      refine hA.dirty x hx fun i hi => ?_
      have h' := hne i (Nat.lt_succ_of_lt hi)
      rwa [show ((A.hold b).store b d).lh = A.lh from rfl,
        show (View.drop _ b).lh.block i = update A.lh.block A.lh.n b i from rfl,
        update_of_ne (by omega)] at h'
    · intro i hi
      have hi' : i < A.lh.n + 1 := hi
      change ¬InLog g (update A.lh.block A.lh.n b i) ∧
        update A.lh.block A.lh.n b i < 4294967296 ∧ 1 ≤ _
      by_cases he : i = A.lh.n
      · subst i
        rw [update_self]
        refine ⟨hb, hlt, ?_⟩
        simp [View.drop, View.hold, View.store]
      · obtain ⟨b1, b2, b3⟩ := hA.blocks i (by omega)
        rw [update_of_ne he]
        refine ⟨b1, b2, ?_⟩
        by_cases hbb : A.lh.block i = b
        · simp [View.drop, View.hold, View.store, update_of_ne he, hbb]
        · simpa [View.drop, View.hold, View.store, update_of_ne he,
            update_of_ne hbb] using b3
  · intro i hi hblk s3 h3
    have hi' : i < A.lh.n := hi
    have hblk' : A.lh.block i = b := hblk
    have hpin : 1 ≤ A.ref b := by
      have h' := (hA.blocks i hi').2.2
      rwa [hblk'] at h'
    refine wp_brelse h3 ?_ fun s4 h4 => ⟨_, h4, ?_, rfl⟩
    · intro hr
      simp [View.hold, View.store] at hr
      omega
    · refine ⟨hA.start, hA.size, hA.hdr_empty, hA.small, hA.room, hA.disk, hview, ?_, ?_⟩
      · intro x hx hne
        have hxb : x ≠ b := by intro he; subst x; exact hne i hi' hblk'
        simpa [View.drop, View.hold, View.store, update_of_ne hxb] using
          hA.dirty x hx hne
      · intro j hj
        obtain ⟨b1, b2, b3⟩ := hA.blocks j hj
        refine ⟨b1, b2, ?_⟩
        have hr : ((((A.hold b).store b d).drop b)).ref = A.ref := by
          simp [View.drop, View.hold, View.store]
        rw [hr]
        exact b3

theorem wp_modifyBlocks (t : Txn) (hs : Shows s A) (hA : Logging g A H H') (ht : TxnOk g t) :
    wp (modifyBlocks t)
      (fun _ s' => ∃ B, Shows s' B ∧ Logging g B H (applyTxn t H') ∧
        B.outstanding = A.outstanding)
      (fun _ s' => Durable g s'.disk H) s := by
  induction t generalizing s A H' with
  | nil => exact ⟨A, hs, hA, rfl⟩
  | cons w t ih =>
    obtain ⟨b, d⟩ := w
    obtain ⟨hb, hlt⟩ := ht (b, d) List.mem_cons_self
    have ht' : TxnOk g t := fun w hw => ht w (List.mem_cons_of_mem _ hw)
    simp only [modifyBlocks, wp_bind]
    refine wp_post (wp_modifyBlock hs hA hb hlt) ?_
    rintro _ s1 ⟨B, h1, hB, ho⟩
    refine wp_post (ih h1 hB ht') ?_
    rintro _ s2 ⟨C, h2, hC, ho'⟩
    exact ⟨C, h2, hC, ho'.trans ho⟩

/-! Commit. -/

structure Writing (g : Geometry) (A : View) (i : Nat) (B : View) : Prop where
  start : B.start = A.start
  size : B.size = A.size
  outstanding : B.outstanding = A.outstanding
  lh : B.lh = A.lh
  ref : B.ref = A.ref
  header : B.disk g.start = A.disk g.start
  home : ∀ x, ¬InLog g x → B.disk x = A.disk x ∧ B.view x = A.view x
  copied : ∀ j, j < i → B.disk (g.start + j + 1) = A.view (A.lh.block j) ∧
    B.view (g.start + j + 1) = A.view (A.lh.block j)

theorem wp_writeLog (hs : Shows s A) (hA : Logging g A H H') :
    wp writeLog (fun _ s' => ∃ B, Shows s' B ∧ Writing g A A.lh.n B)
      (fun _ s' => Durable g s'.disk H) s := by
  unfold writeLog
  simp only [wp_bind, wp_get]
  rw [hs.lh]
  refine wp_forUpto (fun i s' => ∃ B, Shows s' B ∧ Writing g A i B) ?_ ?_
  · exact ⟨A, hs, rfl, rfl, rfl, rfl, rfl, rfl, fun _ _ => ⟨rfl, rfl⟩, by intro j hj; omega⟩
  rintro i hi t ⟨B, ht, hB⟩
  obtain ⟨hhome, -, hpin⟩ := hA.blocks i hi
  have hlog := in_log g hi hA.room
  have hne : A.lh.block i ≠ g.start + i + 1 := by intro he; rw [he] at hhome; exact hhome hlog
  simp only [wp_bind, wp_get]
  rw [ht.start, ht.lh, hB.start, hB.lh, hA.start]
  refine wp_bread ht fun t1 h1 => wp_bread h1 fun t2 h2 => wp_bdata h2 ?_
  refine wp_setData h2 ?_ fun t3 h3 => ?_
  · simp [View.hold, update_of_ne (Ne.symm hne)]
  refine wp_bwrite h3 ?_ fun t4 h4 => wp_brelse h4 ?_ fun t5 h5 => wp_brelse h5 ?_ fun t6 h6 => ?_
  · intro _
    rw [h3.disk]
    refine Durable.of_empty ?_ fun x hx => ((hB.home x hx).1).trans (hA.disk x hx)
    have hh := hA.hdr_empty
    rwa [← hdr_congr hB.header] at hh
  · intro hr
    have hr' : A.ref (A.lh.block i) + 1 = 1 := by
      simpa [View.hold, View.store, View.write, update_of_ne hne, hB.ref] using hr
    omega
  · intro _
    simp [View.hold, View.store, View.write, View.drop]
  · refine ⟨_, h6, hB.start, hB.size, hB.outstanding, hB.lh, ?_, ?_, ?_, ?_⟩
    · rw [← hB.ref]
      simp [View.hold, View.store, View.write, View.drop]
    · rw [← hB.header]
      exact update_of_ne (by omega) _ _
    · intro x hx
      have hxl : x ≠ g.start + i + 1 := by intro he; subst x; exact hx hlog
      rw [← (hB.home x hx).1, ← (hB.home x hx).2]
      exact ⟨update_of_ne hxl _ _, update_of_ne hxl _ _⟩
    · intro j hj
      have hsrc : B.view (A.lh.block i) = A.view (A.lh.block i) := (hB.home _ hhome).2
      by_cases hji : j = i
      · subst j
        rw [← hsrc]
        constructor <;> simp [View.hold, View.store, View.write, View.drop]
      · have hjl : g.start + j + 1 ≠ g.start + i + 1 := by omega
        obtain ⟨c1, c2⟩ := hB.copied j (by omega)
        rw [← c1]
        refine ⟨?_, ?_⟩
        · exact update_of_ne hjl _ _
        · rw [c1, ← c2]
          exact update_of_ne hjl _ _

theorem installable_of_written (hA : Logging g A H H') (hB : Writing g A A.lh.n B) :
    Installable g (headWritten B) H' := by
  have hst : B.start = g.start := hB.start.trans hA.start
  have hlt : ∀ i, i < B.lh.n → B.lh.block i < 4294967296 := by
    rw [hB.lh]; exact fun i hi => (hA.blocks i hi).2.1
  have hsm : B.lh.n ≤ LOGSIZE := by rw [hB.lh]; exact hA.small
  have hn : (hdr g (headWritten B).disk).n = A.lh.n := by
    simp only [hdr, headWritten, hst, update_self]
    rw [putHeader_n _ _ hsm hlt, hB.lh]
  have hblk : ∀ i, i < A.lh.n → (hdr g (headWritten B).disk).block i = A.lh.block i := by
    intro i hi
    simp only [hdr, headWritten, hst, update_self]
    rw [putHeader_block _ _ hsm hlt (by rw [hB.lh]; exact hi), hB.lh]
  have hkeep : ∀ x, x ≠ g.start → (headWritten B).disk x = B.disk x ∧
      (headWritten B).view x = B.view x := by
    intro x hx
    simp only [headWritten, hst]
    exact ⟨update_of_ne hx _ _, update_of_ne hx _ _⟩
  have hhome : ∀ x, ¬InLog g x → x ≠ g.start := by
    intro x hx he; subst x; exact hx (header_in_log g)
  refine ⟨hst, ⟨?_, ?_, ?_, ?_, ?_⟩, ?_, ?_, ?_, ?_⟩
  · rw [hn]; exact hA.room
  · rw [hn]; exact hA.small
  · intro i hi
    rw [hn] at hi
    rw [hblk i hi]
    exact (hA.blocks i hi).1
  · intro i hi
    rw [hn] at hi
    rw [hblk i hi, (hkeep _ (by omega)).1, (hB.copied i hi).1]
    exact (hA.view _ (hA.blocks i hi).1).symm
  · intro x hx hne
    rw [(hkeep x (hhome x hx)).1, (hB.home x hx).1]
    rw [hn] at hne
    rw [← hA.dirty x hx fun i hi => by rw [← hblk i hi]; exact hne i hi]
    exact (hA.view x hx).symm
  · rw [hn]; exact congrArg LogHeader.n hB.lh
  · intro i hi
    have hi' : i < A.lh.n := by rw [← hB.lh]; exact hi
    rw [hblk i hi', ← hB.lh]
    rfl
  · intro i hi
    have hi' : i < A.lh.n := by rw [← hB.lh]; exact hi
    rw [(hkeep _ (by omega)).1, (hkeep _ (by omega)).2, (hB.copied i hi').1, (hB.copied i hi').2]
  · intro x hx hne
    have hne' : ∀ i, i < A.lh.n → A.lh.block i ≠ x := by
      intro i hi
      rw [← hblk i hi]
      exact hne i (by rw [show (headWritten B).lh = A.lh from hB.lh]; exact hi)
    rw [(hkeep x (hhome x hx)).1, (hkeep x (hhome x hx)).2, (hB.home x hx).1, (hB.home x hx).2]
    exact hA.dirty x hx hne'

theorem wp_commit (hs : Shows s A) (hA : Logging g A H H') (ho : A.outstanding = 0) :
    wp commit (fun _ s' => ∃ B, Shows s' B ∧ Idle g B H')
      (fun _ s' => Durable g s'.disk H ∨ Durable g s'.disk H') s := by
  unfold commit
  simp only [wp_bind, wp_get, wp_ite, wp_pure]
  rw [hs.lh]
  constructor
  · intro _
    refine wp_mono (wp_writeLog hs hA) ?_ fun _ _ h => .inl h
    rintro _ s1 ⟨B, h1, hB⟩
    have hdur : Durable g B.disk H := by
      refine Durable.of_empty ?_ fun x hx => ((hB.home x hx).1).trans (hA.disk x hx)
      rw [hdr_congr hB.header]
      exact hA.hdr_empty
    refine wp_writeHead h1 (fun s' hd _ => .inl (by rw [hd]; exact hdur)) fun s2 h2 => ?_
    have hI := installable_of_written hA hB
    refine wp_mono (wp_installTrans false h2 hI) ?_ fun _ _ h => .inr h.1
    rintro _ s3 ⟨C, h3, hC⟩
    have hsz : C.size = g.size := hC.size.trans (hB.size.trans hA.size)
    have hout : C.outstanding = 0 := hC.outstanding.trans (hB.outstanding.trans ho)
    exact wp_mono (wp_clearHead h3 hC.start hsz hout hC.durable (hC.home hI))
      (fun _ _ h => h) fun _ _ h => .inr h.1
  · intro hn
    -- an empty transaction: nothing is dirty, so the cache already shows the disk
    have hH : ∀ x, ¬InLog g x → A.disk x = H' x := by
      intro x hx
      rw [← hA.dirty x hx fun i hi => by omega]
      exact hA.view x hx
    exact ⟨A, hs, hA.start, hA.size, ho, by omega, hA.hdr_empty, hH, hA.view⟩

theorem wp_transaction (t : Txn) (hs : Shows s A) (hA : Idle g A H) (ht : TxnOk g t) :
    wp (transaction t) (fun _ s' => ∃ B, Shows s' B ∧ Idle g B (applyTxn t H))
      (fun _ s' => Durable g s'.disk H ∨ Durable g s'.disk (applyTxn t H)) s := by
  have ho : s.outstanding = 0 := by rw [← hA.outstanding, ← hs.1]; rfl
  unfold transaction
  simp only [wp_bind, wp_modify]
  have hl := hA.logging
  have hA1 : Logging g { A with outstanding := s.outstanding + 1 } H H :=
    ⟨hl.start, hl.size, hl.hdr_empty, hl.small, hl.room, hl.disk, hl.view, hl.dirty, hl.blocks⟩
  refine wp_mono (wp_modifyBlocks t (hs.setOutstanding _) hA1 ht) ?_ fun _ _ h => .inl h
  rintro _ s1 ⟨B, h1, hB, hBo⟩
  have hB1 : Logging g { B with outstanding := s1.outstanding - 1 } H (applyTxn t H) :=
    ⟨hB.start, hB.size, hB.hdr_empty, hB.small, hB.room, hB.disk, hB.view, hB.dirty, hB.blocks⟩
  refine wp_commit (h1.setOutstanding _) hB1 ?_
  have hs1 : s1.outstanding = B.outstanding := by rw [← h1.1]; rfl
  have hBo' : B.outstanding = s.outstanding + 1 := hBo
  change s1.outstanding - 1 = 0
  omega

/-! Whole runs. -/

theorem runTxns_durable (ts : List Txn) (hs : Shows s A) (hA : Idle g A H)
    (hts : ∀ t ∈ ts, TxnOk g t) :
    ∃ k, (runTxns ts s).1 ≤ k ∧ k ≤ ts.length ∧
      Durable g (runTxns ts s).2.disk (applyTxns (ts.take k) H) := by
  induction ts generalizing s A H with
  | nil => exact ⟨0, Nat.le_refl _, Nat.le_refl _, by
      simpa [runTxns, applyTxns, hs.disk] using hA.durable⟩
  | cons t ts ih =>
    have hw := wp_transaction t hs hA (hts t List.mem_cons_self)
    rcases hr : transaction t s with ⟨r, m⟩
    cases r with
    | ok u =>
      obtain ⟨B, hm, hB⟩ := wp_of_run hw hr
      obtain ⟨k, h1, h2, h3⟩ := ih hm hB fun t' ht' => hts t' (List.mem_cons_of_mem _ ht')
      refine ⟨k+1, ?_, by simpa using h2, ?_⟩
      · simp only [runTxns, hr]; omega
      · simpa only [runTxns, hr, List.take_succ_cons, applyTxns, List.foldl_cons] using h3
    | error e =>
      simp only [runTxns, hr]
      rcases wp_of_stop hw hr with h0 | h1
      · exact ⟨0, Nat.le_refl _, Nat.zero_le _, by simpa [applyTxns] using h0⟩
      · exact ⟨1, Nat.zero_le _, by simp, by simpa [applyTxns] using h1⟩

theorem runEpoch_durable (e : Epoch) {d : Nat → Block} (hd : Durable g d H)
    (hts : ∀ t ∈ e.txns, TxnOk g t) :
    ∃ k, (runEpoch g e d).1 ≤ k ∧ k ≤ e.txns.length ∧
      Durable g (runEpoch g e d).2 (applyTxns (e.txns.take k) H) := by
  have hw := wp_recoverFromLog d e.writes e.victims hd
  unfold runEpoch
  rcases hr : recoverFromLog (bootMachine g d e.writes e.victims) with ⟨r, m⟩
  cases r with
  | ok u =>
    obtain ⟨B, hm, hB⟩ := wp_of_run hw hr
    exact runTxns_durable e.txns hm hB hts
  | error x =>
    exact ⟨0, Nat.le_refl _, Nat.zero_le _, by simpa [applyTxns] using (wp_of_stop hw hr).1⟩

/-- `H'` comes from `H` by the first `k` transactions of each power-on in turn, for one `k`
per power-on that is at least the number of its commits that returned. -/
def Installed : List Epoch → List Nat → (Nat → Block) → (Nat → Block) → Prop
  | [], _, H, H' => H' = H
  | _ :: _, [], _, _ => False
  | e :: es, r :: rs, H, H' => ∃ k, r ≤ k ∧ k ≤ e.txns.length ∧
      Installed es rs (applyTxns (e.txns.take k) H) H'

theorem runEpochs_durable (es : List Epoch) {d : Nat → Block} (hd : Durable g d H)
    (hts : ∀ e ∈ es, ∀ t ∈ e.txns, TxnOk g t) :
    ∃ H', Installed es (runEpochs g es d).1 H H' ∧ Durable g (runEpochs g es d).2 H' := by
  induction es generalizing d H with
  | nil => exact ⟨H, rfl, hd⟩
  | cons e es ih =>
    obtain ⟨k, h1, h2, h3⟩ := runEpoch_durable e hd (hts e List.mem_cons_self)
    obtain ⟨H', h4, h5⟩ := ih h3 fun e' he' => hts e' (List.mem_cons_of_mem _ he')
    exact ⟨H', ⟨k, h1, h2, h4⟩, h5⟩

/-- Crash atomicity of the redo log, over any number of power-ons with any crash points: a
recovery that completes leaves, at every home block, the first `k` transactions of each
power-on and nothing else; and with enough writes left it does complete. -/
theorem recovery_installs_whole_transactions (g : Geometry) (d : Nat → Block) (es : List Epoch)
    (w : Nat) (v : List Nat) (hempty : (hdr g d).n = 0)
    (hts : ∀ e ∈ es, ∀ t ∈ e.txns, TxnOk g t) :
    ∃ H', Installed es (runEpochs g es d).1 d H' ∧
      (∀ m, recoverFromLog (bootMachine g (runEpochs g es d).2 w v) = (.ok (), m) →
        ∀ x, ¬InLog g x → m.disk x = H' x) ∧
      (LOGSIZE < w → ∃ m, recoverFromLog (bootMachine g (runEpochs g es d).2 w v) = (.ok (), m)) := by
  have hd : Durable g d d := Durable.of_empty hempty fun _ _ => rfl
  obtain ⟨H', h1, h2⟩ := runEpochs_durable es hd hts
  have hw := wp_recoverFromLog (runEpochs g es d).2 w v h2
  refine ⟨H', h1, ?_, ?_⟩
  · intro m hm x hx
    obtain ⟨B, hs, hB⟩ := wp_of_run hw hm
    rw [hs.disk]
    exact hB.disk x hx
  · intro hlt
    rcases hr : recoverFromLog (bootMachine g (runEpochs g es d).2 w v) with ⟨r, m⟩
    cases r with
    | ok u => exact ⟨m, rfl⟩
    | error e =>
      have hs := (wp_of_stop hw hr).2
      have hsm := h2.small
      omega

def mkfsGeometry : Geometry := ⟨2, LOGSIZE, by decide, by decide⟩

def tornEpoch : Epoch := ⟨[[(70, Block.zero.setByte 0 7), (71, Block.zero.setByte 5 9)]], 4, [70]⟩

theorem recovery_after_torn_epoch :
    ∃ H', Installed [tornEpoch] (runEpochs mkfsGeometry [tornEpoch] fun _ => Block.zero).1
        (fun _ => Block.zero) H' ∧
      (∀ m, recoverFromLog (bootMachine mkfsGeometry
          (runEpochs mkfsGeometry [tornEpoch] fun _ => Block.zero).2 31 []) = (.ok (), m) →
        ∀ x, ¬InLog mkfsGeometry x → m.disk x = H' x) ∧
      (LOGSIZE < 31 → ∃ m, recoverFromLog (bootMachine mkfsGeometry
          (runEpochs mkfsGeometry [tornEpoch] fun _ => Block.zero).2 31 []) = (.ok (), m)) := by
  refine recovery_installs_whole_transactions mkfsGeometry (fun _ => Block.zero) [tornEpoch] 31 []
    (by simp [hdr]) ?_
  intro e he t ht w hw
  simp only [List.mem_singleton] at he
  subst he
  simp only [tornEpoch, List.mem_singleton] at ht
  subst ht
  simp only [List.mem_cons, List.not_mem_nil, or_false] at hw
  rcases hw with rfl | rfl <;> decide

end Xv6Audit.Log
