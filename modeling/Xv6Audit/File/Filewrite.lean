import Xv6Audit.Fs.FileBytes
import Xv6Audit.Log.Ops

/-! `filewrite` on an inode by several processes that share one `struct file`. Every chunk is
written, and the offset moved, under the inode's lock; between two chunks of one call any
chunks of the others may come. -/
namespace Xv6Audit.Filewrite
open Function

open Prog Disk FileSys

def chunkMax : Nat := (Log.MAXOPBLOCKS - 1 - 1 - 2) / 2 * BSIZE

structure Call where
  buf : List UInt8
  i : Nat
  ret : Option Int

structure Shared (n : Nat) where
  fs : Fs
  ip : Fin NINODE
  off : Nat
  calls : Fin n → Call

def Call.chunk (c : Call) : List UInt8 := (c.buf.drop c.i).take chunkMax

variable {n : Nat}

def writeChunk (ip : Fin NINODE) (off : Nat) (chunk : List UInt8) : FsProg Int := do
  ilock ip
  let r ← writei ip (fun j => chunk[j]?) off chunk.length
  iunlock ip
  pure r

def Call.next (c : Call) (r : Int) : Call :=
  if r = c.chunk.length then { c with i := c.i + r.toNat } else { c with ret := some (-1) }

def Call.finish (c : Call) : Call :=
  { c with ret := some (if c.i = c.buf.length then c.buf.length else -1) }

def step (st : Shared n) (p : Fin n) : Option (Shared n) :=
  let c := st.calls p
  match c.ret with
  | some _ => none
  | none =>
    if c.i < c.buf.length then
      match writeChunk st.ip st.off c.chunk st.fs with
      | (.ok r, fs) =>
        let off := if 0 < r then st.off + r.toNat else st.off
        some { st with fs := fs, off := off, calls := update st.calls p (c.next r) }
      | (.error _, _) => none
    else some { st with calls := update st.calls p c.finish }

def Succeeds (st : Shared n) (p : Fin n) : Prop :=
  (st.calls p).i < (st.calls p).buf.length →
    (writeChunk st.ip st.off (st.calls p).chunk st.fs).1.toOption =
      some ((st.calls p).chunk.length : Int)

instance (st : Shared n) (p : Fin n) : Decidable (Succeeds st p) :=
  inferInstanceAs (Decidable (_ → _))

structure Ready (st : Shared n) : Prop where
  wf : WellFormed st.fs
  live : st.fs.live st.ip

def Shared.file (st : Shared n) : List UInt8 := st.fs.file (st.fs.itable st.ip).inum

def merged (chunks : List (Fin n × List UInt8)) : List UInt8 := (chunks.map Prod.snd).flatten

def chunksOf (chunks : List (Fin n × List UInt8)) (p : Fin n) : List (List UInt8) :=
  (chunks.filter fun c => c.1 = p).map Prod.snd

def pieces {α : Type*} (m : Nat) (l : List α) (k : Nat) : List (List α) :=
  (List.range k).map fun j => (l.drop (j * m)).take m

structure Progress (c c' : Call) (mine : List (List UInt8)) : Prop where
  buf : c'.buf = c.buf
  part : mine = pieces chunkMax c'.buf mine.length
  done : c'.i = min (mine.length * chunkMax) c'.buf.length
  last : mine.length ≤ (c'.buf.length + chunkMax - 1) / chunkMax
  ret : ∀ r, c'.ret = some r → c'.i = c'.buf.length ∧ r = c'.buf.length

structure Merged (st st' : Shared n) (chunks : List (Fin n × List UInt8)) : Prop where
  ready : Ready st'
  ip : st'.ip = st.ip
  inum : (st'.fs.itable st.ip).inum = (st.fs.itable st.ip).inum
  off : st'.off = st.off + (merged chunks).length
  file : st'.file = overwrite st.file st.off (merged chunks)
  start : chunks ≠ [] → st.off ≤ st.file.length
  calls : ∀ p, Progress (st.calls p) (st'.calls p) (chunksOf chunks p)

section
variable {st st' : Shared n} {chunks : List (Fin n × List UInt8)} {p : Fin n}

theorem overwrite_append (old buf more : List UInt8) {off : Nat} (h : off ≤ old.length) :
    overwrite (overwrite old off buf) (off + buf.length) more = overwrite old off (buf ++ more) := by
  have hlen : off + buf.length ≤ (overwrite old off buf).length := by
    simp only [overwrite, List.length_append, List.length_take, List.length_drop]
    omega
  refine List.ext_getElem? fun k => ?_
  rw [overwrite_getElem? _ _ hlen, overwrite_getElem? _ _ h, overwrite_getElem? _ _ h,
    List.length_append]
  by_cases h1 : off + buf.length ≤ k ∧ k < off + buf.length + more.length
  · rw [if_pos h1, if_pos (by omega), List.getElem?_append_right (by omega)]
    congr 1
    omega
  · rw [if_neg h1]
    by_cases h2 : off ≤ k ∧ k < off + buf.length
    · rw [if_pos h2, if_pos (by omega), List.getElem?_append_left (by omega)]
    · rw [if_neg h2, if_neg (by omega)]

theorem pieces_succ {α : Type*} (m : Nat) (l : List α) (k : Nat) :
    pieces m l (k + 1) = pieces m l k ++ [(l.drop (k * m)).take m] := by
  simp [pieces, List.range_succ]

theorem flatten_pieces {α : Type*} (m : Nat) (l : List α) (k : Nat) :
    (pieces m l k).flatten = l.take (k * m) := by
  induction k with
  | zero => simp [pieces]
  | succ k ih =>
    rw [pieces_succ, List.flatten_append, ih, List.flatten_singleton, Nat.succ_mul, List.take_add]

theorem merged_append (xs ys : List (Fin n × List UInt8)) :
    merged (xs ++ ys) = merged xs ++ merged ys := by
  simp [merged]

theorem chunksOf_append (xs ys : List (Fin n × List UInt8)) (p : Fin n) :
    chunksOf (xs ++ ys) p = chunksOf xs p ++ chunksOf ys p := by
  simp [chunksOf]

theorem wp_writeChunk {fs : Fs} {ip : Fin NINODE} (h : WellFormed fs) (hl : fs.live ip) (off : Nat)
    (chunk : List UInt8) (hlen : chunk.length < U32) :
    wp (writeChunk ip off chunk) (fun r gs => r = chunk.length → WellFormed gs ∧ gs.live ip ∧
      (gs.itable ip).inum = (fs.itable ip).inum ∧ off ≤ (fs.file (fs.itable ip).inum).length ∧
      gs.file (fs.itable ip).inum = overwrite (fs.file (fs.itable ip).inum) off chunk)
      (fun _ _ => True) fs := by
  simp only [writeChunk, wp_bind]
  refine wp_ilock h (fun _ _ _ => trivial) ?_
  intro ip' hg hl' hip' _
  obtain ⟨gs, hgs⟩ : ∃ gs, gs = fs.setInode ip ip' := ⟨_, rfl⟩
  have hent : gs.itable ip = ip' := by
    rw [hgs]
    exact update_self ..
  have hfile : ∀ i, gs.file i = fs.file i := by
    intro i
    rw [hgs]
    rfl
  rw [← hgs] at hg ⊢
  have hgl : gs.live ip := by
    unfold Fs.live
    rw [hent, hip']
    exact hl
  have hgv : (gs.itable ip).valid = true := by rw [hent, hip']
  have hgi : (gs.itable ip).inum = (fs.itable ip).inum := by rw [hent, hip']
  have hfail : ∀ {ks : Fs}, wp (iunlock ip) (fun _ ls => ((-1 : Int) = chunk.length →
      WellFormed ls ∧ ls.live ip ∧
      (ls.itable ip).inum = (fs.itable ip).inum ∧ off ≤ (fs.file (fs.itable ip).inum).length ∧
      ls.file (fs.itable ip).inum = overwrite (fs.file (fs.itable ip).inum) off chunk))
      (fun _ _ => True) ks := by
    intro ks
    refine wp_mono (wp_self _) (fun _ _ _ hr => ?_) fun _ _ _ => trivial
    omega
  by_cases hoff : off ≤ (gs.itable ip).d.size
  · refine wp_writei hg hgl hgv _ off _ hlen hfail ?_
    intro tot ks hk hw
    have hkl : ks.live ip := by
      unfold Fs.live
      rw [hw.entry]
      exact hgl
    refine wp_iunlock hk (fun _ => trivial) fun _ hdone hr => ?_
    obtain rfl : tot = chunk.length := Int.ofNat_inj.mp hr
    have hd := (hg.table.cached ip hgl hgv).1
    have hold := hw.file hg hk hgl hgv (fun _ _ => rfl) hoff fun k hlo hk' =>
      hw.old _ _ (hd ▸ (hg.table.cached ip hgl hgv).2) (hd ▸ hk') fun _ => .inr hlo
    rw [hgi, hfile] at hold
    refine ⟨hdone, ?_, ?_, ?_, hold⟩
    · simp only [Fs.live, Fs.setInode, update_self]
      exact hkl
    · simp only [Fs.setInode, update_self]
      rw [hw.entry]
      exact hgi
    · rw [← hfile, file_length, ← hgi, ← hd]
      exact hoff
  · exact wp_writei_beyond (by omega) _ _ hfail

theorem Merged.refl (h : Ready st) (hfresh : ∀ p, (st.calls p).i = 0 ∧ (st.calls p).ret = none) :
    Merged st st [] where
  ready := h
  ip := rfl
  inum := rfl
  off := rfl
  file := (overwrite_nil _ _).symm
  start := fun hne => absurd rfl hne
  calls := fun p => by
    obtain ⟨hi, hret⟩ := hfresh p
    refine ⟨rfl, rfl, by simp [hi, chunksOf], Nat.zero_le _, fun r hr => ?_⟩
    rw [hret] at hr
    cases hr

theorem chunk_length_le (c : Call) : c.chunk.length ≤ chunkMax := by
  simp only [Call.chunk, List.length_take]
  omega

theorem chunk_length (c : Call) (h : c.i < c.buf.length) :
    0 < c.chunk.length ∧ c.i + c.chunk.length ≤ c.buf.length := by
  have hmax : 0 < chunkMax := by decide
  simp only [Call.chunk, List.length_take, List.length_drop]
  omega

theorem step_cases (h : Ready st) (hok : Succeeds st p) (hs : step st p = some st') :
    (∃ gs, (st.calls p).ret = none ∧ (st.calls p).i < (st.calls p).buf.length ∧
      WellFormed gs ∧ gs.live st.ip ∧ (gs.itable st.ip).inum = (st.fs.itable st.ip).inum ∧
      st.off ≤ st.file.length ∧
      gs.file (st.fs.itable st.ip).inum = overwrite st.file st.off (st.calls p).chunk ∧
      st' = { st with
        fs := gs
        off := st.off + (st.calls p).chunk.length
        calls := update st.calls p
          { st.calls p with i := (st.calls p).i + (st.calls p).chunk.length } }) ∨
    (st.calls p).buf.length ≤ (st.calls p).i ∧
      st' = { st with calls := update st.calls p (st.calls p).finish } := by
  obtain ⟨c, hc⟩ : ∃ c, c = st.calls p := ⟨_, rfl⟩
  unfold step at hs
  unfold Succeeds at hok
  rw [← hc] at hs hok ⊢
  cases hret : c.ret with
  | some r => simp [hret] at hs
  | none =>
    simp only [hret] at hs
    by_cases hi : c.i < c.buf.length
    · have hlen : c.chunk.length < U32 := Nat.lt_of_le_of_lt (chunk_length_le c) (by decide)
      have hpos := (chunk_length c hi).1
      have hr := hok hi
      rw [if_pos hi] at hs
      obtain ⟨r, gs, hrun, hpost⟩ | ⟨e, gs, hrun, -⟩ :=
        wp_cases (wp_writeChunk h.wf h.live st.off c.chunk hlen)
      · rw [hrun] at hs hr
        obtain rfl : r = (c.chunk.length : Int) := Option.some.inj hr
        obtain ⟨hwf, hl, hinum, hstart, hfile⟩ := hpost rfl
        refine .inl ⟨gs, rfl, hi, hwf, hl, hinum, hstart, hfile, ?_⟩
        have hcast : (0 : Int) < c.chunk.length := by omega
        simp only [Call.next, hcast, if_true, Int.toNat_natCast] at hs
        exact (Option.some.inj hs).symm
      · rw [hrun] at hs
        cases hs
    · rw [if_neg hi] at hs
      exact .inr ⟨by omega, (Option.some.inj hs).symm⟩

variable {mine : List (List UInt8)}

theorem Progress.write {c c' : Call} (h : Progress c c' mine) (hret : c'.ret = none)
    (hi : c'.i < c'.buf.length) :
    Progress c { c' with i := c'.i + c'.chunk.length } (mine ++ [c'.chunk]) := by
  have hmax : 0 < chunkMax := by decide
  have hat : c'.i = mine.length * chunkMax := by
    have := h.done
    omega
  have hlen : (mine ++ [c'.chunk]).length = mine.length + 1 := by simp
  have hmul : (mine.length + 1) * chunkMax = c'.i + chunkMax := by rw [Nat.succ_mul, hat]
  refine ⟨h.buf, ?_, ?_, ?_, fun r hr => ?_⟩
  · rw [hlen, pieces_succ, ← h.part, ← hat]
    rfl
  · rw [hlen, hmul]
    simp only [Call.chunk, List.length_take, List.length_drop]
    omega
  · rw [hlen, Nat.le_div_iff_mul_le hmax, hmul]
    change c'.i + chunkMax ≤ c'.buf.length + chunkMax - 1
    omega
  · cases hret.symm.trans hr

theorem Progress.finish {c c' : Call} (h : Progress c c' mine) (hi : c'.buf.length ≤ c'.i) :
    Progress c c'.finish mine := by
  have heq : c'.i = c'.buf.length := by
    have := h.done
    omega
  refine ⟨h.buf, h.part, h.done, h.last, fun r hr => ⟨heq, ?_⟩⟩
  have hval := Option.some.inj hr
  rw [if_pos heq] at hval
  exact hval.symm

theorem Progress.whole {c c' : Call} (h : Progress c c' mine) (hi : c'.i = c'.buf.length) :
    mine = pieces chunkMax c.buf ((c.buf.length + chunkMax - 1) / chunkMax) := by
  have hmax : 0 < chunkMax := by decide
  have hge : (c'.buf.length + chunkMax - 1) / chunkMax ≤ mine.length := by
    have hle : c'.buf.length ≤ mine.length * chunkMax := by
      have := h.done
      omega
    rw [← Nat.lt_succ_iff, Nat.div_lt_iff_lt_mul hmax, Nat.succ_mul]
    omega
  rw [← h.buf, ← Nat.le_antisymm h.last hge]
  exact h.part

theorem Merged.step {st'' : Shared n} (h : Merged st st' chunks) (hok : Succeeds st' p)
    (hs : Filewrite.step st' p = some st'') : ∃ more, Merged st st'' (chunks ++ more) := by
  have hip := h.ip
  obtain ⟨gs, hret, hi, hwf, hl, hinum, hstart, hfile, rfl⟩ | ⟨hi, rfl⟩ :=
    step_cases h.ready hok hs
  · obtain ⟨c, hc⟩ : ∃ c, c = (st'.calls p).chunk := ⟨_, rfl⟩
    rw [← hc] at hfile ⊢
    have hone : merged (chunks ++ [(p, c)]) = merged chunks ++ c := by
      rw [merged_append]
      simp [merged]
    have hbegin : st.off ≤ st.file.length := by
      by_cases h0 : chunks = []
      · have hoff := h.off
        have hsame := h.file
        rw [h0] at hoff hsame
        rw [hsame, hoff] at hstart
        simpa [merged, overwrite_nil] using hstart
      · exact h.start h0
    refine ⟨[(p, c)], ⟨hwf, hl⟩, hip, ?_, ?_, ?_, fun _ => hbegin, ?_⟩
    · rw [← hip]
      exact hinum.trans (by rw [hip]; exact h.inum)
    · rw [hone, List.length_append]
      change st'.off + c.length = _
      rw [h.off, Nat.add_assoc]
    · change gs.file (gs.itable st'.ip).inum = _
      rw [hinum, hfile, hone, h.file, h.off, overwrite_append _ _ _ hbegin]
    · intro q
      rw [chunksOf_append]
      by_cases hq : q = p
      · subst q
        have hmine : chunksOf [(p, c)] p = [c] := by simp [chunksOf]
        simp only [update_self]
        rw [hmine, hc]
        exact (h.calls p).write hret hi
      · have hnone : chunksOf [(p, c)] q = [] := by simp [chunksOf, Ne.symm hq]
        simp only [update_of_ne hq]
        rw [hnone, List.append_nil]
        exact h.calls q
  · refine ⟨[], ?_⟩
    rw [List.append_nil]
    refine ⟨⟨h.ready.wf, h.ready.live⟩, hip, h.inum, h.off, h.file, h.start, fun q => ?_⟩
    by_cases hq : q = p
    · subst q
      simp only [update_self]
      exact (h.calls p).finish hi
    · simp only [update_of_ne hq]
      exact h.calls q

theorem Merged.run {run : List (Fin n)} (h : Merged st st [])
    (hok : Run.Along Filewrite.step Succeeds st run)
    (hrun : Run.exec Filewrite.step st run = some st') : ∃ chunks, Merged st st' chunks := by
  refine Run.exec_inv (I := fun t => ∃ chunks, Merged st t chunks) ?_ ⟨[], h⟩ hok hrun
  rintro s s' p ⟨chunks, hs⟩ hp hstep
  obtain ⟨more, hmore⟩ := hs.step hp hstep
  exact ⟨_, hmore⟩

theorem merged_length (chunks : List (Fin n × List UInt8)) :
    (merged chunks).length = ∑ p, (chunksOf chunks p).flatten.length := by
  induction chunks with
  | nil => simp [merged, chunksOf]
  | cons c rest ih =>
    have hsplit : ∀ p, (chunksOf (c :: rest) p).flatten.length =
        (if p = c.1 then c.2.length else 0) + (chunksOf rest p).flatten.length := by
      intro p
      by_cases hp : c.1 = p
      · simp [chunksOf, hp]
      · simp [chunksOf, hp, Ne.symm hp]
    have hcons : merged (c :: rest) = c.2 ++ merged rest := by simp [merged]
    rw [hcons, List.length_append, ih]
    simp only [hsplit, Finset.sum_add_distrib, Finset.sum_ite_eq', Finset.mem_univ, if_true]

end

/-- Any interleaving of writers that share a `struct file`, all of whose chunks succeed, puts a
merge of their buffers at the offset: the chunks of each writer are its buffer cut every
`3 * BSIZE` bytes, in order, each of them as a whole. -/
theorem writers_merge (st st' : Shared n) (run : List (Fin n)) (h : Ready st)
    (hfresh : ∀ p, (st.calls p).i = 0 ∧ (st.calls p).ret = none)
    (hok : Run.Along step Succeeds st run) (hrun : Run.exec step st run = some st')
    (hdone : ∀ p, (st'.calls p).ret ≠ none) :
    st'.off = st.off + ∑ p, (st.calls p).buf.length ∧
    (∀ p, (st'.calls p).ret = some ((st.calls p).buf.length : Int)) ∧
    ∃ chunks : List (Fin n × List UInt8),
      st'.file = overwrite st.file st.off (merged chunks) ∧
      ∀ p, chunksOf chunks p = pieces (3 * BSIZE) (st.calls p).buf
          (((st.calls p).buf.length + 3 * BSIZE - 1) / (3 * BSIZE)) ∧
        (chunksOf chunks p).flatten = (st.calls p).buf := by
  obtain ⟨chunks, hm⟩ := (Merged.refl h hfresh).run hok hrun
  have hret : ∀ p, (st'.calls p).ret = some ((st.calls p).buf.length : Int) ∧
      chunksOf chunks p = pieces chunkMax (st.calls p).buf
        (((st.calls p).buf.length + chunkMax - 1) / chunkMax) := by
    intro p
    obtain ⟨r, hr⟩ := Option.ne_none_iff_exists'.mp (hdone p)
    have hp := hm.calls p
    obtain ⟨hi, hval⟩ := hp.ret r hr
    rw [hp.buf] at hval
    exact ⟨hr.trans (congrArg some hval), hp.whole hi⟩
  have hflat : ∀ p, (chunksOf chunks p).flatten = (st.calls p).buf := by
    intro p
    have hmax : 0 < chunkMax := by decide
    rw [(hret p).2, flatten_pieces, List.take_of_length_le]
    have := Nat.lt_div_mul_add hmax (a := (st.calls p).buf.length + chunkMax - 1)
    omega
  refine ⟨?_, fun p => (hret p).1, chunks, hm.file, fun p => ⟨(hret p).2, hflat p⟩⟩
  rw [hm.off, merged_length]
  simp only [hflat]

def sharedFile : List FsCall := smallFile ++ [.iunlock 0]

def twoWriters (fs : Fs) : Shared 2 := ⟨fs, 0, 1, ![⟨[1, 2], 0, none⟩, ⟨[3], 0, none⟩]⟩

section
attribute [local irreducible] Run.exec Run.Along

theorem writers_merge_two : ∃ fs st', Run.exec FileSys.step blankFs sharedFile = some fs ∧
    Run.exec step (twoWriters fs) [1, 0, 1, 0] = some st' ∧ st'.off = 1 + (2 + 1) ∧
    ∃ chunks : List (Fin 2 × List UInt8), st'.file = overwrite [7, 7] 1 (merged chunks) ∧
      chunksOf chunks 0 = [[1, 2]] := by
  have hal : Run.Along FileSys.step Allowed blankFs sharedFile := by decide +kernel
  have hstart : (Run.exec FileSys.step blankFs sharedFile).map (fun fs => decide (fs.live 0 ∧
      fs.file (fs.itable 0).inum = ([7, 7] : List UInt8) ∧
      Run.Along step Succeeds (twoWriters fs) [1, 0, 1, 0]) &&
      ((Run.exec step (twoWriters fs) [1, 0, 1, 0]).map fun st' =>
        decide (∀ p, (st'.calls p).ret ≠ none)) == some true) = some true := by decide +kernel
  obtain ⟨fs, hfs, hd⟩ := Option.map_eq_some_iff.mp hstart
  obtain ⟨h1, h2⟩ := Bool.and_eq_true_iff.mp hd
  obtain ⟨hl, hfile, hok⟩ := of_decide_eq_true h1
  obtain ⟨st', hrun, hdone⟩ := Option.map_eq_some_iff.mp (eq_of_beq h2)
  have hwf := blankFs_wellFormed.run hal hfs
  obtain ⟨hoff, -, chunks, hnew, hcut⟩ := writers_merge (twoWriters fs) st' [1, 0, 1, 0] ⟨hwf, hl⟩
    (Fin.forall_fin_two.mpr ⟨⟨rfl, rfl⟩, rfl, rfl⟩) hok hrun (of_decide_eq_true hdone)
  refine ⟨fs, st', hfs, hrun, ?_, chunks, ?_, (hcut 0).1.trans (by simp [twoWriters, pieces, BSIZE])⟩
  · rw [hoff]
    rfl
  · rw [hnew]
    change overwrite (fs.file (fs.itable 0).inum) 1 _ = _
    rw [hfile]

end

end Xv6Audit.Filewrite
