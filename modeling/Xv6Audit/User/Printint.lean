import Mathlib.Data.Nat.Digits.Lemmas

/-! `printint` of `kernel/printf.c` and of `user/printf.c`, and `atoi` of `user/ulib.c`. -/
namespace Xv6Audit.Strings

/-- `do { buf[i++] = digits[x % base]; } while((x /= base) != 0);`, as the list of what is stored.
A `uint` has no more than 32 digits. -/
def digitLoop (digits : Nat → UInt8) (base : UInt32) : Nat → UInt32 → List UInt8
  | 0, _ => []
  | k+1, x => digits (x % base).toNat ::
      if x / base ≠ 0 then digitLoop digits base k (x / base) else []

def numberBuf (digits : Nat → UInt8) (xx base : Int32) (neg : Bool) : List UInt8 :=
  digitLoop digits base.toUInt32 32 (if neg then -xx else xx).toUInt32 ++ if neg then [45] else []

def lower (d : Nat) : UInt8 := UInt8.ofNat (if d < 10 then 48 + d else 87 + d)
def upper (d : Nat) : UInt8 := UInt8.ofNat (if d < 10 then 48 + d else 55 + d)

def printint (xx base sign : Int32) : List UInt8 :=
  (numberBuf lower xx base (sign ≠ 0 ∧ xx < 0)).reverse

def uprintint (xx base sgn : Int32) : List UInt8 :=
  (numberBuf upper xx base (sgn ≠ 0 ∧ xx < 0)).reverse

def atoiLoop : Int32 → List UInt8 → Int32
  | n, [] => n
  | n, c :: s =>
    if 48 ≤ c ∧ c ≤ 57 then atoiLoop (n * 10 + Int32.ofNat c.toNat - 48) s else n

def atoi (s : List UInt8) : Int32 := atoiLoop 0 s

structure Numeral (digits : Nat → UInt8) (base v : Nat) (ds : List Nat) (text : List UInt8) :
    Prop where
  text : text = ds.map digits
  small : ∀ d ∈ ds, d < base
  value : Nat.ofDigits base ds.reverse = v
  canonical : ds = [0] ∨ ∃ d rest, ds = d :: rest ∧ d ≠ 0

def Reads (digits : Nat → UInt8) (base : Nat) (v : Int) (text : List UInt8) : Prop :=
  ∃ ds t, Numeral digits base v.natAbs ds t ∧ text = if v < 0 then 45 :: t else t

section
variable {digits : Nat → UInt8} {b : UInt32} {x : UInt32}

def canon (b n : Nat) : List Nat := if n = 0 then [0] else b.digits n

theorem digitLoop_eq {k : Nat} (hb : 1 < b.toNat) (hx : x.toNat < b.toNat ^ k) (hk : 0 < k) :
    digitLoop digits b k x = (canon b.toNat x.toNat).map digits := by
  induction k generalizing x with
  | zero => exact absurd hk (Nat.lt_irrefl 0)
  | succ k ih =>
    have hdiv := UInt32.toNat_div x b
    rw [digitLoop, UInt32.toNat_mod]
    by_cases hq : x / b = 0
    · -- the last digit
      have hlt : x.toNat < b.toNat := by
        rw [hq] at hdiv
        exact (Nat.div_eq_zero_iff_lt (by omega)).mp hdiv.symm
      rw [if_neg (not_not.mpr hq), Nat.mod_eq_of_lt hlt, canon]
      by_cases h0 : x.toNat = 0
      · rw [if_pos h0, h0]
        rfl
      · rw [if_neg h0, Nat.digits_of_lt b.toNat x.toNat h0 hlt]
        rfl
    · have hpos : 0 < x.toNat / b.toNat := by
        rw [← hdiv]
        exact Nat.pos_of_ne_zero fun h0 => hq (UInt32.toNat_inj.mp h0)
      have hx0 : 0 < x.toNat := Nat.pos_of_ne_zero fun h0 => by
        rw [h0, Nat.zero_div] at hpos
        exact Nat.lt_irrefl 0 hpos
      have hk' : 0 < k := Nat.pos_of_ne_zero fun h0 => by
        rw [h0, Nat.pow_one] at hx
        rw [Nat.div_eq_of_lt hx] at hpos
        exact Nat.lt_irrefl 0 hpos
      have hlt : (x / b).toNat < b.toNat ^ k := by
        rw [hdiv]
        exact Nat.div_lt_of_lt_mul (by rwa [Nat.pow_succ, Nat.mul_comm] at hx)
      rw [if_pos hq, ih hlt hk', hdiv, canon, canon, if_neg (by omega), if_neg (by omega),
        Nat.digits_def' hb hx0, List.map_cons]

theorem canon_numeral {b n : Nat} (hb : 1 < b) :
    Numeral digits b n (canon b n).reverse ((canon b n).map digits).reverse := by
  refine ⟨(List.map_reverse ..).symm, fun d hd => ?_, ?_, ?_⟩
  · rw [List.mem_reverse, canon] at hd
    split at hd
    · rw [List.mem_singleton] at hd
      omega
    · exact Nat.digits_lt_base hb hd
  · rw [List.reverse_reverse, canon]
    split
    · rename_i h0
      rw [h0, Nat.ofDigits_singleton]
    · exact Nat.ofDigits_digits b n
  · rw [canon]
    split
    · exact .inl rfl
    · rename_i h0
      have hne := Nat.digits_ne_nil_iff_ne_zero (b := b).mpr h0
      refine .inr ⟨(b.digits n).getLast hne, (b.digits n).dropLast.reverse, ?_,
        Nat.getLast_digit_ne_zero b h0⟩
      conv_lhs => rw [← List.dropLast_append_getLast hne]
      rw [List.reverse_append]
      rfl

theorem canon_length {b n k : Nat} (hb : 1 < b) (hk : 0 < k) (hn : n < b ^ k) :
    (canon b n).length ≤ k := by
  rw [canon]
  split
  · exact hk
  · exact (Nat.digits_length_le_iff hb n).mpr hn

theorem toUInt32_toNat (x : Int32) : (x.toUInt32.toNat : Int) = x.toInt % 2 ^ 32 := by
  have h := BitVec.toInt_eq_toNat_cond x.toBitVec
  have hlt := x.toUInt32.toNat_lt
  change (x.toBitVec.toNat : Int) = x.toBitVec.toInt % 2 ^ 32
  change x.toBitVec.toNat < 2 ^ 32 at hlt
  split at h <;> omega

theorem magnitude (xx : Int32) (neg : Bool) (hneg : neg = true → xx < 0) :
    ((if neg then -xx else xx).toUInt32.toNat : Int) =
      if neg then -xx.toInt else xx.toInt % 2 ^ 32 := by
  cases neg with
  | false => exact toUInt32_toNat xx
  | true =>
    have hlt : xx.toInt < 0 := Int32.lt_iff_toInt_lt.mp (hneg rfl)
    have hlo := xx.le_toInt
    have hmod : (-xx).toInt % 2 ^ 32 = -xx.toInt % 2 ^ 32 :=
      (congrArg (· % 2 ^ 32) (Int32.toInt_neg xx)).trans (Int.bmod_emod (m := 2 ^ 32))
    rw [if_pos rfl, if_pos rfl, toUInt32_toNat, hmod]
    omega

theorem numberBuf_eq (digits : Nat → UInt8) (xx : Int32) {base : Nat} (hb : base = 10 ∨ base = 16)
    (neg : Bool) : numberBuf digits xx (Int32.ofNat base) neg =
      (canon base (if neg then -xx else xx).toUInt32.toNat).map digits ++ if neg then [45] else [] := by
  have hbase : (Int32.ofNat base).toUInt32.toNat = base := by rcases hb with rfl | rfl <;> rfl
  have hlt := (if neg then -xx else xx).toUInt32.toNat_lt
  rw [numberBuf, digitLoop_eq (by omega) _ (by omega), hbase]
  rw [hbase]
  rcases hb with rfl | rfl <;> omega

theorem numberBuf_reads (digits : Nat → UInt8) (xx sign : Int32) {base : Nat}
    (hb : base = 10 ∨ base = 16) :
    Reads digits base (if sign ≠ 0 then xx.toInt else xx.toInt % 2 ^ 32)
      (numberBuf digits xx (Int32.ofNat base) (sign ≠ 0 ∧ xx < 0)).reverse ∧
    (numberBuf digits xx (Int32.ofNat base) (sign ≠ 0 ∧ xx < 0)).length ≤ 15 := by
  have hmag := magnitude xx (decide (sign ≠ 0 ∧ xx < 0)) fun h => (of_decide_eq_true h).2
  rw [numberBuf_eq digits xx hb]
  generalize hx : (if decide (sign ≠ 0 ∧ xx < 0) = true then -xx else xx).toUInt32.toNat = x at hmag
  have hlt : x < 2 ^ 32 := hx ▸ UInt32.toNat_lt _
  have hlen : (canon base x).length ≤ 14 := canon_length (by omega) (by decide) (by
    rcases hb with rfl | rfl <;> omega)
  have hnum : Numeral digits base x (canon base x).reverse ((canon base x).map digits).reverse :=
    canon_numeral (by omega)
  by_cases hneg : sign ≠ 0 ∧ xx < 0
  · have hlt0 : xx.toInt < 0 := Int32.lt_iff_toInt_lt.mp hneg.2
    rw [decide_eq_true hneg, if_pos rfl] at hmag ⊢
    rw [if_pos hneg.1, List.reverse_append, List.length_append, List.length_map]
    rw [show x = xx.toInt.natAbs by omega] at hnum hlen ⊢
    exact ⟨⟨_, _, hnum, (if_pos hlt0).symm⟩, Nat.succ_le_succ hlen⟩
  · rw [decide_eq_false hneg, if_neg Bool.false_ne_true] at hmag ⊢
    rw [List.append_nil, List.length_map]
    have hval : (if sign ≠ 0 then xx.toInt else xx.toInt % 2 ^ 32) = (x : Int) := by
      split
      · have hpos : ¬ xx.toInt < 0 := fun h => hneg ⟨‹_›, Int32.lt_iff_toInt_lt.mpr h⟩
        have hhi := xx.toInt_lt
        omega
      · exact hmag.symm
    rw [hval]
    exact ⟨⟨_, _, hnum, (if_neg (by omega)).symm⟩, hlen.trans (by decide)⟩

theorem atoiLoop_digits (hdig : ∀ d, d < 10 → digits d = UInt8.ofNat (48 + d)) {ds : List Nat}
    (h : ∀ d ∈ ds, d < 10) (a : Nat) : atoiLoop (Int32.ofNat a) (ds.map digits) =
      Int32.ofNat (ds.foldl (fun n d => n * 10 + d) a) := by
  induction ds generalizing a with
  | nil => rfl
  | cons d ds ih =>
    have hd := h d List.mem_cons_self
    have hc : (UInt8.ofNat (48 + d)).toNat = 48 + d := by
      rw [UInt8.toNat_ofNat']
      omega
    have hrange : (48 : UInt8) ≤ UInt8.ofNat (48 + d) ∧ UInt8.ofNat (48 + d) ≤ 57 := by
      rw [UInt8.le_iff_toNat_le, UInt8.le_iff_toNat_le, hc]
      exact ⟨Nat.le_add_right 48 d, (by omega : 48 + d ≤ 57)⟩
    have hstep : Int32.ofNat a * 10 + Int32.ofNat (48 + d) - 48 = Int32.ofNat (a * 10 + d) := by
      rw [Int32.ofNat_add, Int32.ofNat_add, Int32.ofNat_mul]
      simp only [Int32.add_comm (Int32.ofNat 48), ← Int32.add_assoc]
      exact Int32.add_sub_cancel ..
    rw [List.map_cons, hdig d hd, atoiLoop, if_pos hrange, hc, hstep,
      ih (fun d hd => h d (List.mem_cons_of_mem _ hd)), List.foldl_cons]

theorem atoi_numberBuf (hdig : ∀ d, d < 10 → digits d = UInt8.ofNat (48 + d)) {xx : Int32}
    (hxx : 0 ≤ xx) (sign : Int32) :
    atoi (numberBuf digits xx (Int32.ofNat 10) (sign ≠ 0 ∧ xx < 0)).reverse = xx := by
  have h0 : 0 ≤ xx.toInt := Int32.le_iff_toInt_le.mp hxx
  have hneg : ¬ (sign ≠ 0 ∧ xx < 0) := fun h => by
    have := Int32.lt_iff_toInt_lt.mp h.2
    change xx.toInt < 0 at this
    omega
  have hmag := toUInt32_toNat xx
  have hhi := xx.toInt_lt
  rw [numberBuf_eq digits xx (.inl rfl), decide_eq_false hneg]
  simp only [Bool.false_eq_true, if_false, List.append_nil]
  obtain ⟨htext, hsmall, hval, -⟩ :=
    (canon_numeral (by decide) : Numeral digits 10 xx.toUInt32.toNat _ _)
  rw [htext, atoi]
  refine (atoiLoop_digits hdig hsmall 0).trans ?_
  rw [List.foldl_reverse]
  rw [List.reverse_reverse, Nat.ofDigits_eq_foldr] at hval
  have hfold : (canon 10 xx.toUInt32.toNat).foldr (fun d n => n * 10 + d) 0 = xx.toUInt32.toNat := by
    simpa [Nat.mul_comm, Nat.add_comm] using hval
  rw [hfold]
  refine Int32.toInt_inj.mp ?_
  rw [Int32.toInt_ofNat_of_lt (by omega)]
  omega

/-- Both `printint`s give the numeral of the number, or of its value as a `uint`, and do not
leave `buf`; and `atoi` reads a decimal numeral back. -/
theorem printint_faithful (xx sign : Int32) {base : Nat} (hbase : base = 10 ∨ base = 16) :
    Reads lower base (if sign ≠ 0 then xx.toInt else xx.toInt % 2 ^ 32)
      (printint xx (Int32.ofNat base) sign) ∧
    Reads upper base (if sign ≠ 0 then xx.toInt else xx.toInt % 2 ^ 32)
      (uprintint xx (Int32.ofNat base) sign) ∧
    (printint xx (Int32.ofNat base) sign).length ≤ 15 ∧
    (uprintint xx (Int32.ofNat base) sign).length ≤ 15 ∧
    (0 ≤ xx → atoi (printint xx 10 sign) = xx ∧ atoi (uprintint xx 10 sign) = xx) := by
  obtain ⟨hk, hklen⟩ := numberBuf_reads lower xx sign hbase
  obtain ⟨hu, hulen⟩ := numberBuf_reads upper xx sign hbase
  rw [← List.length_reverse] at hklen hulen
  refine ⟨hk, hu, hklen, hulen, fun hxx => ⟨atoi_numberBuf (fun d hd => ?_) hxx sign,
    atoi_numberBuf (fun d hd => ?_) hxx sign⟩⟩
  · rw [lower, if_pos hd]
  · rw [upper, if_pos hd]

theorem printint_faithful_least :
    Reads lower 10 (-2147483648) (printint (-2147483648) 10 1) ∧
      printint (-2147483648) 10 1 = [45, 50, 49, 52, 55, 52, 56, 51, 54, 52, 56] :=
  ⟨(printint_faithful (-2147483648) 1 (.inl rfl)).1, by decide +kernel⟩

end

end Xv6Audit.Strings
