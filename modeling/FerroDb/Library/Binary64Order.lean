import FerroDb.Library.Binary64
import FerroDb.Library.Compare
import Mathlib.Data.Prod.Lex

/-!
# The numbers behind doubles

A finite double is a rational number, and the total order of the bits is the order of these
numbers, with the two zeros told apart and the infinities and NaNs outside.
-/

namespace FerroDb.Library.Binary64

open Nat Prod Bool

variable {x y : Binary64} {k l : ℕ} {i : ℤ}

/-! ## Bits -/

lemma ext_parts (hs : x.signBit = y.signBit) (hm : x.magnitude = y.magnitude) : x = y := by
  obtain ⟨x⟩ := x
  obtain ⟨y⟩ := y
  have hx := x.toNat_lt
  have hy := y.toNat_lt
  simp only [signBit, magnitude, decide_eq_decide] at hs hm
  have : x.toNat = y.toNat := by omega
  rw [UInt64.toNat_inj.mp this]

lemma add_comm (x y : Binary64) : x.add y = y.add x := by
  unfold add
  rw [or_comm y.isNan]
  by_cases hnan : (x.isNan || y.isNan) = true
  · rw [if_pos hnan, if_pos hnan]
  · cases hx : x.isInfinite <;> cases hy : y.isInfinite
    · simp only [false_eq_true, if_false]
      rw [min_comm y.parts.2, and_comm y.signBit, Int.add_comm (y.signed * _)]
    · simp
    · simp
    · by_cases hs : x.signBit = y.signBit
      · have hm : x.magnitude = y.magnitude := by
          simp only [isInfinite, decide_eq_true_eq] at hx hy
          rw [hx, hy]
        rw [ext_parts hs hm]
      · simp [hs, Ne.symm hs]

/-! ## Magnitudes -/

/-- The significand and the last place that the bits without the sign spell. -/
def partsOf (k : ℕ) : ℕ × ℤ :=
  if k / 2 ^ 52 = 0 then (k % 2 ^ 52, -1074)
  else (2 ^ 52 + k % 2 ^ 52, ((k / 2 ^ 52 : ℕ) : ℤ) - 1075)

lemma parts_eq (x : Binary64) : x.parts = partsOf x.magnitude := rfl

/-- The number that the bits without the sign spell. -/
def magnitudeVal (k : ℕ) : ℚ := (partsOf k).1 * 2 ^ (partsOf k).2

lemma magnitudeVal_lt_succ (k : ℕ) : magnitudeVal k < magnitudeVal (k + 1) := by
  unfold magnitudeVal partsOf
  by_cases hr : k % 2 ^ 52 + 1 < 2 ^ 52
  · -- the same place, one more in it
    have hq : (k + 1) / 2 ^ 52 = k / 2 ^ 52 := by omega
    rw [hq]
    split_ifs
    all_goals
      gcongr
      omega
  · -- the significand is full, and the next one starts at the next place
    have hq : (k + 1) / 2 ^ 52 = k / 2 ^ 52 + 1 := by omega
    have hm : (k + 1) % 2 ^ 52 = 0 := by omega
    have hk : k % 2 ^ 52 = 2 ^ 52 - 1 := by omega
    rw [hq, hm, hk, if_neg (succ_ne_zero _)]
    split_ifs with h0
    · rw [h0]
      norm_num
    · have hexp : (((k / 2 ^ 52 + 1 : ℕ) : ℤ) - 1075) = (((k / 2 ^ 52 : ℕ) : ℤ) - 1075) + 1 := by
        push_cast
        ring
      rw [hexp, zpow_add_one₀ (by norm_num : (2 : ℚ) ≠ 0)]
      have hpos : (0 : ℚ) < 2 ^ (((k / 2 ^ 52 : ℕ) : ℤ) - 1075) := by positivity
      generalize (2 : ℚ) ^ (((k / 2 ^ 52 : ℕ) : ℤ) - 1075) = u at hpos ⊢
      norm_num
      linarith

lemma magnitudeVal_strictMono : StrictMono magnitudeVal :=
  strictMono_nat_of_lt_succ magnitudeVal_lt_succ

@[simp] lemma magnitudeVal_zero : magnitudeVal 0 = 0 := by simp [magnitudeVal, partsOf]

lemma magnitudeVal_nonneg (k : ℕ) : 0 ≤ magnitudeVal k := by
  rw [← magnitudeVal_zero]
  exact magnitudeVal_strictMono.monotone (zero_le k)

/-- The number a finite double stands for. -/
def val (x : Binary64) : ℚ :=
  if x.signBit then -magnitudeVal x.magnitude else magnitudeVal x.magnitude

/-! ## The total order -/

/-- Beyond the numbers, what a magnitude stands for: the number, the infinity, a NaN. -/
def tier (k : ℕ) : ℤ := if infinityBits < k then 2 else if k = infinityBits then 1 else 0

def finiteVal (k : ℕ) : ℚ := if k < infinityBits then magnitudeVal k else 0

/-- Where the bits stand: their tier, their number, and what tells zeros and NaNs apart. -/
def keyOf : Bool → ℕ → ℤ ×ₗ ℚ ×ₗ ℤ
  | false, k => toLex (tier k, toLex (finiteVal k, if infinityBits < k then (k : ℤ) else 0))
  | true, k => toLex (-tier k, toLex (-finiteVal k,
      if infinityBits < k then -(k : ℤ) else if k = 0 then -1 else 0))

def key (x : Binary64) : ℤ ×ₗ ℚ ×ₗ ℤ := keyOf x.signBit x.magnitude

lemma tier_nonneg (k : ℕ) : 0 ≤ tier k := by
  unfold tier
  split_ifs <;> omega

lemma tier_eq_zero : tier k = 0 ↔ k < infinityBits := by
  unfold tier
  split_ifs <;> omega

lemma finiteVal_nonneg (k : ℕ) : 0 ≤ finiteVal k := by
  unfold finiteVal
  split_ifs
  · exact magnitudeVal_nonneg k
  · exact le_rfl

lemma finiteVal_lt (h : k < l) (hl : l < infinityBits) : finiteVal k < finiteVal l := by
  rw [finiteVal, finiteVal, if_pos (h.trans hl), if_pos hl]
  exact magnitudeVal_strictMono h

@[simp] lemma finiteVal_zero : finiteVal 0 = 0 := by simp [finiteVal]

lemma finiteVal_of_le (h : infinityBits ≤ k) : finiteVal k = 0 :=
  if_neg (not_lt.mpr h)

/-- Below a number, by the number; below an infinity or a NaN, by the tier; among NaNs, by the
bits. -/
lemma below_cases (h : k < l) : tier k < tier l ∨ tier k = tier l ∧ (finiteVal k < finiteVal l ∨
      finiteVal k = finiteVal l ∧ infinityBits < k ∧ infinityBits < l) := by
  rcases lt_or_ge l infinityBits with hl | hl
  · exact Or.inr ⟨(tier_eq_zero.mpr (h.trans hl)).trans (tier_eq_zero.mpr hl).symm,
      Or.inl (finiteVal_lt h hl)⟩
  · by_cases hk : infinityBits < k
    · exact Or.inr ⟨by simp [tier, hk, hk.trans h], Or.inr
        ⟨by rw [finiteVal_of_le hk.le, finiteVal_of_le hl], hk, hk.trans h⟩⟩
    · unfold tier
      split_ifs <;> omega

lemma keyOf_false_lt (h : k < l) : keyOf false k < keyOf false l := by
  simp only [keyOf, Lex.toLex_lt_toLex]
  rcases below_cases h with ht | ⟨ht, hv | ⟨hv, hk, hl⟩⟩
  · exact Or.inl ht
  · exact Or.inr ⟨ht, Or.inl hv⟩
  · refine Or.inr ⟨ht, Or.inr ⟨hv, ?_⟩⟩
    omega

lemma keyOf_true_lt (h : k < l) : keyOf true l < keyOf true k := by
  simp only [keyOf, Lex.toLex_lt_toLex]
  rcases below_cases h with ht | ⟨ht, hv | ⟨hv, hk, hl⟩⟩
  · exact Or.inl (neg_lt_neg ht)
  · exact Or.inr ⟨congrArg Neg.neg ht.symm, Or.inl (neg_lt_neg hv)⟩
  · refine Or.inr ⟨congrArg Neg.neg ht.symm, Or.inr ⟨congrArg Neg.neg hv.symm, ?_⟩⟩
    omega

lemma keyOf_true_lt_false (k l : ℕ) : keyOf true k < keyOf false l := by
  simp only [keyOf, Lex.toLex_lt_toLex]
  have hk := tier_nonneg k
  have hl := tier_nonneg l
  have hlv := finiteVal_nonneg l
  by_cases ht : tier k = 0 ∧ tier l = 0
  · obtain ⟨hk0, hl0⟩ := ht
    refine Or.inr ⟨by omega, ?_⟩
    have hki := tier_eq_zero.mp hk0
    have hli := tier_eq_zero.mp hl0
    rw [if_neg (not_lt.mpr hli.le)]
    rcases Nat.eq_zero_or_pos k with rfl | hpos
    · rcases hlv.lt_or_eq with hlt | heq
      · exact Or.inl (by simpa using hlt)
      · exact Or.inr ⟨by simpa using heq, by simp⟩
    · have hkpos := finiteVal_lt hpos hki
      rw [finiteVal_zero] at hkpos
      exact Or.inl (by linarith)
  · omega

lemma key_lt (h : x.totalKey < y.totalKey) : x.key < y.key := by
  unfold totalKey at h
  unfold key
  split_ifs at h with hx hy hy
  · rw [hx, hy]
    exact keyOf_true_lt (by omega)
  · rw [hx, eq_false_of_ne_true hy]
    exact keyOf_true_lt_false _ _
  · omega
  · rw [eq_false_of_ne_true hx, eq_false_of_ne_true hy]
    exact keyOf_false_lt (by omega)

lemma key_eq (h : x.totalKey = y.totalKey) : x.key = y.key := by
  unfold totalKey at h
  unfold key
  split_ifs at h with hx hy hy
  · rw [hx, hy, (by omega : x.magnitude = y.magnitude)]
  · omega
  · omega
  · rw [eq_false_of_ne_true hx, eq_false_of_ne_true hy, (by omega : x.magnitude = y.magnitude)]

/-- The total order of the bits is the order of what they stand for. -/
lemma totalCmp_eq (x y : Binary64) : x.totalCmp y = compare x.key y.key := by
  unfold totalCmp
  rcases lt_trichotomy x.totalKey y.totalKey with h | h | h
  · rw [compare_lt_iff_lt.mpr h, compare_lt_iff_lt.mpr (key_lt h)]
  · rw [compare_eq_iff_eq.mpr h, compare_eq_iff_eq.mpr (key_eq h)]
  · rw [compare_gt_iff_gt.mpr h, compare_gt_iff_gt.mpr (key_lt h)]

/-! ## Numbers -/

/-- Neither an infinity nor a NaN. -/
def IsFinite (x : Binary64) : Prop := x.magnitude < infinityBits

lemma IsFinite.key_eq (h : x.IsFinite) :
    x.key = toLex (0, toLex (x.val, if x.isZero && x.signBit then -1 else 0)) := by
  have htier : tier x.magnitude = 0 := tier_eq_zero.mpr h
  have hnan : ¬ infinityBits < x.magnitude := not_lt.mpr h.le
  have hval : finiteVal x.magnitude = magnitudeVal x.magnitude := if_pos h
  unfold key val isZero
  cases x.signBit
  · simp [keyOf, htier, hnan, hval]
  · simp [keyOf, htier, hnan, hval]

/-! ### Integer parts -/

/-- The integer part, without the sign. -/
def natTrunc (k : ℕ) : ℕ :=
  if 0 ≤ (partsOf k).2 then (partsOf k).1 * 2 ^ (partsOf k).2.toNat
  else (partsOf k).1 / 2 ^ (-(partsOf k).2).toNat

lemma trunc_eq (x : Binary64) :
    x.trunc = if x.signBit then -(natTrunc x.magnitude : ℤ) else natTrunc x.magnitude := rfl

lemma natTrunc_spec (x : Binary64) : (natTrunc x.magnitude : ℚ) ≤ magnitudeVal x.magnitude ∧
      magnitudeVal x.magnitude < natTrunc x.magnitude + 1 ∧
      (x.isIntegral = true ↔ magnitudeVal x.magnitude = natTrunc x.magnitude) := by
  unfold isIntegral natTrunc magnitudeVal
  rw [parts_eq]
  generalize partsOf x.magnitude = p
  obtain ⟨m, e⟩ := p
  by_cases he : 0 ≤ e
  · have hpow : (2 : ℚ) ^ e = ((2 ^ e.toNat : ℕ) : ℚ) := by
      obtain ⟨n, rfl⟩ := Int.eq_ofNat_of_zero_le he
      simp
    rw [if_pos he, hpow]
    push_cast
    exact ⟨le_rfl, lt_add_one _, by simp [he]⟩
  · obtain ⟨d, hd⟩ : ∃ d : ℕ, e = -d := ⟨(-e).toNat, by omega⟩
    subst hd
    have hpos : 0 < 2 ^ d := by positivity
    have hval : (m : ℚ) * 2 ^ (-(d : ℤ)) = (m : ℚ) / (2 ^ d : ℕ) := by
      rw [div_eq_mul_inv]
      simp
    have hposQ : (0 : ℚ) < (2 ^ d : ℕ) := by exact_mod_cast hpos
    rw [if_neg he, hval, neg_neg]
    refine ⟨?_, ?_, ?_⟩
    · rw [le_div_iff₀ hposQ]
      exact_mod_cast div_mul_le_self m (2 ^ d)
    · rw [div_lt_iff₀ hposQ]
      rw [mul_comm]
      exact_mod_cast lt_mul_div_succ m hpos
    · rw [div_eq_iff hposQ.ne']
      simp only [he, decide_false, Bool.false_or, decide_eq_true_eq]
      constructor
      · intro h0
        exact_mod_cast (Nat.div_mul_cancel (dvd_of_mod_eq_zero h0)).symm
      · intro h
        have h' : m = m / 2 ^ d * 2 ^ d := by exact_mod_cast h
        exact mod_eq_zero_of_dvd (Dvd.intro_left _ h'.symm)

/-- An integer against a double: by the integer part, then by whether there is a fraction. -/
lemma compare_trunc (a : ℤ) (x : Binary64) :
    (compare a x.trunc).then (if x.isIntegral then .eq else if x.signBit then .gt else .lt) =
      compare (a : ℚ) x.val := by
  obtain ⟨hle, hlt, hint⟩ := natTrunc_spec x
  rw [trunc_eq, val]
  generalize natTrunc x.magnitude = t at *
  generalize magnitudeVal x.magnitude = v at *
  cases x.signBit <;> simp only [if_true, if_false, false_eq_true]
  · apply then_eq_compare
    · intro h
      have : (a : ℚ) + 1 ≤ t := by exact_mod_cast h
      linarith
    · intro h
      have : (t : ℚ) + 1 ≤ a := by exact_mod_cast h
      linarith
    · rintro rfl
      split_ifs with hi
      · exact (compare_eq_iff_eq.mpr (by exact_mod_cast (hint.mp hi).symm)).symm
      · have hne : (t : ℚ) ≠ v := fun h => hi (hint.mpr h.symm)
        exact (compare_lt_iff_lt.mpr (by exact_mod_cast lt_of_le_of_ne hle hne)).symm
  · apply then_eq_compare
    · intro h
      have : (a : ℚ) + 1 ≤ -t := by exact_mod_cast h
      linarith
    · intro h
      have : (-t : ℚ) + 1 ≤ a := by exact_mod_cast h
      linarith
    · rintro rfl
      push_cast
      split_ifs with hi
      · exact (compare_eq_iff_eq.mpr (by rw [hint.mp hi])).symm
      · have hne : (t : ℚ) ≠ v := fun h => hi (hint.mpr h.symm)
        exact (compare_gt_iff_gt.mpr (neg_lt_neg (lt_of_le_of_ne hle hne))).symm

/-! ### Integers as doubles -/

lemma magnitude_ofMagnitude (neg : Bool) (h : k < 2 ^ 63) :
    (ofMagnitude neg k).magnitude = k := by
  cases neg <;> simp [ofMagnitude, magnitude] <;> omega

lemma signBit_ofMagnitude (neg : Bool) (h : k < 2 ^ 63) : (ofMagnitude neg k).signBit = neg := by
  cases neg <;> simp [ofMagnitude, signBit] <;> omega

lemma floorLog2_one {n : ℕ} (h : n ≠ 0) : floorLog2 n 1 = n.log2 := by
  have hle : 2 ^ n.log2 ≤ n := log2_self_le h
  have h1 : log2 1 = 0 := by decide
  simp [floorLog2, scaled, h1, hle]

lemma roundHalfEven_one (n : ℕ) : roundHalfEven n 1 = n := by
  simp [roundHalfEven, mod_one]

section Exact

variable {n : ℕ}

/-- A number below `2 ^ 53`, shifted up until its leading bit is the implicit one. -/
def aligned (n : ℕ) : ℕ := n * 2 ^ (52 - n.log2)

lemma aligned_lt (h0 : n ≠ 0) (h : n < 2 ^ 53) : aligned n < 2 ^ 53 := by
  have hlog : n.log2 < 53 := (log2_lt h0).mpr h
  calc n * 2 ^ (52 - n.log2) < 2 ^ (n.log2 + 1) * 2 ^ (52 - n.log2) :=
        mul_lt_mul_of_pos_right lt_log2_self (by positivity)
    _ = 2 ^ 53 := by rw [← pow_add]; congr 1; omega

lemma le_aligned (h0 : n ≠ 0) (h : n < 2 ^ 53) : 2 ^ 52 ≤ aligned n := by
  have hlog : n.log2 < 53 := (log2_lt h0).mpr h
  calc 2 ^ 52 = 2 ^ n.log2 * 2 ^ (52 - n.log2) := by rw [← pow_add]; congr 1; omega
    _ ≤ n * 2 ^ (52 - n.log2) := mul_le_mul_right _ (log2_self_le h0)

/-- An integer below `2 ^ 53` is a double as it is. -/
lemma ofRatio_one (neg : Bool) (h0 : n ≠ 0) (h : n < 2 ^ 53) :
    ofRatio neg n 1 = ofMagnitude neg ((1022 + n.log2) * 2 ^ 52 + aligned n) := by
  have hlog : n.log2 < 53 := (log2_lt h0).mpr h
  have hup := aligned_lt h0 h
  have hplace : max (floorLog2 n 1 - 52) (-1074) = (n.log2 : ℤ) - 52 := by
    rw [floorLog2_one h0]
    omega
  have hscaled : scaled n 1 ((n.log2 : ℤ) - 52) = (aligned n, 1) := by
    unfold scaled aligned
    split_ifs with hs
    · rw [(by omega : ((n.log2 : ℤ) - 52).toNat = 0), (by omega : 52 - n.log2 = 0)]
      simp
    · rw [(by omega : (-((n.log2 : ℤ) - 52)).toNat = 52 - n.log2)]
  have hplace' : ((n.log2 : ℤ) - 52 + 1074).toNat = 1022 + n.log2 := by omega
  have hinf : infinityBits = 2047 * 2 ^ 52 := rfl
  rw [ofRatio, if_neg h0, hplace]
  dsimp only
  rw [hscaled, hplace', roundHalfEven_one, min_eq_left]
  omega

lemma magnitudeVal_aligned (h0 : n ≠ 0) (h : n < 2 ^ 53) :
    magnitudeVal ((1022 + n.log2) * 2 ^ 52 + aligned n) = n := by
  have hlog : n.log2 < 53 := (log2_lt h0).mpr h
  have hlt := aligned_lt h0 h
  have hle := le_aligned h0 h
  have hparts : partsOf ((1022 + n.log2) * 2 ^ 52 + aligned n)
      = (aligned n, -((52 - n.log2 : ℕ) : ℤ)) := by
    rw [partsOf, if_neg (by omega)]
    exact Prod.ext (by dsimp only; omega) (by dsimp only; omega)
  rw [magnitudeVal, hparts, aligned, zpow_neg, zpow_natCast]
  push_cast
  field_simp

lemma ofInt_key (h : i.natAbs < 2 ^ 53) : (ofInt i).key = toLex (0, toLex ((i : ℚ), 0)) := by
  unfold ofInt
  rcases eq_or_ne i.natAbs 0 with h0 | h0
  · obtain rfl : i = 0 := Int.natAbs_eq_zero.mp h0
    have hm : (zero false).magnitude = 0 := magnitude_ofMagnitude false (by norm_num)
    have hs : (zero false).signBit = false := signBit_ofMagnitude false (by norm_num)
    simp [ofRatio, key, hm, hs, keyOf, tier, infinityBits]
  · have hlog : i.natAbs.log2 < 53 := (log2_lt h0).mpr h
    have hlt := aligned_lt h0 h
    have hval := magnitudeVal_aligned h0 h
    have hinf : infinityBits = 2047 * 2 ^ 52 := rfl
    rw [ofRatio_one _ h0 h]
    generalize hk : (1022 + i.natAbs.log2) * 2 ^ 52 + aligned i.natAbs = k at hval ⊢
    have hmag := magnitude_ofMagnitude (decide (i < 0)) (by omega : k < 2 ^ 63)
    have hsign := signBit_ofMagnitude (decide (i < 0)) (by omega : k < 2 ^ 63)
    have hfin : (ofMagnitude (decide (i < 0)) k).IsFinite := by
      rw [IsFinite]
      omega
    have hzero : (ofMagnitude (decide (i < 0)) k).isZero = false := by
      rw [isZero, decide_eq_false_iff_not]
      omega
    rw [hfin.key_eq, hzero, val, hmag, hsign, hval]
    rcases lt_or_ge i 0 with hi | hi
    · simp [hi, abs_of_neg hi]
    · simp [not_lt.mpr hi, abs_of_nonneg hi]

end Exact

lemma roundHalfEven_le (n d : ℕ) : roundHalfEven n d ≤ n / d + 1 := by
  unfold roundHalfEven
  dsimp only
  split_ifs <;> omega

/-- A machine word is never beyond the doubles. -/
lemma ofInt_isFinite (h : i.natAbs < 2 ^ 64) : (ofInt i).IsFinite := by
  have hinf : infinityBits = 2047 * 2 ^ 52 := rfl
  have finite : ∀ {k : ℕ}, k < infinityBits → (ofMagnitude (decide (i < 0)) k).IsFinite := by
    intro k hk
    rw [IsFinite, magnitude_ofMagnitude _ (by omega)]
    exact hk
  unfold ofInt
  rcases eq_or_ne i.natAbs 0 with h0 | h0
  · rw [ofRatio, if_pos h0]
    exact finite (by omega)
  · rcases lt_or_ge i.natAbs (2 ^ 53) with hsmall | hbig
    · have hlog : i.natAbs.log2 < 53 := (log2_lt h0).mpr hsmall
      have hlt := aligned_lt h0 hsmall
      rw [ofRatio_one _ h0 hsmall]
      exact finite (by omega)
    · generalize i.natAbs = n at *
      have hlog : n.log2 < 64 := (log2_lt h0).mpr h
      have hlog' : 53 ≤ n.log2 := (le_log2 h0).mpr hbig
      have hplace : max (floorLog2 n 1 - 52) (-1074) = ((n.log2 - 52 : ℕ) : ℤ) := by
        rw [floorLog2_one h0]
        omega
      have hscaled : scaled n 1 ((n.log2 - 52 : ℕ) : ℤ) = (n, 2 ^ (n.log2 - 52)) := by
        simp [scaled]
      have hquot : n / 2 ^ (n.log2 - 52) < 2 ^ 53 := by
        rw [div_lt_iff_lt_mul (by positivity), ← pow_add,
          (by omega : 53 + (n.log2 - 52) = n.log2 + 1)]
        exact lt_log2_self
      have hround := roundHalfEven_le n (2 ^ (n.log2 - 52))
      rw [ofRatio, if_neg h0, hplace]
      dsimp only
      rw [hscaled]
      have hsum : (((n.log2 - 52 : ℕ) : ℤ) + 1074).toNat * 2 ^ 52
          + roundHalfEven n (2 ^ (n.log2 - 52)) < infinityBits := by omega
      rw [min_eq_left hsum.le]
      exact finite hsum

end FerroDb.Library.Binary64
