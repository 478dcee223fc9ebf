import FerroDb.Library.Binary64Order
import FerroDb.Sql.Order
import Mathlib.Data.String.Basic

/-!
# The order of values

`Value::cmp` compares values of any two types. Here it is shown to compare one key of each value,
so that it is a linear preorder: exact numbers and doubles stand at the number they denote, the
infinities and NaNs outside, and the other types each in a class of their own.
-/

namespace FerroDb.Sql

open Library (Binary64 then_eq_compare compare_strictMono compare_neg compare_swap)

/-! ## Doubles in decimal -/

lemma ofDigits_replicate_append (n : ℕ) (ds : List Digit) :
    ofDigits (List.replicate n 0 ++ ds) = ofDigits ds := by
  induction n with
  | zero => simp
  | succ n ih => simp [List.replicate_succ, ofDigits_cons, ih]

lemma fracVal_eq (ds : List Digit) : fracVal ds = (ofDigits ds : ℚ) / 10 ^ ds.length := by
  induction ds with
  | nil => simp [fracVal, ofDigits]
  | cons d ds ih =>
    rw [fracVal, ih, ofDigits_cons, List.length_cons, pow_succ]
    push_cast
    field_simp

lemma length_digitsAux (fuel n k : ℕ) (acc : List Digit) (h : n < 10 ^ (k + 1)) :
    (digitsAux fuel n acc).length ≤ acc.length + (k + 1) := by
  induction fuel generalizing n k acc with
  | zero => simp [digitsAux]
  | succ fuel ih =>
    rw [digitsAux]
    split_ifs with h10
    · simp
    · obtain _ | k := k
      · omega
      · have hlt : n / 10 < 10 ^ (k + 1) := by
          rw [Nat.div_lt_iff_lt_mul (by norm_num)]
          rwa [pow_succ] at h
        have := ih (n / 10) k (Fin.ofNat 10 n :: acc) hlt
        simp only [List.length_cons] at this
        omega

/-- Digits on both sides of the point, padded to the place they start at. -/
lemma point_val (s p : ℕ) (hp : 0 < p) : (ofDigits (natDigits (s / 10 ^ p)) : ℚ)
        + fracVal (List.replicate (p - (natDigits (s % 10 ^ p)).length) 0
            ++ natDigits (s % 10 ^ p)) = s / 10 ^ p := by
  obtain ⟨k, rfl⟩ := Nat.exists_eq_succ_of_ne_zero hp.ne'
  have hmod : s % 10 ^ (k + 1) < 10 ^ (k + 1) := Nat.mod_lt _ (by positivity)
  have hlen : (natDigits (s % 10 ^ (k + 1))).length ≤ k + 1 := by
    simpa [natDigits] using length_digitsAux (s % 10 ^ (k + 1) + 1) _ k [] hmod
  have hsplit : (s : ℚ) = 10 ^ (k + 1) * (s / 10 ^ (k + 1) : ℕ) + (s % 10 ^ (k + 1) : ℕ) := by
    exact_mod_cast (Nat.div_add_mod s (10 ^ (k + 1))).symm
  rw [fracVal_eq, ofDigits_replicate_append, ofDigits_natDigits, ofDigits_natDigits,
    List.length_append, List.length_replicate, Nat.sub_add_cancel hlen]
  rw [hsplit]
  field_simp

/-- The significand moved to the places after the point, exactly. -/
lemma scaled_val (m p : ℕ) (e : ℤ) (h : -(p : ℤ) ≤ e) :
    ((if 0 ≤ e then m * 2 ^ e.toNat * 10 ^ p else m * 10 ^ p / 2 ^ (-e).toNat : ℕ) : ℚ)
      = m * 2 ^ e * 10 ^ p := by
  split_ifs with he
  · obtain ⟨n, rfl⟩ := Int.eq_ofNat_of_zero_le he
    simp
  · obtain ⟨d, rfl⟩ : ∃ d : ℕ, e = -d := ⟨(-e).toNat, by omega⟩
    have hdvd : 2 ^ d ∣ m * 10 ^ p := by
      refine Dvd.dvd.mul_left (dvd_trans (pow_dvd_pow 2 (by omega : d ≤ p)) ?_) m
      exact pow_dvd_pow_of_dvd (by norm_num) p
    rw [neg_neg, Int.toNat_natCast, Nat.cast_div hdvd (by positivity), zpow_neg, zpow_natCast]
    push_cast
    field_simp

lemma neg_le_parts (k : ℕ) : -1074 ≤ (Binary64.partsOf k).2 := by
  unfold Binary64.partsOf
  split_ifs <;> dsimp only <;> omega

/-- The whole expansion of a double is the number it stands for. -/
lemma f64ExactDecimal_val (f : Binary64) : (f64ExactDecimal f).val = f.val := by
  have hmag : (f64ExactDecimal f).magnitude = Binary64.magnitudeVal f.magnitude := by
    have hle : -((1074 : ℕ) : ℤ) ≤ f.parts.2 := by
      exact_mod_cast neg_le_parts f.magnitude
    have hscaled := scaled_val f.parts.1 1074 f.parts.2 hle
    unfold f64ExactDecimal DecimalText.magnitude
    dsimp only
    generalize (if 0 ≤ f.parts.2 then f.parts.1 * 2 ^ f.parts.2.toNat * 10 ^ 1074
      else f.parts.1 * 10 ^ 1074 / 2 ^ (-f.parts.2).toNat : ℕ) = s at hscaled ⊢
    rw [point_val s 1074 (by norm_num), hscaled, Binary64.magnitudeVal, Binary64.parts_eq,
      mul_div_assoc, div_self (by positivity), mul_one]
  have hneg : (f64ExactDecimal f).neg = f.signBit := rfl
  rw [DecimalText.val, Binary64.val, hmag, hneg]

/-! ## Keys -/

/-- Where a value stands: its class, its place among the numbers, its text. -/
abbrev Value.Key := ℕ ×ₗ (ℤ ×ₗ ℚ ×ₗ ℤ) ×ₗ String

/-- The place of a number that is written exactly. -/
def exactKey (v : ℚ) : ℤ ×ₗ ℚ ×ₗ ℤ := toLex (0, toLex (v, 0))

namespace Value

def key : Value → Value.Key
  | null => toLex (0, toLex (exactKey 0, ""))
  | boolean b => toLex (1, toLex (exactKey (if b then 1 else 0), ""))
  | integer i | bigInt i => toLex (2, toLex (exactKey i, ""))
  | decimal d => toLex (2, toLex (exactKey d.val, ""))
  | float f => toLex (2, toLex (f.key, ""))
  | timestamp ms => toLex (3, toLex (exactKey ms, ""))
  | varchar s => toLex (4, toLex (exactKey 0, s))

/-- Integers are what their machine types hold. -/
def InRange : Value → Prop
  | integer i => i32Min ≤ i ∧ i ≤ i32Max
  | bigInt i | timestamp i => i64Min ≤ i ∧ i ≤ i64Max
  | _ => True

instance : DecidablePred InRange
  | integer _ | bigInt _ | timestamp _ => inferInstanceAs (Decidable (_ ∧ _))
  | float _ | varchar _ | boolean _ | decimal _ | null => inferInstanceAs (Decidable True)

end Value

lemma compare_toLex {α β : Type*} [Ord α] [Ord β] (a c : α) (b d : β) :
    compare (toLex (a, b)) (toLex (c, d)) = (compare a c).then (compare b d) := rfl

lemma compare_exactKey (v w : ℚ) : compare (exactKey v) (exactKey w) = compare v w := by
  simp [exactKey, compare_toLex]

variable {f : Binary64} {a : ℤ}

/-- Beyond the numbers, the sign decides. -/
lemma compare_beyond (p : ℚ ×ₗ ℤ) (h : ¬ f.IsFinite) :
    compare (toLex ((0 : ℤ), p)) f.key = if f.signBit then .gt else .lt := by
  have htier : 0 < Binary64.tier f.magnitude := by
    refine lt_of_le_of_ne (Binary64.tier_nonneg _) fun h0 => h ?_
    exact Binary64.tier_eq_zero.mp h0.symm
  have hlt := compare_lt_iff_lt.mpr htier
  have hgt := compare_gt_iff_gt.mpr (neg_lt_zero.mpr htier)
  unfold Binary64.key
  cases f.signBit
  · simp [Binary64.keyOf, compare_toLex, hlt]
  · simp [Binary64.keyOf, compare_toLex, hgt]

/-- Among the numbers, the number decides, and the negative zero is below the others. -/
lemma compare_finite (v : ℚ) (h : f.IsFinite) : compare (exactKey v) f.key =
      (compare v f.val).then (if f.isZero && f.signBit then .gt else .eq) := by
  rw [h.key_eq]
  split_ifs <;> rfl

lemma Binary64.val_of_isZero (h : f.isZero = true) : f.val = 0 := by
  have h0 : f.magnitude = 0 := by simpa [Binary64.isZero] using h
  simp [Binary64.val, h0]

lemma cmpI64F64_eq (ha : i64Min ≤ a ∧ a ≤ i64Max) (f : Binary64) :
    cmpI64F64 a f = compare (exactKey a) f.key := by
  have hmin : i64Min = -2 ^ 63 := rfl
  have hmax : i64Max = 2 ^ 63 - 1 := rfl
  unfold cmpI64F64
  by_cases hfin : f.IsFinite
  · have hnan : f.isNan = false := by simpa [Binary64.isNan] using hfin.le
    have hinf : f.isInfinite = false := by simpa [Binary64.isInfinite] using hfin.ne
    rw [hnan, hinf, if_neg (by simp), if_neg (by simp), compare_finite _ hfin]
    by_cases hz : (f.isZero && f.signBit) = true
    · have hval : f.val = 0 := Binary64.val_of_isZero (Bool.and_eq_true_iff.mp hz).1
      rw [if_pos hz, if_pos hz, hval]
      congr 1
      exact (compare_strictMono (Int.cast_strictMono (R := ℚ)) a 0).symm.trans (by rw [Int.cast_zero])
    · rw [if_neg hz, if_neg hz, Ordering.then_eq, ← Binary64.compare_trunc]
      split_ifs with h1 h2
      all_goals first
        | rfl
        | rw [compare_lt_iff_lt.mpr (by omega : a < f.trunc), Ordering.lt_then]
        | rw [compare_gt_iff_gt.mpr (by omega : f.trunc < a), Ordering.gt_then]
  · have hle : Binary64.infinityBits ≤ f.magnitude := not_lt.mp hfin
    rw [exactKey, compare_beyond _ hfin]
    by_cases hnan : f.isNan = true
    · have ha' : (Binary64.ofInt a).IsFinite := Binary64.ofInt_isFinite (by omega)
      rw [if_pos hnan, Binary64.totalCmp_eq, ha'.key_eq, compare_beyond _ hfin]
    · have hinf : f.isInfinite = true := by
        simp only [Binary64.isNan, decide_eq_true_eq, not_lt] at hnan
        simpa [Binary64.isInfinite] using le_antisymm hnan hle
      rw [if_neg hnan, if_pos hinf]

lemma DecimalText.val_neg_iff (d : DecimalText) :
    (d.neg && !d.trimmed.isZero) = true ↔ d.val < 0 := by
  have hmag := d.magnitude_nonneg
  have hzero : d.trimmed.isZero = false ↔ d.magnitude ≠ 0 := by
    rw [← Bool.not_eq_true, d.trimmed_isZero]
  rw [Bool.and_eq_true_iff, Bool.not_eq_true', hzero, DecimalText.val]
  cases d.neg
  · simpa using hmag
  · simpa using hmag.lt_iff_ne'.symm

lemma cmpF64Decimal_eq (f : Binary64) (d : DecimalText) :
    cmpF64Decimal f d = compare f.key (exactKey d.val) := by
  rw [← compare_swap]
  unfold cmpF64Decimal
  by_cases hfin : f.IsFinite
  · have hnan : f.isNan = false := by simpa [Binary64.isNan] using hfin.le
    have hinf : f.isInfinite = false := by simpa [Binary64.isInfinite] using hfin.ne
    rw [hnan, hinf, if_neg (by simp), if_neg (by simp), compare_finite _ hfin]
    by_cases hz : (f.isZero && f.signBit) = true
    · have hval : f.val = 0 := Binary64.val_of_isZero (Bool.and_eq_true_iff.mp hz).1
      rw [if_pos hz, if_pos hz, hval]
      by_cases hd : d.val < 0
      · rw [if_pos (d.val_neg_iff.mpr hd), compare_lt_iff_lt.mpr hd]
        rfl
      · rw [if_neg (fun h => hd (d.val_neg_iff.mp h))]
        rcases (not_lt.mp hd).lt_or_eq with h0 | h0
        · rw [compare_gt_iff_gt.mpr h0]
          rfl
        · rw [compare_eq_iff_eq.mpr h0.symm]
          rfl
    · rw [if_neg hz, if_neg hz, Ordering.then_eq, decimalCmp_eq, f64ExactDecimal_val,
        compare_swap]
  · rw [exactKey, compare_beyond _ hfin]
    have hle : Binary64.infinityBits ≤ f.magnitude := not_lt.mp hfin
    have hout : f.isNan = true ∨ f.isInfinite = true := by
      simp only [Binary64.isNan, Binary64.isInfinite, decide_eq_true_eq]
      omega
    split_ifs <;> simp_all

namespace Value

lemma compare_key_num (k l : ℤ ×ₗ ℚ ×ₗ ℤ) :
    compare (toLex (2, toLex (k, "")) : Value.Key) (toLex (2, toLex (l, ""))) = compare k l := by
  simp [compare_toLex]

lemma compare_int (a b : ℤ) : compare (exactKey a) (exactKey b) = compare a b := by
  rw [compare_exactKey]
  exact compare_strictMono (Int.cast_strictMono (R := ℚ)) a b

lemma totalCmp_ofInt (ha : i32Min ≤ a ∧ a ≤ i32Max) (f : Binary64) :
    (Binary64.ofInt a).totalCmp f = compare (exactKey a) f.key := by
  have hmin : i32Min = -2 ^ 31 := rfl
  have hmax : i32Max = 2 ^ 31 - 1 := rfl
  rw [Binary64.totalCmp_eq, Binary64.ofInt_key (by omega), exactKey]

lemma Binary64.totalCmp_swap (x y : Binary64) : (x.totalCmp y).swap = y.totalCmp x :=
  compare_swap _ _

/-- Values of different classes, none of which is a number with the other. -/
lemma compare_class {m n : ℕ} {k l : ℤ ×ₗ ℚ ×ₗ ℤ} {s t : String} (h : m ≠ n) :
    compare (toLex (m, toLex (k, s)) : Value.Key) (toLex (n, toLex (l, t))) = compare m n := by
  rw [compare_toLex]
  rcases lt_or_gt_of_ne h with h | h
  · rw [compare_lt_iff_lt.mpr h, Ordering.lt_then]
  · rw [compare_gt_iff_gt.mpr h, Ordering.gt_then]

/-- `Value::cmp` compares the keys. -/
lemma cmp_eq {a b : Value} (ha : a.InRange) (hb : b.InRange) : a.cmp b = compare a.key b.key := by
  cases a with
  | integer i =>
    cases b with
    | integer j => rw [key, key, compare_key_num, compare_int, cmp]
    | bigInt j => rw [key, key, compare_key_num, compare_int, cmp]
    | float f => rw [key, key, compare_key_num, cmp, totalCmp_ofInt ha]
    | decimal d =>
      rw [key, key, compare_key_num, cmp, decimalCmp_eq, intText_val, compare_exactKey]
    | _ => rw [key, key, compare_class (by decide)]; rfl
  | bigInt i =>
    cases b with
    | integer j => rw [key, key, compare_key_num, compare_int, cmp]
    | bigInt j => rw [key, key, compare_key_num, compare_int, cmp]
    | float f => rw [key, key, compare_key_num, cmp, cmpI64F64_eq ha]
    | decimal d =>
      rw [key, key, compare_key_num, cmp, decimalCmp_eq, intText_val, compare_exactKey]
    | _ => rw [key, key, compare_class (by decide)]; rfl
  | float f =>
    cases b with
    | integer j =>
      rw [key, key, compare_key_num, cmp, ← Binary64.totalCmp_swap, totalCmp_ofInt hb,
        compare_swap]
    | bigInt j => rw [key, key, compare_key_num, cmp, cmpI64F64_eq hb, compare_swap]
    | float g => rw [key, key, compare_key_num, cmp, Binary64.totalCmp_eq]
    | decimal d => rw [key, key, compare_key_num, cmp, cmpF64Decimal_eq]
    | _ => rw [key, key, compare_class (by decide)]; rfl
  | decimal d =>
    cases b with
    | integer j =>
      rw [key, key, compare_key_num, cmp, decimalCmp_eq, intText_val, compare_exactKey]
    | bigInt j =>
      rw [key, key, compare_key_num, cmp, decimalCmp_eq, intText_val, compare_exactKey]
    | float g => rw [key, key, compare_key_num, cmp, cmpF64Decimal_eq, compare_swap]
    | decimal d' => rw [key, key, compare_key_num, cmp, decimalCmp_eq, compare_exactKey]
    | _ => rw [key, key, compare_class (by decide)]; rfl
  | boolean x =>
    cases b with
    | boolean y => cases x <;> cases y <;> decide
    | _ => rw [key, key, compare_class (by decide)]; rfl
  | timestamp ms =>
    cases b with
    | timestamp ms' => simp [key, cmp, compare_toLex, compare_int]
    | _ => rw [key, key, compare_class (by decide)]; rfl
  | varchar s =>
    cases b with
    | varchar t => simp [key, cmp, compare_toLex]
    | _ => rw [key, key, compare_class (by decide)]; rfl
  | null =>
    cases b with
    | null => simp [key, cmp]
    | _ => rw [key, key, compare_class (by decide)]; rfl

section Order

variable {a b c : Value}

lemma cmp_eq_gt (ha : a.InRange) (hb : b.InRange) : a.cmp b = .gt ↔ b.key < a.key := by
  rw [cmp_eq ha hb, compare_gt_iff_gt]

lemma cmp_eq_lt (ha : a.InRange) (hb : b.InRange) : a.cmp b = .lt ↔ a.key < b.key := by
  rw [cmp_eq ha hb, compare_lt_iff_lt]

lemma eqv_iff (ha : a.InRange) (hb : b.InRange) : a.eqv b = true ↔ a.key = b.key := by
  rw [eqv, decide_eq_true_eq, cmp_eq ha hb, compare_eq_iff_eq]

end Order

/-! ## Exact numbers -/

/-- The number that an exact numeric value denotes. -/
def number : Value → Option ℚ
  | integer i | bigInt i => some i
  | decimal d => some d.val
  | _ => none

lemma key_of_number {v : Value} {x : ℚ} (h : v.number = some x) :
    v.key = toLex (2, toLex (exactKey x, "")) := by
  cases v <;> simp_all [number, key]

/-- On the values that the machine types hold, doubles among them, `cmp` is a total order up to
`eq`, and exact numbers of any types are compared as the rationals they denote. -/
theorem exact_numbers_ordered (a b c : { v : Value // v.InRange }) :
    a.1.cmp a = .eq ∧ (a.1.cmp b).swap = b.1.cmp a ∧
    (a.1.cmp b ≠ .gt → b.1.cmp a ≠ .gt → a.1.cmp b = .eq) ∧
    (a.1.cmp b ≠ .gt → b.1.cmp c ≠ .gt → a.1.cmp c ≠ .gt) ∧
    (∀ x y, a.1.number = some x → b.1.number = some y → a.1.cmp b = compare x y) ∧
    (a.1.eqv b = true ↔ a.1.cmp b = .eq) := by
  have hcmp : ∀ x y : { v : Value // v.InRange }, x.1.cmp y = compare x.1.key y.1.key :=
    fun x y => cmp_eq x.2 y.2
  simp only [hcmp, compare_le_iff_le, compare_eq_iff_eq]
  refine ⟨trivial, compare_swap _ _, le_antisymm, le_trans, fun x y hx hy => ?_, ?_⟩
  · rw [key_of_number hx, key_of_number hy, compare_key_num, compare_exactKey]
  · exact eqv_iff a.2 b.2

end Value

end FerroDb.Sql
