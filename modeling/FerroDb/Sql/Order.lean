import FerroDb.Sql.Value
import FerroDb.Library.Compare

/-!
# The order of decimals

`decimal_cmp` works on digits; here it is shown to compare the numbers the digits spell, so that
the order laws of the rationals carry over to it.
-/

namespace FerroDb.Sql

open List DecimalText Bool

open Library (then_eq_compare compare_strictMono compare_neg)

/-! ## Digits -/

lemma ofDigits_cons (d : Digit) (ds : List Digit) :
    ofDigits (d :: ds) = 10 ^ ds.length * d + ofDigits ds := by
  simpa [ofDigits] using ofDigits_foldl ds d

variable (ds : List Digit) {as bs : List Digit}

lemma ofDigits_lt : ofDigits ds < 10 ^ ds.length := by
  induction ds with
  | nil => simp [ofDigits]
  | cons d ds ih =>
    calc ofDigits (d :: ds) = 10 ^ ds.length * d + ofDigits ds := ofDigits_cons d ds
      _ < 10 ^ ds.length * d + 10 ^ ds.length := by omega
      _ = 10 ^ ds.length * (d + 1) := by ring
      _ ≤ 10 ^ ds.length * 10 := Nat.mul_le_mul_left _ (by omega)
      _ = 10 ^ (d :: ds).length := by rw [length_cons, pow_succ]

lemma le_ofDigits {d : Digit} {ds : List Digit} (hd : d ≠ 0) :
    10 ^ ds.length ≤ ofDigits (d :: ds) := by
  have hpos : 1 ≤ (d : ℕ) := Nat.one_le_iff_ne_zero.mpr fun h => hd (Fin.ext h)
  calc 10 ^ ds.length ≤ 10 ^ ds.length * (d : ℕ) := Nat.le_mul_of_pos_right _ hpos
    _ ≤ ofDigits (d :: ds) := by rw [ofDigits_cons]; exact Nat.le_add_right _ _

lemma ofDigits_dropWhile : ofDigits (ds.dropWhile (· = 0)) = ofDigits ds := by
  induction ds with
  | nil => rfl
  | cons d ds ih =>
    by_cases hd : d = 0
    · subst hd
      simp [ih, ofDigits_cons]
    · simp [hd]

/-- The number that digits after the point spell. -/
def fracVal : List Digit → ℚ
  | [] => 0
  | d :: ds => ((d : ℕ) + fracVal ds) / 10

lemma fracVal_nonneg : 0 ≤ fracVal ds := by
  induction ds with
  | nil => simp [fracVal]
  | cons d ds ih => simp only [fracVal]; positivity

lemma fracVal_lt_one : fracVal ds < 1 := by
  induction ds with
  | nil => simp [fracVal]
  | cons d ds ih =>
    have hd : ((d : ℕ) : ℚ) ≤ 9 := by exact_mod_cast (by omega : (d : ℕ) ≤ 9)
    simp only [fracVal]
    linarith

lemma fracVal_eq_zero : fracVal ds = 0 ↔ ds.all (· = 0) = true := by
  induction ds with
  | nil => simp [fracVal]
  | cons d ds ih =>
    have h0 := fracVal_nonneg ds
    have hsum : ((d : ℕ) + fracVal ds) / 10 = (0 : ℚ) ↔ (d : ℕ) = 0 ∧ fracVal ds = 0 := by
      constructor
      · intro h
        have hd : (0 : ℚ) ≤ (d : ℕ) := by positivity
        exact ⟨by exact_mod_cast (by linarith : ((d : ℕ) : ℚ) = 0), by linarith⟩
      · rintro ⟨hd, hf⟩
        rw [hd, hf]
        norm_num
    rw [fracVal, hsum, ih, all_cons, and_eq_true, decide_eq_true_iff, Fin.ext_iff]
    rfl

lemma fracVal_append_zero : fracVal (ds ++ [0]) = fracVal ds := by
  induction ds with
  | nil => simp [fracVal]
  | cons d ds ih => simp [fracVal, ih]

lemma fracVal_rdropWhile : fracVal (ds.rdropWhile (· = 0)) = fracVal ds := by
  induction ds using reverseRecOn with
  | nil => rfl
  | append_singleton ds d ih =>
    by_cases hd : d = 0
    · subst hd
      rw [rdropWhile_concat_pos _ _ _ (by simp), ih, fracVal_append_zero]
    · rw [rdropWhile_concat_neg _ _ _ (by simpa using hd)]

/-! ## Comparing digit by digit -/

/-- A number with a fraction below one is compared by its whole part first. -/
lemma compare_then {a b : ℕ} {x y : ℚ} (hx : 0 ≤ x) (hx1 : x < 1) (hy : 0 ≤ y) (hy1 : y < 1) :
    (compare a b).then (compare x y) = compare ((a : ℚ) + x) (b + y) := by
  apply then_eq_compare
  · intro h
    have hq : (a : ℚ) + 1 ≤ b := by exact_mod_cast h
    linarith
  · intro h
    have hq : (b : ℚ) + 1 ≤ a := by exact_mod_cast h
    linarith
  · intro h
    rw [h]
    exact (compare_strictMono (fun _ _ h => add_lt_add_right h (b : ℚ)) x y).symm

lemma fracVal_headD_tail : fracVal ds = (((ds.headD 0 : Digit) : ℕ) + fracVal ds.tail) / 10 := by
  cases ds <;> simp [fracVal]

lemma fracCmp_eq (as bs : List Digit) : fracCmp as bs = compare (fracVal as) (fracVal bs) := by
  induction as generalizing bs with
  | nil =>
    rw [fracCmp]
    split_ifs with h
    · rw [(fracVal_eq_zero bs).mpr h]
      simp [fracVal]
    · have h0 : fracVal bs ≠ 0 := fun h0 => h ((fracVal_eq_zero bs).mp h0)
      have hlt : fracVal [] < fracVal bs := lt_of_le_of_ne (fracVal_nonneg bs) (Ne.symm h0)
      rw [compare_lt_iff_lt.mpr hlt]
  | cons a as ih =>
    have hcmp : compare a (bs.headD 0) = compare (a : ℕ) ((bs.headD 0 : Digit) : ℕ) := rfl
    rw [fracCmp, ih, hcmp,
      compare_then (fracVal_nonneg _) (fracVal_lt_one _) (fracVal_nonneg _) (fracVal_lt_one _),
      fracVal_headD_tail bs]
    exact (compare_strictMono (fun _ _ h => div_lt_div_of_pos_right h (by norm_num)) _ _).symm

lemma digitsCmp_eq (h : as.length = bs.length) :
    digitsCmp as bs = compare (ofDigits as) (ofDigits bs) := by
  induction as generalizing bs with
  | nil =>
    obtain rfl : bs = [] := by simpa using h.symm
    simp [digitsCmp]
  | cons a as ih =>
    obtain _ | ⟨b, bs⟩ := bs
    · simp at h
    · have hl : as.length = bs.length := by simpa using h
      have ha := ofDigits_lt as
      have hb := ofDigits_lt bs
      rw [digitsCmp, ih hl, ofDigits_cons, ofDigits_cons, hl]
      rw [hl] at ha
      generalize 10 ^ bs.length = p at ha hb
      have below : ∀ {m n : ℕ}, m < n → p * m + p ≤ p * n := by
        intro m n h
        calc p * m + p = p * (m + 1) := by ring
          _ ≤ p * n := Nat.mul_le_mul_left _ h
      apply then_eq_compare
      · intro h
        have := below h
        omega
      · intro h
        have := below h
        omega
      · intro h
        rw [h]
        exact (compare_strictMono (fun _ _ h => Nat.add_lt_add_left h _) _ _).symm

/-- Digits without leading zeros: a longer string spells a larger number. -/
lemma length_digitsCmp_eq (ha : as.head? ≠ some 0) (hb : bs.head? ≠ some 0) :
    (compare as.length bs.length).then (digitsCmp as bs) =
      compare (ofDigits as) (ofDigits bs) := by
  have longer : ∀ {xs ys : List Digit}, ys.head? ≠ some 0 → xs.length < ys.length →
      ofDigits xs < ofDigits ys := by
    intro xs ys hy hlen
    obtain _ | ⟨y, ys⟩ := ys
    · simp at hlen
    · have hy0 : y ≠ 0 := by simpa using hy
      calc ofDigits xs < 10 ^ xs.length := ofDigits_lt xs
        _ ≤ 10 ^ ys.length := Nat.pow_le_pow_right (by norm_num) (by simpa using hlen)
        _ ≤ ofDigits (y :: ys) := le_ofDigits hy0
  rcases lt_trichotomy as.length bs.length with h | h | h
  · rw [compare_lt_iff_lt.mpr h, compare_lt_iff_lt.mpr (longer hb h)]
    rfl
  · rw [compare_eq_iff_eq.mpr h, Ordering.eq_then, digitsCmp_eq h]
  · rw [compare_gt_iff_gt.mpr h, compare_gt_iff_gt.mpr (longer ha h)]
    rfl

/-! ## Decimals -/

namespace DecimalText

variable (s : DecimalText)

/-- The number without its sign. -/
def magnitude : ℚ := ofDigits s.int + fracVal s.frac

/-- The number a decimal spells. -/
def val : ℚ := if s.neg then -s.magnitude else s.magnitude

lemma magnitude_nonneg : 0 ≤ s.magnitude :=
  add_nonneg (Nat.cast_nonneg _) (fracVal_nonneg _)

lemma trimmed_magnitude : s.trimmed.magnitude = s.magnitude := by
  simp [magnitude, trimmed, ofDigits_dropWhile, fracVal_rdropWhile]

lemma trimmed_head : s.trimmed.int.head? ≠ some 0 := by
  intro h
  have := head?_dropWhile_not (fun d : Digit => decide (d = 0)) s.int
  simp only [trimmed] at h
  rw [h] at this
  simp at this

lemma trimmed_isZero : s.trimmed.isZero = true ↔ s.magnitude = 0 := by
  rw [← trimmed_magnitude]
  have hhead := s.trimmed_head
  have hfrac : fracVal s.trimmed.frac = 0 → s.trimmed.frac = [] := by
    intro h
    rw [fracVal_eq_zero, all_eq_true] at h
    by_contra hne
    have hlast := rdropWhile_last_not (fun d : Digit => decide (d = 0)) s.frac hne
    exact hlast (h _ (getLast_mem hne))
  generalize s.trimmed = t at *
  constructor
  · intro h
    simp only [isZero, and_eq_true, List.isEmpty_iff] at h
    simp [magnitude, h.1, h.2, ofDigits, fracVal]
  · intro h
    have h1 := fracVal_nonneg t.frac
    have hf : fracVal t.frac = 0 := by simp only [magnitude] at h; linarith
    have hi : ofDigits t.int = 0 := by
      have : ((ofDigits t.int : ℕ) : ℚ) = 0 := by simp only [magnitude] at h; linarith
      exact_mod_cast this
    have hint : t.int = [] := by
      rcases hds : t.int with _ | ⟨d, ds⟩
      · rfl
      · rw [hds] at hi hhead
        have hle : 10 ^ ds.length ≤ ofDigits (d :: ds) := le_ofDigits (by simpa using hhead)
        have hpos : 0 < 10 ^ ds.length := by positivity
        omega
    simp [isZero, hint, hfrac hf]

lemma magnitudeCmp_eq (a b : DecimalText) :
    a.trimmed.magnitudeCmp b.trimmed = compare a.magnitude b.magnitude := by
  rw [magnitudeCmp, length_digitsCmp_eq a.trimmed_head b.trimmed_head, fracCmp_eq,
    compare_then (fracVal_nonneg _) (fracVal_lt_one _) (fracVal_nonneg _) (fracVal_lt_one _),
    ← a.trimmed_magnitude, ← b.trimmed_magnitude]
  rfl

lemma sign_eq : s.trimmed.sign = if s.magnitude = 0 then 0 else if s.neg then -1 else 1 := by
  by_cases h : s.magnitude = 0
  · simp [sign, h, (trimmed_isZero s).mpr h]
  · have hz : s.trimmed.isZero = false := by
      simpa using fun hz => h ((trimmed_isZero s).mp hz)
    have hneg : s.trimmed.neg = s.neg := rfl
    simp [sign, h, hz, hneg]

end DecimalText

/-- `decimal_cmp` compares the numbers. -/
lemma decimalCmp_eq (a b : DecimalText) : decimalCmp a b = compare a.val b.val := by
  have hneg : a.trimmed.neg = a.neg := rfl
  simp only [decimalCmp, sign_eq, magnitudeCmp_eq, hneg, and_eq_true,
    trimmed_isZero, DecimalText.val]
  have ha := a.magnitude_nonneg
  have hb := b.magnitude_nonneg
  generalize a.magnitude = x at *
  generalize b.magnitude = y at *
  -- a zero has no sign; otherwise the signs decide, and the magnitudes where they agree
  rcases ha.eq_or_lt' with rfl | hx <;> rcases hb.eq_or_lt' with rfl | hy
  · simp
  · have hlt := compare_lt_iff_lt.mpr hy
    have hgt : compare (0 : ℚ) (-y) = .gt := compare_gt_iff_gt.mpr (by linarith)
    cases b.neg <;> simp [hy.ne', hlt, hgt] <;> rfl
  · have hgt : compare x 0 = .gt := compare_gt_iff_gt.mpr hx
    have hlt : compare (-x) (0 : ℚ) = .lt := compare_lt_iff_lt.mpr (by linarith)
    cases a.neg <;> simp [hx.ne', hlt, hgt] <;> rfl
  · have hgt : compare x (-y) = .gt := compare_gt_iff_gt.mpr (by linarith)
    have hlt : compare (-x) y = .lt := compare_lt_iff_lt.mpr (by linarith)
    cases a.neg <;> cases b.neg <;> simp [hx.ne', hy.ne', hlt, hgt, compare_neg] <;> rfl

lemma intText_val (i : ℤ) : (intText i).val = i := by
  have hm : (intText i).magnitude = ((|i| : ℤ) : ℚ) := by
    simp [intText, magnitude, fracVal]
  rw [DecimalText.val, hm]
  rcases lt_or_ge i 0 with h | h
  · simp [intText, h, abs_of_neg h]
  · simp [intText, not_lt.mpr h, abs_of_nonneg h]

/-- An integer that does not exceed a finite float: nor does a smaller one. -/
lemma cmpI64F64_mono {a b : ℤ} {f : Library.Binary64} (hf : f.isNan = false) (hab : a ≤ b)
    (h : cmpI64F64 b f ≠ .gt) : cmpI64F64 a f ≠ .gt := by
  have compare_mono : ∀ {c : ℤ} {o : Ordering}, (compare b c).then o ≠ .gt →
      (compare a c).then o ≠ .gt := by
    intro c o hb
    rcases lt_trichotomy a c with hac | hac | hac
    · simp [compare_lt_iff_lt.mpr hac]
    · rcases (hac ▸ hab : c ≤ b).eq_or_lt with hcb | hcb
      · rw [← hcb, ← hac] at hb
        rwa [← hac]
      · simp [compare_gt_iff_gt.mpr hcb] at hb
    · simp [compare_gt_iff_gt.mpr (lt_of_lt_of_le hac hab)] at hb
  simp only [cmpI64F64, hf, false_eq_true, if_false] at h ⊢
  split_ifs at h ⊢ <;> first | exact h | exact compare_mono h

end FerroDb.Sql
