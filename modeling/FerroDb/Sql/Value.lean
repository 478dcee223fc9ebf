import FerroDb.Catalog
import FerroDb.Library.Binary64
import Mathlib.Data.List.DropRight

/-!
# Values

SQL values and their order, after `catalog/column.rs`. Integers are mathematical integers kept
in the range of their type by the operations that make them; a float is its bits; a decimal is
the digits it is written with.
-/

namespace FerroDb.Sql

open Library (Binary64)

/-! ## Machine integers -/

def i32Min : ℤ := -2 ^ 31
def i32Max : ℤ := 2 ^ 31 - 1
def i64Min : ℤ := -2 ^ 63
def i64Max : ℤ := 2 ^ 63 - 1

/-- An integer that fits in an `i64`. -/
def checkedI64 (i : ℤ) : Option ℤ := if i64Min ≤ i ∧ i ≤ i64Max then some i else none

/-! ## Decimal digits -/

abbrev Digit := Fin 10

/-- The number a string of digits spells. -/
def ofDigits (ds : List Digit) : ℕ := ds.foldl (fun n (d : Digit) => 10 * n + d.val) 0

def digitsAux : ℕ → ℕ → List Digit → List Digit
  | 0, _, acc => acc
  | fuel + 1, n, acc =>
    let acc := Fin.ofNat 10 n :: acc
    if n / 10 = 0 then acc else digitsAux fuel (n / 10) acc

/-- The digits of a number, without leading zeros. -/
def natDigits (n : ℕ) : List Digit := digitsAux (n + 1) n []

def showDigits (ds : List Digit) : String :=
  String.ofList (ds.map fun d => Char.ofNat (48 + d))

lemma ofDigits_foldl (ds : List Digit) (n : ℕ) :
    ds.foldl (fun n (d : Digit) => 10 * n + d.val) n = 10 ^ ds.length * n + ofDigits ds := by
  induction ds generalizing n with
  | nil => simp [ofDigits]
  | cons d ds ih =>
    have h0 : ofDigits (d :: ds) = 10 ^ ds.length * d + ofDigits ds := by
      simpa [ofDigits] using ih d
    simp only [List.foldl_cons, ih, h0, List.length_cons]
    ring

lemma ofDigits_digitsAux (fuel n : ℕ) (acc : List Digit) (h : n < fuel) :
    ofDigits (digitsAux fuel n acc) = 10 ^ acc.length * n + ofDigits acc := by
  induction fuel generalizing n acc with
  | zero => omega
  | succ fuel ih =>
    have hcons : ∀ m : ℕ, ofDigits (Fin.ofNat 10 m :: acc) =
        10 ^ acc.length * (m % 10) + ofDigits acc := by
      intro m
      simpa [ofDigits] using ofDigits_foldl acc (m % 10)
    rw [digitsAux]
    split_ifs with h0
    · rw [hcons, Nat.mod_eq_of_lt (by omega)]
    · rw [ih _ _ (by omega), hcons]
      have := Nat.div_add_mod n 10
      calc 10 ^ (acc.length + 1) * (n / 10) + (10 ^ acc.length * (n % 10) + ofDigits acc)
          = 10 ^ acc.length * (10 * (n / 10) + n % 10) + ofDigits acc := by ring
        _ = 10 ^ acc.length * n + ofDigits acc := by rw [this]

@[simp] lemma ofDigits_natDigits (n : ℕ) : ofDigits (natDigits n) = n := by
  rw [natDigits, ofDigits_digitsAux _ _ _ (Nat.lt_succ_self n)]
  simp [ofDigits]

/-! ## Decimals -/

/-- A sign and digits on both sides of a point. -/
structure DecimalText where
  neg : Bool
  int : List Digit
  frac : List Digit
deriving DecidableEq

namespace DecimalText

/-- The text without what does not count: leading zeros and trailing zeros. -/
def trimmed (s : DecimalText) : DecimalText :=
  ⟨s.neg, s.int.dropWhile (· = 0), s.frac.rdropWhile (· = 0)⟩

def isZero (s : DecimalText) : Bool := s.int.isEmpty && s.frac.isEmpty

def sign (s : DecimalText) : ℤ := if s.isZero then 0 else if s.neg then -1 else 1

/-- Fractions digit by digit, the shorter one padded with zeros. -/
def fracCmp : List Digit → List Digit → Ordering
  | [], bs => if bs.all (· = 0) then .eq else .lt
  | a :: as, bs => (compare a (bs.headD 0)).then (fracCmp as bs.tail)

def digitsCmp : List Digit → List Digit → Ordering
  | [], [] => .eq
  | [], _ :: _ => .lt
  | _ :: _, [] => .gt
  | a :: as, b :: bs => (compare a b).then (digitsCmp as bs)

def magnitudeCmp (a b : DecimalText) : Ordering :=
  ((compare a.int.length b.int.length).then (digitsCmp a.int b.int)).then (fracCmp a.frac b.frac)

end DecimalText

/-- Numbers by value, however they are written. -/
def decimalCmp (a b : DecimalText) : Ordering :=
  let a := a.trimmed
  let b := b.trimmed
  if a.isZero && b.isZero then .eq
  else if a.sign ≠ b.sign then compare a.sign b.sign
  else if a.neg then (a.magnitudeCmp b).swap else a.magnitudeCmp b

/-- A decimal as `parse_decimal` writes it: digits on both sides of the point. -/
structure Decimal extends DecimalText where
  int_ne : int ≠ []
  frac_ne : frac ≠ []
deriving DecidableEq

namespace Decimal

def text (d : Decimal) : String :=
  (if d.neg then "-" else "") ++ showDigits d.int ++ "." ++ showDigits d.frac

end Decimal

/-- The text of an integer. -/
def intText (i : ℤ) : DecimalText := ⟨i < 0, natDigits i.natAbs, []⟩

/-- The whole binary expansion of a finite float, in decimal. -/
def f64ExactDecimal (f : Binary64) : DecimalText :=
  let m := f.parts.1
  let e := f.parts.2
  let scaled := if 0 ≤ e then m * 2 ^ e.toNat * 10 ^ 1074 else m * 10 ^ 1074 / 2 ^ (-e).toNat
  let frac := natDigits (scaled % 10 ^ 1074)
  ⟨f.signBit, natDigits (scaled / 10 ^ 1074), List.replicate (1074 - frac.length) 0 ++ frac⟩

/-! ## Values -/

inductive Value where
  | integer (i : ℤ)
  | float (f : Binary64)
  | varchar (s : String)
  | boolean (b : Bool)
  | bigInt (i : ℤ)
  | decimal (d : Decimal)
  | timestamp (ms : ℤ)
  | null
deriving DecidableEq

abbrev Row := List Value

def cmpF64Decimal (f : Binary64) (d : DecimalText) : Ordering :=
  if f.isNan then if f.signBit then .lt else .gt
  else if f.isInfinite then if f.signBit then .lt else .gt
  else if f.isZero && f.signBit then
    if d.neg && !d.trimmed.isZero then .gt else .lt
  else decimalCmp (f64ExactDecimal f) d

def cmpI64F64 (a : ℤ) (b : Binary64) : Ordering :=
  if b.isNan then (Binary64.ofInt a).totalCmp b
  else if b.isInfinite then if b.signBit then .gt else .lt
  else if b.isZero && b.signBit then (compare a 0).then .gt
  else if i64Max < b.trunc then .lt
  else if b.trunc < i64Min then .gt
  else
    (compare a b.trunc).then
      (if b.isIntegral then .eq else if b.signBit then .gt else .lt)

namespace Value

def typeRank : Value → ℕ
  | null => 0
  | boolean _ => 1
  | integer _ => 2
  | bigInt _ => 3
  | float _ => 4
  | decimal _ => 5
  | timestamp _ => 6
  | varchar _ => 7

def cmp : Value → Value → Ordering
  | integer a, integer b => compare a b
  | float a, float b => a.totalCmp b
  | integer a, float b => (Binary64.ofInt a).totalCmp b
  | float a, integer b => a.totalCmp (Binary64.ofInt b)
  | boolean a, boolean b => compare a b
  | varchar a, varchar b => compare a b
  | null, null => .eq
  | bigInt a, bigInt b => compare a b
  | bigInt a, integer b => compare a b
  | integer a, bigInt b => compare a b
  | bigInt a, float b => cmpI64F64 a b
  | float a, bigInt b => (cmpI64F64 b a).swap
  | decimal a, decimal b => decimalCmp a.toDecimalText b.toDecimalText
  | decimal a, integer b => decimalCmp a.toDecimalText (intText b)
  | integer a, decimal b => decimalCmp (intText a) b.toDecimalText
  | decimal a, bigInt b => decimalCmp a.toDecimalText (intText b)
  | bigInt a, decimal b => decimalCmp (intText a) b.toDecimalText
  | decimal a, float b => (cmpF64Decimal b a.toDecimalText).swap
  | float a, decimal b => cmpF64Decimal a b.toDecimalText
  | timestamp a, timestamp b => compare a b
  | a, b => compare a.typeRank b.typeRank

/-- `PartialEq`: values that compare equal. -/
def eqv (a b : Value) : Bool := a.cmp b = .eq

def isNull : Value → Bool
  | null => true
  | _ => false

/-- The `Debug` of a value, floats by their bits. -/
def debug : Value → String
  | integer i => s!"Integer({i})"
  | float f => s!"Float(bits {f.bits})"
  | varchar s => "Varchar(\"" ++ s ++ "\")"
  | boolean b => s!"Boolean({b})"
  | bigInt i => s!"BigInt({i})"
  | decimal d => "Decimal(\"" ++ d.text ++ "\")"
  | timestamp ms => s!"Timestamp({ms})"
  | null => "Null"

end Value

/-! ## Equal values -/

lemma fracCmp_self (ds : List Digit) : DecimalText.fracCmp ds ds = .eq := by
  induction ds with
  | nil => rfl
  | cons d ds ih => simp [DecimalText.fracCmp, ih]

lemma digitsCmp_self (ds : List Digit) : DecimalText.digitsCmp ds ds = .eq := by
  induction ds with
  | nil => rfl
  | cons d ds ih => simp [DecimalText.digitsCmp, ih]

@[simp] lemma decimalCmp_self (a : DecimalText) : decimalCmp a a = .eq := by
  simp [decimalCmp, DecimalText.magnitudeCmp, fracCmp_self, digitsCmp_self]

@[simp] lemma totalCmp_self (f : Binary64) : f.totalCmp f = .eq := by
  simp [Binary64.totalCmp]

@[simp] lemma Value.eqv_refl (v : Value) : v.eqv v = true := by
  cases v <;> simp [Value.eqv, Value.cmp]

/-- Rows whose cells compare equal, one by one. -/
def Row.eqv (a b : Row) : Bool := a.length = b.length && (a.zip b).all fun p => p.1.eqv p.2

@[simp] lemma Row.eqv_refl (a : Row) : Row.eqv a a = true := by
  simp only [Row.eqv, decide_true, Bool.true_and, List.all_eq_true]
  rintro ⟨x, y⟩ hxy
  have : x = y := by
    obtain ⟨i, hi, h⟩ := List.getElem_of_mem hxy
    simp only [List.getElem_zip, Prod.mk.injEq] at h
    exact h.1.symm.trans h.2
  simp [this]

end FerroDb.Sql
