import Mathlib.Data.Rat.Defs
import Mathlib.Tactic

/-!
# Binary64

IEEE 754 doubles as their 64 bits, with arithmetic computed exactly and rounded once, to
nearest with ties to even. A NaN that arithmetic makes is the quiet one of positive sign.
-/

namespace FerroDb.Library

/-- A double, by its bits. -/
structure Binary64 where
  bits : UInt64
deriving DecidableEq

namespace Binary64

/-! ## Fields -/

variable (x : Binary64)

def signBit : Bool := 2 ^ 63 ≤ x.bits.toNat

/-- The bits without the sign. -/
def magnitude : ℕ := x.bits.toNat % 2 ^ 63

def infinityBits : ℕ := 2047 * 2 ^ 52

def isNan : Bool := infinityBits < x.magnitude

def isInfinite : Bool := x.magnitude = infinityBits

def isZero : Bool := x.magnitude = 0

/-- The significand and the exponent of its last place: a finite `x` is `±m * 2 ^ e`. -/
def parts : ℕ × ℤ :=
  let field : ℕ := x.magnitude / 2 ^ 52
  let fraction : ℕ := x.magnitude % 2 ^ 52
  if field = 0 then (fraction, -1074) else (2 ^ 52 + fraction, (field : ℤ) - 1075)

def ofMagnitude (neg : Bool) (magnitude : ℕ) : Binary64 :=
  ⟨UInt64.ofNat (magnitude + if neg then 2 ^ 63 else 0)⟩

def nan : Binary64 := ofMagnitude false (2047 * 2 ^ 52 + 2 ^ 51)

def infinity (neg : Bool) : Binary64 := ofMagnitude neg infinityBits

def zero (neg : Bool) : Binary64 := ofMagnitude neg 0

/-! ## Rounding -/

/-- `n / d` to the nearest natural number, ties to even. -/
def roundHalfEven (n d : ℕ) : ℕ :=
  let q := n / d
  let r := n % d
  if 2 * r < d then q else if d < 2 * r then q + 1 else if q % 2 = 0 then q else q + 1

/-- The scaled numerator and denominator of `n / d / 2 ^ e`. -/
def scaled (n d : ℕ) (e : ℤ) : ℕ × ℕ :=
  if 0 ≤ e then (n, d * 2 ^ e.toNat) else (n * 2 ^ (-e).toNat, d)

/-- The largest `e` with `2 ^ e ≤ n / d`, for positive `n` and `d`. -/
def floorLog2 (n d : ℕ) : ℤ :=
  let e : ℤ := n.log2 - d.log2
  let s := scaled n d e
  if s.2 ≤ s.1 then e else e - 1

/-- The double nearest to `n / d`. A carry out of the significand moves into the exponent by
itself, and one out of the exponent is the infinity. -/
def ofRatio (neg : Bool) (n d : ℕ) : Binary64 :=
  if n = 0 then zero neg
  else
    let place := max (floorLog2 n d - 52) (-1074)
    let s := scaled n d place
    ofMagnitude neg
      (min ((place + 1074).toNat * 2 ^ 52 + roundHalfEven s.1 s.2) infinityBits)

/-- The double nearest to `m * 2 ^ e`. -/
def ofScaled (neg : Bool) (m : ℕ) (e : ℤ) : Binary64 :=
  if 0 ≤ e then ofRatio neg (m * 2 ^ e.toNat) 1 else ofRatio neg m (2 ^ (-e).toNat)

def ofInt (i : ℤ) : Binary64 := ofRatio (i < 0) i.natAbs 1

/-! ## Arithmetic -/

def neg : Binary64 := ofMagnitude (!x.signBit) x.magnitude

/-- The significand with its sign. -/
def signed : ℤ := if x.signBit then -(x.parts.1 : ℤ) else x.parts.1

def add (x y : Binary64) : Binary64 :=
  if x.isNan || y.isNan then nan
  else if x.isInfinite then if y.isInfinite && x.signBit != y.signBit then nan else x
  else if y.isInfinite then y
  else
    let e := min x.parts.2 y.parts.2
    let sum := x.signed * 2 ^ (x.parts.2 - e).toNat + y.signed * 2 ^ (y.parts.2 - e).toNat
    if sum = 0 then zero (x.signBit && y.signBit)
    else ofScaled (sum < 0) sum.natAbs e

def sub (x y : Binary64) : Binary64 := x.add y.neg

def mul (x y : Binary64) : Binary64 :=
  let s := x.signBit != y.signBit
  if x.isNan || y.isNan then nan
  else if x.isInfinite || y.isInfinite then if x.isZero || y.isZero then nan else infinity s
  else if x.isZero || y.isZero then zero s
  else ofScaled s (x.parts.1 * y.parts.1) (x.parts.2 + y.parts.2)

def div (x y : Binary64) : Binary64 :=
  let s := x.signBit != y.signBit
  if x.isNan || y.isNan then nan
  else if x.isInfinite then if y.isInfinite then nan else infinity s
  else if y.isInfinite then zero s
  else if y.isZero then if x.isZero then nan else infinity s
  else
    let e := x.parts.2 - y.parts.2
    if 0 ≤ e then ofRatio s (x.parts.1 * 2 ^ e.toNat) y.parts.1
    else ofRatio s x.parts.1 (y.parts.1 * 2 ^ (-e).toNat)

/-! ## Order -/

/-- Where the bits stand in the total order: below zero, more bits are less. -/
def totalKey : ℤ :=
  if x.signBit then -1 - (x.magnitude : ℤ) else x.magnitude

/-- The total order of IEEE 754, which tells zeros and NaNs of different signs apart. -/
def totalCmp (x y : Binary64) : Ordering := compare x.totalKey y.totalKey

/-- The integer part of a finite double. -/
def trunc : ℤ :=
  let m := if 0 ≤ x.parts.2 then x.parts.1 * 2 ^ x.parts.2.toNat
    else x.parts.1 / 2 ^ (-x.parts.2).toNat
  if x.signBit then -(m : ℤ) else m

/-- A finite double has no fraction. -/
def isIntegral : Bool :=
  0 ≤ x.parts.2 || x.parts.1 % 2 ^ (-x.parts.2).toNat = 0

end Binary64

end FerroDb.Library
