import Mathlib.Data.Int.Notation
import SpaceWasm.Error

/-!
# Floating-point values as bit patterns

What the interpreter does with the bits of a float itself (signs, NaN tests,
comparisons, minimum, maximum, conversion to an integer) is defined here on the
IEEE 754 encoding. The rounded operations of the processor and of `libm` are the
fields of `FloatOps`.
-/

namespace SpaceWasm

/-- A binary interchange format: `mantissa` fraction bits below the exponent,
with the sign in the top bit of the `width` bits. -/
structure FloatFormat where
  width : ℕ
  mantissa : ℕ

namespace FloatFormat

def f32 : FloatFormat := ⟨32, 23⟩

def f64 : FloatFormat := ⟨64, 52⟩

variable (F : FloatFormat)

/-- Everything but the sign. -/
def magnitude (x : ℕ) : ℕ := x % 2 ^ (F.width - 1)

def signBit (x : ℕ) : Bool := decide (2 ^ (F.width - 1) ≤ x)

/-- The magnitude of infinity. -/
def infinity : ℕ := 2 ^ (F.width - 1) - 2 ^ F.mantissa

def isNan (x : ℕ) : Bool := decide (F.infinity < F.magnitude x)

def isInfinite (x : ℕ) : Bool := decide (F.magnitude x = F.infinity)

/-- `NAN`: the quiet NaN with an empty payload. -/
def nan : ℕ := F.infinity + 2 ^ (F.mantissa - 1)

def abs (x : ℕ) : ℕ := F.magnitude x

def neg (x : ℕ) : ℕ :=
  if F.signBit x then F.magnitude x else F.magnitude x + 2 ^ (F.width - 1)

def copysign (x y : ℕ) : ℕ :=
  if F.signBit y then F.magnitude x + 2 ^ (F.width - 1) else F.magnitude x

/-- An integer that orders the patterns that are not NaN as their values. -/
def key (x : ℕ) : ℤ := if F.signBit x then -(F.magnitude x : ℤ) else (F.magnitude x : ℤ)

def eq (x y : ℕ) : Bool := !F.isNan x && !F.isNan y && decide (F.key x = F.key y)

def lt (x y : ℕ) : Bool := !F.isNan x && !F.isNan y && decide (F.key x < F.key y)

def le (x y : ℕ) : Bool := !F.isNan x && !F.isNan y && decide (F.key x ≤ F.key y)

def isZero (x : ℕ) : Bool := decide (F.magnitude x = 0)

def min (x y : ℕ) : ℕ :=
  if F.isNan x || F.isNan y then F.nan
  else if F.isZero x && F.isZero y then if F.signBit x then x else y
  else if F.lt x y then x else y

def max (x y : ℕ) : ℕ :=
  if F.isNan x || F.isNan y then F.nan
  else if F.isZero x && F.isZero y then if F.signBit x then y else x
  else if F.lt y x then x else y

/-- The value of a finite pattern, truncated toward zero. -/
def truncToInt (x : ℕ) : ℤ :=
  let m := F.magnitude x
  let bias := 2 ^ (F.width - 2 - F.mantissa) - 1
  let e := m / 2 ^ F.mantissa
  let significand := if e = 0 then m % 2 ^ F.mantissa else m % 2 ^ F.mantissa + 2 ^ F.mantissa
  -- The value is `significand * 2 ^ (max e 1 - bias - mantissa)`.
  let e := Nat.max e 1
  let n :=
    if bias + F.mantissa ≤ e then significand * 2 ^ (e - (bias + F.mantissa))
    else significand / 2 ^ (bias + F.mantissa - e)
  if F.signBit x then -(n : ℤ) else n

/-- A cast to an integer type with the given bounds: it saturates, and a NaN is 0. -/
def castToInt (lo hi : ℤ) (x : ℕ) : ℤ :=
  if F.isNan x then 0
  else if F.isInfinite x then if F.signBit x then lo else hi
  else Max.max lo (Min.min hi (F.truncToInt x))

end FloatFormat

/-- The float operations whose results are rounded. -/
structure FloatOps where
  f32Ceil : U32 → U32
  f32Floor : U32 → U32
  f32Trunc : U32 → U32
  f32Rint : U32 → U32
  f32Sqrt : U32 → U32
  f32Add : U32 → U32 → U32
  f32Sub : U32 → U32 → U32
  f32Mul : U32 → U32 → U32
  f32Div : U32 → U32 → U32
  f64Ceil : U64 → U64
  f64Floor : U64 → U64
  f64Trunc : U64 → U64
  f64Rint : U64 → U64
  f64Sqrt : U64 → U64
  f64Add : U64 → U64 → U64
  f64Sub : U64 → U64 → U64
  f64Mul : U64 → U64 → U64
  f64Div : U64 → U64 → U64
  f32OfInt : ℤ → U32
  f64OfInt : ℤ → U64
  f32Demote : U64 → U32
  f64Promote : U32 → U64

end SpaceWasm
