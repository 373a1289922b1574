import SpaceWasm.Engine
import SpaceWasm.Float
import SpaceWasm.Opcode

/-!
# Numeric instructions

The value each numeric instruction computes, by the shape of its operands on the
word stack. The shapes are the arms of the source's instruction macro and the
conversions written out by hand, which fall into the same shapes.
-/

namespace SpaceWasm

open Fallible

/-- A value, or a trap. -/
abbrev NumResult (α : Type) := Except TrapReason α

/-- What a numeric instruction does with the words on top of the stack. -/
inductive NumSem where
  /-- One word to one word. -/
  | unary32 (f : U32 → NumResult U32)
  /-- Two words to two words. -/
  | unary64 (f : U64 → NumResult U64)
  /-- Two operands of one word to one word. -/
  | binary32 (f : U32 → U32 → NumResult U32)
  /-- Two operands of two words to two words. -/
  | binary64 (f : U64 → U64 → NumResult U64)
  /-- Two operands of two words to one word. -/
  | compare64 (f : U64 → U64 → NumResult U32)
  /-- Two words to one word, with the stack pointer lowered first. -/
  | narrow (f : U64 → NumResult U32)
  /-- `i32_wrap_i64`: two words to one word, with the stack pointer lowered last. -/
  | wrap (f : U64 → NumResult U32)
  /-- One word to two words. -/
  | widen (f : U32 → NumResult U64)

def bool32 (b : Bool) : NumResult U32 := .ok (if b then 1 else 0)

/-! ### Integer operations -/

section Integers

variable {w : ℕ}

def intDivS (a b : BitVec w) : NumResult (BitVec w) :=
  if b = 0 then .error .divideByZero
  else if a = BitVec.intMin w ∧ b = -1 then .error .integerOverflow
  else .ok (a.sdiv b)

def intDivU (a b : BitVec w) : NumResult (BitVec w) :=
  if b = 0 then .error .divideByZero else .ok (a / b)

def intRemS (a b : BitVec w) : NumResult (BitVec w) :=
  if b = 0 then .error .divideByZero else .ok (a.srem b)

def intRemU (a b : BitVec w) : NumResult (BitVec w) :=
  if b = 0 then .error .divideByZero else .ok (a % b)

/-- `wrapping_shl(b as u32)`: the count is taken modulo the width. -/
def intShl (a b : BitVec w) : BitVec w := a <<< (b.toNat % 2 ^ 32 % w)

def intShrS (a b : BitVec w) : BitVec w := a.sshiftRight (b.toNat % 2 ^ 32 % w)

def intShrU (a b : BitVec w) : BitVec w := a >>> (b.toNat % 2 ^ 32 % w)

def intRotl (a b : BitVec w) : BitVec w := a.rotateLeft (b.toNat % 2 ^ 32)

def intRotr (a b : BitVec w) : BitVec w := a.rotateRight (b.toNat % 2 ^ 32)

/-- The low `k` bits, sign-extended. -/
def intExtend (k : ℕ) (a : BitVec w) : BitVec w := (a.setWidth k).signExtend w

end Integers

/-! ### Float operations -/

/-- The trapping truncations: infinity, NaN, and the bounds the result must be
strictly between. -/
def truncChecked {w v : ℕ} (F : FloatFormat) (hi lo : ℕ) (f : BitVec w → BitVec v)
    (x : BitVec w) : NumResult (BitVec v) :=
  if F.isInfinite x.toNat then .error .unrepresentableResult
  else if F.isNan x.toNat then .error .badConversionToInteger
  else if F.le hi x.toNat ∨ F.le x.toNat lo then .error .unrepresentableResult
  else .ok (f x)

/-- A cast to a signed integer of `v` bits. -/
def castS (F : FloatFormat) (v : ℕ) {w : ℕ} (x : BitVec w) : BitVec v :=
  BitVec.ofInt v (F.castToInt (-(2 ^ (v - 1))) (2 ^ (v - 1) - 1) x.toNat)

/-- A cast to an unsigned integer of `v` bits. -/
def castU (F : FloatFormat) (v : ℕ) {w : ℕ} (x : BitVec w) : BitVec v :=
  BitVec.ofInt v (F.castToInt 0 (2 ^ v - 1) x.toNat)

/-- A rounding operation: a NaN gives the canonical NaN. -/
def roundNan {w : ℕ} (F : FloatFormat) (f : BitVec w → BitVec w) (x : BitVec w) : BitVec w :=
  if F.isNan x.toNat then BitVec.ofNat w F.nan else f x

private def bits1 {w : ℕ} (f : ℕ → ℕ) (x : BitVec w) : NumResult (BitVec w) :=
  .ok (BitVec.ofNat w (f x.toNat))

private def bits2 {w : ℕ} (f : ℕ → ℕ → ℕ) (x y : BitVec w) : NumResult (BitVec w) :=
  .ok (BitVec.ofNat w (f x.toNat y.toNat))

private def test2 {w : ℕ} (f : ℕ → ℕ → Bool) (x y : BitVec w) : NumResult U32 :=
  bool32 (f x.toNat y.toNat)

/-- The semantics of the numeric instructions; `a` is the operand below `b`. -/
def NumOp.sem (ops : FloatOps) : NumOp → NumSem
  | i32Eqz => .unary32 fun a => bool32 (a = 0)
  | i32Eq => .binary32 fun a b => bool32 (a = b)
  | i32Ne => .binary32 fun a b => bool32 (a ≠ b)
  | i32LtS => .binary32 fun a b => bool32 (a.slt b)
  | i32LtU => .binary32 fun a b => bool32 (a.ult b)
  | i32GtS => .binary32 fun a b => bool32 (b.slt a)
  | i32GtU => .binary32 fun a b => bool32 (b.ult a)
  | i32LeS => .binary32 fun a b => bool32 (a.sle b)
  | i32LeU => .binary32 fun a b => bool32 (a.ule b)
  | i32GeS => .binary32 fun a b => bool32 (b.sle a)
  | i32GeU => .binary32 fun a b => bool32 (b.ule a)
  | i64Eqz => .narrow fun a => bool32 (a = 0)
  | i64Eq => .compare64 fun a b => bool32 (a = b)
  | i64Ne => .compare64 fun a b => bool32 (a ≠ b)
  | i64LtS => .compare64 fun a b => bool32 (a.slt b)
  | i64LtU => .compare64 fun a b => bool32 (a.ult b)
  | i64GtS => .compare64 fun a b => bool32 (b.slt a)
  | i64GtU => .compare64 fun a b => bool32 (b.ult a)
  | i64LeS => .compare64 fun a b => bool32 (a.sle b)
  | i64LeU => .compare64 fun a b => bool32 (a.ule b)
  | i64GeS => .compare64 fun a b => bool32 (b.sle a)
  | i64GeU => .compare64 fun a b => bool32 (b.ule a)
  | f32Eq => .binary32 (test2 FloatFormat.f32.eq)
  | f32Ne => .binary32 (test2 fun a b => !FloatFormat.f32.eq a b)
  | f32Lt => .binary32 (test2 FloatFormat.f32.lt)
  | f32Gt => .binary32 (test2 fun a b => FloatFormat.f32.lt b a)
  | f32Le => .binary32 (test2 FloatFormat.f32.le)
  | f32Ge => .binary32 (test2 fun a b => FloatFormat.f32.le b a)
  | f64Eq => .compare64 (test2 FloatFormat.f64.eq)
  | f64Ne => .compare64 (test2 fun a b => !FloatFormat.f64.eq a b)
  | f64Lt => .compare64 (test2 FloatFormat.f64.lt)
  | f64Gt => .compare64 (test2 fun a b => FloatFormat.f64.lt b a)
  | f64Le => .compare64 (test2 FloatFormat.f64.le)
  | f64Ge => .compare64 (test2 fun a b => FloatFormat.f64.le b a)
  | i32Clz => .unary32 fun a => .ok a.clz
  | i32Ctz => .unary32 fun a => .ok a.ctz
  | i32Popcnt => .unary32 fun a => .ok a.cpop
  | i32Add => .binary32 fun a b => .ok (a + b)
  | i32Sub => .binary32 fun a b => .ok (a - b)
  | i32Mul => .binary32 fun a b => .ok (a * b)
  | i32DivS => .binary32 intDivS
  | i32DivU => .binary32 intDivU
  | i32RemS => .binary32 intRemS
  | i32RemU => .binary32 intRemU
  | i32And => .binary32 fun a b => .ok (a &&& b)
  | i32Or => .binary32 fun a b => .ok (a ||| b)
  | i32Xor => .binary32 fun a b => .ok (a ^^^ b)
  | i32Shl => .binary32 fun a b => .ok (intShl a b)
  | i32ShrS => .binary32 fun a b => .ok (intShrS a b)
  | i32ShrU => .binary32 fun a b => .ok (intShrU a b)
  | i32Rotl => .binary32 fun a b => .ok (intRotl a b)
  | i32Rotr => .binary32 fun a b => .ok (intRotr a b)
  | i64Clz => .unary64 fun a => .ok a.clz
  | i64Ctz => .unary64 fun a => .ok a.ctz
  | i64Popcnt => .unary64 fun a => .ok a.cpop
  | i64Add => .binary64 fun a b => .ok (a + b)
  | i64Sub => .binary64 fun a b => .ok (a - b)
  | i64Mul => .binary64 fun a b => .ok (a * b)
  | i64DivS => .binary64 intDivS
  | i64DivU => .binary64 intDivU
  | i64RemS => .binary64 intRemS
  | i64RemU => .binary64 intRemU
  | i64And => .binary64 fun a b => .ok (a &&& b)
  | i64Or => .binary64 fun a b => .ok (a ||| b)
  | i64Xor => .binary64 fun a b => .ok (a ^^^ b)
  | i64Shl => .binary64 fun a b => .ok (intShl a b)
  | i64ShrS => .binary64 fun a b => .ok (intShrS a b)
  | i64ShrU => .binary64 fun a b => .ok (intShrU a b)
  | i64Rotl => .binary64 fun a b => .ok (intRotl a b)
  | i64Rotr => .binary64 fun a b => .ok (intRotr a b)
  | f32Abs => .unary32 (bits1 FloatFormat.f32.abs)
  | f32Neg => .unary32 (bits1 FloatFormat.f32.neg)
  | f32Ceil => .unary32 fun a => .ok (roundNan .f32 ops.f32Ceil a)
  | f32Floor => .unary32 fun a => .ok (roundNan .f32 ops.f32Floor a)
  | f32Trunc => .unary32 fun a => .ok (roundNan .f32 ops.f32Trunc a)
  | f32Nearest => .unary32 fun a => .ok (roundNan .f32 ops.f32Rint a)
  | f32Sqrt => .unary32 fun a => .ok (ops.f32Sqrt a)
  | f32Add => .binary32 fun a b => .ok (ops.f32Add a b)
  | f32Sub => .binary32 fun a b => .ok (ops.f32Sub a b)
  | f32Mul => .binary32 fun a b => .ok (ops.f32Mul a b)
  | f32Div => .binary32 fun a b => .ok (ops.f32Div a b)
  | f32Min => .binary32 (bits2 FloatFormat.f32.min)
  | f32Max => .binary32 (bits2 FloatFormat.f32.max)
  | f32Copysign => .binary32 (bits2 FloatFormat.f32.copysign)
  | f64Abs => .unary64 (bits1 FloatFormat.f64.abs)
  | f64Neg => .unary64 (bits1 FloatFormat.f64.neg)
  | f64Ceil => .unary64 fun a => .ok (roundNan .f64 ops.f64Ceil a)
  | f64Floor => .unary64 fun a => .ok (roundNan .f64 ops.f64Floor a)
  | f64Trunc => .unary64 fun a => .ok (roundNan .f64 ops.f64Trunc a)
  | f64Nearest => .unary64 fun a => .ok (roundNan .f64 ops.f64Rint a)
  | f64Sqrt => .unary64 fun a => .ok (ops.f64Sqrt a)
  | f64Add => .binary64 fun a b => .ok (ops.f64Add a b)
  | f64Sub => .binary64 fun a b => .ok (ops.f64Sub a b)
  | f64Mul => .binary64 fun a b => .ok (ops.f64Mul a b)
  | f64Div => .binary64 fun a b => .ok (ops.f64Div a b)
  | f64Min => .binary64 (bits2 FloatFormat.f64.min)
  | f64Max => .binary64 (bits2 FloatFormat.f64.max)
  | f64Copysign => .binary64 (bits2 FloatFormat.f64.copysign)
  | i32WrapI64 => .wrap fun a => .ok (a.setWidth 32)
  | i32TruncF32S => .unary32 (truncChecked .f32 0x4F000000 0xCF000001 (castS .f32 32))
  | i32TruncF32U => .unary32 (truncChecked .f32 0x4F800000 0xBF800000 (castU .f32 32))
  | i32TruncF64S =>
      .narrow (truncChecked .f64 0x41E0000000000000 0xC1E0000000200000 (castS .f64 32))
  | i32TruncF64U =>
      .narrow (truncChecked .f64 0x41F0000000000000 0xBFF0000000000000 (castU .f64 32))
  | i64ExtendI32S => .widen fun a => .ok (a.signExtend 64)
  | i64ExtendI32U => .widen fun a => .ok (a.setWidth 64)
  | i64TruncF32S => .widen (truncChecked .f32 0x5F000000 0xDF000001 (castS .f32 64))
  | i64TruncF32U => .widen (truncChecked .f32 0x5F800000 0xBF800000 (castU .f32 64))
  | i64TruncF64S =>
      .unary64 (truncChecked .f64 0x43E0000000000000 0xC3E0000000000001 (castS .f64 64))
  | i64TruncF64U =>
      .unary64 (truncChecked .f64 0x43F0000000000000 0xBFF0000000000000 (castU .f64 64))
  | f32ConvertI32S => .unary32 fun a => .ok (ops.f32OfInt a.toInt)
  | f32ConvertI32U => .unary32 fun a => .ok (ops.f32OfInt a.toNat)
  | f32ConvertI64S => .narrow fun a => .ok (ops.f32OfInt a.toInt)
  | f32ConvertI64U => .narrow fun a => .ok (ops.f32OfInt a.toNat)
  | f32DemoteF64 => .narrow fun a => .ok (ops.f32Demote a)
  | f64ConvertI32S => .widen fun a => .ok (ops.f64OfInt a.toInt)
  | f64ConvertI32U => .widen fun a => .ok (ops.f64OfInt a.toNat)
  | f64ConvertI64S => .unary64 fun a => .ok (ops.f64OfInt a.toInt)
  | f64ConvertI64U => .unary64 fun a => .ok (ops.f64OfInt a.toNat)
  | f64PromoteF32 => .widen fun a => .ok (ops.f64Promote a)
  | i32Extend8S => .unary32 fun a => .ok (intExtend 8 a)
  | i32Extend16S => .unary32 fun a => .ok (intExtend 16 a)
  | i64Extend8S => .unary64 fun a => .ok (intExtend 8 a)
  | i64Extend16S => .unary64 fun a => .ok (intExtend 16 a)
  | i64Extend32S => .unary64 fun a => .ok (intExtend 32 a)

/-- The saturating truncations. -/
def SatOp.sem : SatOp → NumSem
  | i32TruncSatF32S => .unary32 fun a => .ok (castS .f32 32 a)
  | i32TruncSatF32U => .unary32 fun a => .ok (castU .f32 32 a)
  | i32TruncSatF64S => .narrow fun a => .ok (castS .f64 32 a)
  | i32TruncSatF64U => .narrow fun a => .ok (castU .f64 32 a)
  | i64TruncSatF32S => .widen fun a => .ok (castS .f32 64 a)
  | i64TruncSatF32U => .widen fun a => .ok (castU .f32 64 a)
  | i64TruncSatF64S => .unary64 fun a => .ok (castS .f64 64 a)
  | i64TruncSatF64U => .unary64 fun a => .ok (castU .f64 64 a)

variable {η : Type}

/-- The value of a numeric operation, or its trap. -/
def numResult {α : Type} : NumResult α → ExecM η α
  | .ok a => pure a
  | .error reason => throw (.trap reason)

/-- Execute a numeric instruction. -/
def NumSem.exec : NumSem → ExecM η Unit
  | unary32 f => do
      let addr ← spBelow 1
      let a ← readWord addr
      let r ← numResult (f a)
      writeWord addr r
  | unary64 f => do
      let addr ← spBelow 2
      let a ← readDouble addr
      let r ← numResult (f a)
      writeDouble addr r
  | binary32 f => do
      dropSp 1
      let e ← get
      let b ← readWord e.sp
      let addr ← spBelow 1
      let a ← readWord addr
      let r ← numResult (f a b)
      writeWord addr r
  | binary64 f => do
      dropSp 2
      let e ← get
      let b ← readDouble e.sp
      let addr ← spBelow 2
      let a ← readDouble addr
      let r ← numResult (f a b)
      writeDouble addr r
  | compare64 f => do
      dropSp 3
      let e ← get
      let b ← readDouble (e.sp + 1)
      let addr ← spBelow 1
      let a ← readDouble addr
      let r ← numResult (f a b)
      writeWord addr r
  | narrow f => do
      dropSp 1
      let addr ← spBelow 1
      let a ← readDouble addr
      let r ← numResult (f a)
      writeWord addr r
  | wrap f => do
      let addr ← spBelow 2
      let a ← readDouble addr
      let r ← numResult (f a)
      writeWord addr r
      dropSp 1
  | widen f => do
      let addr ← spBelow 1
      let a ← readWord addr
      let r ← numResult (f a)
      writeDouble addr r
      raiseSp 1

end SpaceWasm
