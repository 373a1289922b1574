import SpaceWasm.Types

/-!
# Opcodes

The opcode constants, and the families of instructions that differ only in a
few values: loads, stores, numeric instructions, saturating truncations and
reinterpretations. Each member of a family is a constructor under its source
name, and tables give its opcode and its operand and result types.

The Wasm decoder and the IR decoder match on the same constants, so `ofOpcode`
serves both of them.
-/

namespace SpaceWasm

namespace Opcode

def unreachable : U8 := 0x00
def nop : U8 := 0x01
def block : U8 := 0x02
def loop : U8 := 0x03
def if_ : U8 := 0x04
def else_ : U8 := 0x05
def end_ : U8 := 0x0B
def br : U8 := 0x0C
def brIf : U8 := 0x0D
def brTable : U8 := 0x0E
def return_ : U8 := 0x0F
def call : U8 := 0x10
def callHost : U8 := 0x12
def callExtern : U8 := 0x13
def callIndirect : U8 := 0x11
def drop : U8 := 0x1A
def select : U8 := 0x1B
def localGet : U8 := 0x20
def localSet : U8 := 0x21
def localTee : U8 := 0x22
def globalGet : U8 := 0x23
def globalSet : U8 := 0x24
def globalGetHost : U8 := 0x25
def globalSetHost : U8 := 0x26
def globalGetExtern : U8 := 0x27
def globalSetExtern : U8 := 0x1C
def memorySize : U8 := 0x3F
def memoryGrow : U8 := 0x40
def i32Const : U8 := 0x41
def i64Const : U8 := 0x42
def f32Const : U8 := 0x43
def f64Const : U8 := 0x44
def extendedFc : U8 := 0xFC

end Opcode

/-- The load instructions. -/
inductive LoadOp where
  | i32Load | i64Load | f32Load | f64Load | i32Load8S | i32Load8U | i32Load16S | i32Load16U
  | i64Load8S | i64Load8U | i64Load16S | i64Load16U | i64Load32S | i64Load32U
  deriving DecidableEq, Repr

namespace LoadOp

def opcode : LoadOp → U8
  | i32Load => 0x28
  | i64Load => 0x29
  | f32Load => 0x2A
  | f64Load => 0x2B
  | i32Load8S => 0x2C
  | i32Load8U => 0x2D
  | i32Load16S => 0x2E
  | i32Load16U => 0x2F
  | i64Load8S => 0x30
  | i64Load8U => 0x31
  | i64Load16S => 0x32
  | i64Load16U => 0x33
  | i64Load32S => 0x34
  | i64Load32U => 0x35

/-- The largest alignment exponent the validator accepts. -/
def maxAlign : LoadOp → ℕ
  | i32Load | f32Load | i64Load32S | i64Load32U => 2
  | i64Load | f64Load => 3
  | i32Load8S | i32Load8U | i64Load8S | i64Load8U => 0
  | i32Load16S | i32Load16U | i64Load16S | i64Load16U => 1

/-- The type of the loaded value; the operand is an `i32` address. -/
def result : LoadOp → ValType
  | i32Load | i32Load8S | i32Load8U | i32Load16S | i32Load16U => .i32
  | i64Load | i64Load8S | i64Load8U | i64Load16S | i64Load16U | i64Load32S | i64Load32U => .i64
  | f32Load => .f32
  | f64Load => .f64

/-- All members, in the order of the opcode tables. -/
def all : List LoadOp :=
  [i32Load, i64Load, f32Load, f64Load, i32Load8S, i32Load8U, i32Load16S, i32Load16U, i64Load8S,
   i64Load8U, i64Load16S, i64Load16U, i64Load32S, i64Load32U]

/-- The member with a given opcode. -/
def ofOpcode (op : U8) : Option LoadOp := all.find? fun i => i.opcode = op

@[simp] theorem ofOpcode_opcode (i : LoadOp) : ofOpcode i.opcode = some i := by
  cases i <;> decide

end LoadOp

/-- The store instructions. -/
inductive StoreOp where
  | i32Store | i64Store | f32Store | f64Store | i32Store8 | i32Store16 | i64Store8 | i64Store16
  | i64Store32
  deriving DecidableEq, Repr

namespace StoreOp

def opcode : StoreOp → U8
  | i32Store => 0x36
  | i64Store => 0x37
  | f32Store => 0x38
  | f64Store => 0x39
  | i32Store8 => 0x3A
  | i32Store16 => 0x3B
  | i64Store8 => 0x3C
  | i64Store16 => 0x3D
  | i64Store32 => 0x3E

/-- The largest alignment exponent the validator accepts. -/
def maxAlign : StoreOp → ℕ
  | i32Store | f32Store | i64Store32 => 2
  | i64Store | f64Store => 3
  | i32Store8 | i64Store8 => 0
  | i32Store16 | i64Store16 => 1

/-- The type of the stored value; below it lies an `i32` address. -/
def operand : StoreOp → ValType
  | i32Store | i32Store8 | i32Store16 => .i32
  | i64Store | i64Store8 | i64Store16 | i64Store32 => .i64
  | f32Store => .f32
  | f64Store => .f64

/-- All members, in the order of the opcode tables. -/
def all : List StoreOp :=
  [i32Store, i64Store, f32Store, f64Store, i32Store8, i32Store16, i64Store8, i64Store16,
   i64Store32]

/-- The member with a given opcode. -/
def ofOpcode (op : U8) : Option StoreOp := all.find? fun i => i.opcode = op

@[simp] theorem ofOpcode_opcode (i : StoreOp) : ofOpcode i.opcode = some i := by
  cases i <;> decide

end StoreOp

/-- The numeric instructions without immediates. -/
inductive NumOp where
  | i32Eqz | i32Eq | i32Ne | i32LtS | i32LtU | i32GtS | i32GtU | i32LeS | i32LeU | i32GeS
  | i32GeU | i64Eqz | i64Eq | i64Ne | i64LtS | i64LtU | i64GtS | i64GtU | i64LeS | i64LeU
  | i64GeS | i64GeU | f32Eq | f32Ne | f32Lt | f32Gt | f32Le | f32Ge | f64Eq | f64Ne | f64Lt
  | f64Gt | f64Le | f64Ge | i32Clz | i32Ctz | i32Popcnt | i32Add | i32Sub | i32Mul | i32DivS
  | i32DivU | i32RemS | i32RemU | i32And | i32Or | i32Xor | i32Shl | i32ShrS | i32ShrU | i32Rotl
  | i32Rotr | i64Clz | i64Ctz | i64Popcnt | i64Add | i64Sub | i64Mul | i64DivS | i64DivU
  | i64RemS | i64RemU | i64And | i64Or | i64Xor | i64Shl | i64ShrS | i64ShrU | i64Rotl | i64Rotr
  | f32Abs | f32Neg | f32Ceil | f32Floor | f32Trunc | f32Nearest | f32Sqrt | f32Add | f32Sub
  | f32Mul | f32Div | f32Min | f32Max | f32Copysign | f64Abs | f64Neg | f64Ceil | f64Floor
  | f64Trunc | f64Nearest | f64Sqrt | f64Add | f64Sub | f64Mul | f64Div | f64Min | f64Max
  | f64Copysign | i32WrapI64 | i32TruncF32S | i32TruncF32U | i32TruncF64S | i32TruncF64U
  | i64ExtendI32S | i64ExtendI32U | i64TruncF32S | i64TruncF32U | i64TruncF64S | i64TruncF64U
  | f32ConvertI32S | f32ConvertI32U | f32ConvertI64S | f32ConvertI64U | f32DemoteF64
  | f64ConvertI32S | f64ConvertI32U | f64ConvertI64S | f64ConvertI64U | f64PromoteF32
  | i32Extend8S | i32Extend16S | i64Extend8S | i64Extend16S | i64Extend32S
  deriving DecidableEq, Repr

namespace NumOp

def opcode : NumOp → U8
  | i32Eqz => 0x45
  | i32Eq => 0x46
  | i32Ne => 0x47
  | i32LtS => 0x48
  | i32LtU => 0x49
  | i32GtS => 0x4A
  | i32GtU => 0x4B
  | i32LeS => 0x4C
  | i32LeU => 0x4D
  | i32GeS => 0x4E
  | i32GeU => 0x4F
  | i64Eqz => 0x50
  | i64Eq => 0x51
  | i64Ne => 0x52
  | i64LtS => 0x53
  | i64LtU => 0x54
  | i64GtS => 0x55
  | i64GtU => 0x56
  | i64LeS => 0x57
  | i64LeU => 0x58
  | i64GeS => 0x59
  | i64GeU => 0x5A
  | f32Eq => 0x5B
  | f32Ne => 0x5C
  | f32Lt => 0x5D
  | f32Gt => 0x5E
  | f32Le => 0x5F
  | f32Ge => 0x60
  | f64Eq => 0x61
  | f64Ne => 0x62
  | f64Lt => 0x63
  | f64Gt => 0x64
  | f64Le => 0x65
  | f64Ge => 0x66
  | i32Clz => 0x67
  | i32Ctz => 0x68
  | i32Popcnt => 0x69
  | i32Add => 0x6A
  | i32Sub => 0x6B
  | i32Mul => 0x6C
  | i32DivS => 0x6D
  | i32DivU => 0x6E
  | i32RemS => 0x6F
  | i32RemU => 0x70
  | i32And => 0x71
  | i32Or => 0x72
  | i32Xor => 0x73
  | i32Shl => 0x74
  | i32ShrS => 0x75
  | i32ShrU => 0x76
  | i32Rotl => 0x77
  | i32Rotr => 0x78
  | i64Clz => 0x79
  | i64Ctz => 0x7A
  | i64Popcnt => 0x7B
  | i64Add => 0x7C
  | i64Sub => 0x7D
  | i64Mul => 0x7E
  | i64DivS => 0x7F
  | i64DivU => 0x80
  | i64RemS => 0x81
  | i64RemU => 0x82
  | i64And => 0x83
  | i64Or => 0x84
  | i64Xor => 0x85
  | i64Shl => 0x86
  | i64ShrS => 0x87
  | i64ShrU => 0x88
  | i64Rotl => 0x89
  | i64Rotr => 0x8A
  | f32Abs => 0x8B
  | f32Neg => 0x8C
  | f32Ceil => 0x8D
  | f32Floor => 0x8E
  | f32Trunc => 0x8F
  | f32Nearest => 0x90
  | f32Sqrt => 0x91
  | f32Add => 0x92
  | f32Sub => 0x93
  | f32Mul => 0x94
  | f32Div => 0x95
  | f32Min => 0x96
  | f32Max => 0x97
  | f32Copysign => 0x98
  | f64Abs => 0x99
  | f64Neg => 0x9A
  | f64Ceil => 0x9B
  | f64Floor => 0x9C
  | f64Trunc => 0x9D
  | f64Nearest => 0x9E
  | f64Sqrt => 0x9F
  | f64Add => 0xA0
  | f64Sub => 0xA1
  | f64Mul => 0xA2
  | f64Div => 0xA3
  | f64Min => 0xA4
  | f64Max => 0xA5
  | f64Copysign => 0xA6
  | i32WrapI64 => 0xA7
  | i32TruncF32S => 0xA8
  | i32TruncF32U => 0xA9
  | i32TruncF64S => 0xAA
  | i32TruncF64U => 0xAB
  | i64ExtendI32S => 0xAC
  | i64ExtendI32U => 0xAD
  | i64TruncF32S => 0xAE
  | i64TruncF32U => 0xAF
  | i64TruncF64S => 0xB0
  | i64TruncF64U => 0xB1
  | f32ConvertI32S => 0xB2
  | f32ConvertI32U => 0xB3
  | f32ConvertI64S => 0xB4
  | f32ConvertI64U => 0xB5
  | f32DemoteF64 => 0xB6
  | f64ConvertI32S => 0xB7
  | f64ConvertI32U => 0xB8
  | f64ConvertI64S => 0xB9
  | f64ConvertI64U => 0xBA
  | f64PromoteF32 => 0xBB
  | i32Extend8S => 0xC0
  | i32Extend16S => 0xC1
  | i64Extend8S => 0xC2
  | i64Extend16S => 0xC3
  | i64Extend32S => 0xC4

/-- Operand types, topmost first. -/
def params : NumOp → List ValType
  | i32Eqz | i32Clz | i32Ctz | i32Popcnt | i64ExtendI32S | i64ExtendI32U | f32ConvertI32S
  | f32ConvertI32U | f64ConvertI32S | f64ConvertI32U | i32Extend8S | i32Extend16S => [.i32]
  | i32Eq | i32Ne | i32LtS | i32LtU | i32GtS | i32GtU | i32LeS | i32LeU | i32GeS | i32GeU
  | i32Add | i32Sub | i32Mul | i32DivS | i32DivU | i32RemS | i32RemU | i32And | i32Or | i32Xor
  | i32Shl | i32ShrS | i32ShrU | i32Rotl | i32Rotr => [.i32, .i32]
  | i64Eqz | i64Clz | i64Ctz | i64Popcnt | i32WrapI64 | f32ConvertI64S | f32ConvertI64U
  | f64ConvertI64S | f64ConvertI64U | i64Extend8S | i64Extend16S | i64Extend32S => [.i64]
  | i64Eq | i64Ne | i64LtS | i64LtU | i64GtS | i64GtU | i64LeS | i64LeU | i64GeS | i64GeU
  | i64Add | i64Sub | i64Mul | i64DivS | i64DivU | i64RemS | i64RemU | i64And | i64Or | i64Xor
  | i64Shl | i64ShrS | i64ShrU | i64Rotl | i64Rotr => [.i64, .i64]
  | f32Eq | f32Ne | f32Lt | f32Gt | f32Le | f32Ge | f32Add | f32Sub | f32Mul | f32Div | f32Min
  | f32Max | f32Copysign => [.f32, .f32]
  | f64Eq | f64Ne | f64Lt | f64Gt | f64Le | f64Ge | f64Add | f64Sub | f64Mul | f64Div | f64Min
  | f64Max | f64Copysign => [.f64, .f64]
  | f32Abs | f32Neg | f32Ceil | f32Floor | f32Trunc | f32Nearest | f32Sqrt | i32TruncF32S
  | i32TruncF32U | i64TruncF32S | i64TruncF32U | f64PromoteF32 => [.f32]
  | f64Abs | f64Neg | f64Ceil | f64Floor | f64Trunc | f64Nearest | f64Sqrt | i32TruncF64S
  | i32TruncF64U | i64TruncF64S | i64TruncF64U | f32DemoteF64 => [.f64]

def result : NumOp → ValType
  | i32Eqz | i32Eq | i32Ne | i32LtS | i32LtU | i32GtS | i32GtU | i32LeS | i32LeU | i32GeS
  | i32GeU | i64Eqz | i64Eq | i64Ne | i64LtS | i64LtU | i64GtS | i64GtU | i64LeS | i64LeU
  | i64GeS | i64GeU | f32Eq | f32Ne | f32Lt | f32Gt | f32Le | f32Ge | f64Eq | f64Ne | f64Lt
  | f64Gt | f64Le | f64Ge | i32Clz | i32Ctz | i32Popcnt | i32Add | i32Sub | i32Mul | i32DivS
  | i32DivU | i32RemS | i32RemU | i32And | i32Or | i32Xor | i32Shl | i32ShrS | i32ShrU | i32Rotl
  | i32Rotr | i32WrapI64 | i32TruncF32S | i32TruncF32U | i32TruncF64S | i32TruncF64U
  | i32Extend8S | i32Extend16S => .i32
  | i64Clz | i64Ctz | i64Popcnt | i64Add | i64Sub | i64Mul | i64DivS | i64DivU | i64RemS
  | i64RemU | i64And | i64Or | i64Xor | i64Shl | i64ShrS | i64ShrU | i64Rotl | i64Rotr
  | i64ExtendI32S | i64ExtendI32U | i64TruncF32S | i64TruncF32U | i64TruncF64S | i64TruncF64U
  | i64Extend8S | i64Extend16S | i64Extend32S => .i64
  | f32Abs | f32Neg | f32Ceil | f32Floor | f32Trunc | f32Nearest | f32Sqrt | f32Add | f32Sub
  | f32Mul | f32Div | f32Min | f32Max | f32Copysign | f32ConvertI32S | f32ConvertI32U
  | f32ConvertI64S | f32ConvertI64U | f32DemoteF64 => .f32
  | f64Abs | f64Neg | f64Ceil | f64Floor | f64Trunc | f64Nearest | f64Sqrt | f64Add | f64Sub
  | f64Mul | f64Div | f64Min | f64Max | f64Copysign | f64ConvertI32S | f64ConvertI32U
  | f64ConvertI64S | f64ConvertI64U | f64PromoteF32 => .f64

/-- All members, in the order of the opcode tables. -/
def all : List NumOp :=
  [i32Eqz, i32Eq, i32Ne, i32LtS, i32LtU, i32GtS, i32GtU, i32LeS, i32LeU, i32GeS, i32GeU, i64Eqz,
   i64Eq, i64Ne, i64LtS, i64LtU, i64GtS, i64GtU, i64LeS, i64LeU, i64GeS, i64GeU, f32Eq, f32Ne,
   f32Lt, f32Gt, f32Le, f32Ge, f64Eq, f64Ne, f64Lt, f64Gt, f64Le, f64Ge, i32Clz, i32Ctz,
   i32Popcnt, i32Add, i32Sub, i32Mul, i32DivS, i32DivU, i32RemS, i32RemU, i32And, i32Or, i32Xor,
   i32Shl, i32ShrS, i32ShrU, i32Rotl, i32Rotr, i64Clz, i64Ctz, i64Popcnt, i64Add, i64Sub, i64Mul,
   i64DivS, i64DivU, i64RemS, i64RemU, i64And, i64Or, i64Xor, i64Shl, i64ShrS, i64ShrU, i64Rotl,
   i64Rotr, f32Abs, f32Neg, f32Ceil, f32Floor, f32Trunc, f32Nearest, f32Sqrt, f32Add, f32Sub,
   f32Mul, f32Div, f32Min, f32Max, f32Copysign, f64Abs, f64Neg, f64Ceil, f64Floor, f64Trunc,
   f64Nearest, f64Sqrt, f64Add, f64Sub, f64Mul, f64Div, f64Min, f64Max, f64Copysign, i32WrapI64,
   i32TruncF32S, i32TruncF32U, i32TruncF64S, i32TruncF64U, i64ExtendI32S, i64ExtendI32U,
   i64TruncF32S, i64TruncF32U, i64TruncF64S, i64TruncF64U, f32ConvertI32S, f32ConvertI32U,
   f32ConvertI64S, f32ConvertI64U, f32DemoteF64, f64ConvertI32S, f64ConvertI32U, f64ConvertI64S,
   f64ConvertI64U, f64PromoteF32, i32Extend8S, i32Extend16S, i64Extend8S, i64Extend16S,
   i64Extend32S]

/-- The member with a given opcode. -/
def ofOpcode (op : U8) : Option NumOp := all.find? fun i => i.opcode = op

@[simp] theorem ofOpcode_opcode (i : NumOp) : ofOpcode i.opcode = some i := by
  cases i <;> decide

end NumOp

/-- The saturating truncations, which share the opcode `0xFC` and have a sub-opcode. -/
inductive SatOp where
  | i32TruncSatF32S | i32TruncSatF32U | i32TruncSatF64S | i32TruncSatF64U | i64TruncSatF32S
  | i64TruncSatF32U | i64TruncSatF64S | i64TruncSatF64U
  deriving DecidableEq, Repr

namespace SatOp

def sub : SatOp → U8
  | i32TruncSatF32S => 0x00
  | i32TruncSatF32U => 0x01
  | i32TruncSatF64S => 0x02
  | i32TruncSatF64U => 0x03
  | i64TruncSatF32S => 0x04
  | i64TruncSatF32U => 0x05
  | i64TruncSatF64S => 0x06
  | i64TruncSatF64U => 0x07

def operand : SatOp → ValType
  | i32TruncSatF32S | i32TruncSatF32U | i64TruncSatF32S | i64TruncSatF32U => .f32
  | i32TruncSatF64S | i32TruncSatF64U | i64TruncSatF64S | i64TruncSatF64U => .f64

def result : SatOp → ValType
  | i32TruncSatF32S | i32TruncSatF32U | i32TruncSatF64S | i32TruncSatF64U => .i32
  | i64TruncSatF32S | i64TruncSatF32U | i64TruncSatF64S | i64TruncSatF64U => .i64

/-- All members, in the order of the opcode tables. -/
def all : List SatOp :=
  [i32TruncSatF32S, i32TruncSatF32U, i32TruncSatF64S, i32TruncSatF64U, i64TruncSatF32S,
   i64TruncSatF32U, i64TruncSatF64S, i64TruncSatF64U]

/-- The member with a given sub-opcode. -/
def ofSub (sub : U8) : Option SatOp := all.find? fun i => i.sub = sub

@[simp] theorem ofSub_sub (i : SatOp) : ofSub i.sub = some i := by
  cases i <;> decide

end SatOp

/-- The reinterpretations, for which no IR is emitted. -/
inductive ReinterpretOp where
  | i32ReinterpretF32 | i64ReinterpretF64 | f32ReinterpretI32 | f64ReinterpretI64
  deriving DecidableEq, Repr

namespace ReinterpretOp

def opcode : ReinterpretOp → U8
  | i32ReinterpretF32 => 0xBC
  | i64ReinterpretF64 => 0xBD
  | f32ReinterpretI32 => 0xBE
  | f64ReinterpretI64 => 0xBF

def operand : ReinterpretOp → ValType
  | i32ReinterpretF32 => .f32
  | i64ReinterpretF64 => .f64
  | f32ReinterpretI32 => .i32
  | f64ReinterpretI64 => .i64

def result : ReinterpretOp → ValType
  | i32ReinterpretF32 => .i32
  | i64ReinterpretF64 => .i64
  | f32ReinterpretI32 => .f32
  | f64ReinterpretI64 => .f64

/-- All members, in the order of the opcode tables. -/
def all : List ReinterpretOp :=
  [i32ReinterpretF32, i64ReinterpretF64, f32ReinterpretI32, f64ReinterpretI64]

/-- The member with a given opcode. -/
def ofOpcode (op : U8) : Option ReinterpretOp := all.find? fun i => i.opcode = op

@[simp] theorem ofOpcode_opcode (i : ReinterpretOp) : ofOpcode i.opcode = some i := by
  cases i <;> decide

end ReinterpretOp

end SpaceWasm
