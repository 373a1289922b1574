import SpaceWasm.Opcode
import SpaceWasm.Text

/-!
# The IR decoder

`decode` reads one instruction at an address and moves the address past it.
Reads are unchecked in a release build; a read outside the code is a panic here.

The entries of a `br_table` are read by the closure its visitor calls with the
selector, so the instruction carries only their number and `brTableCase` is the
closure.
-/

namespace SpaceWasm

open Fallible

/-- A call of the IR visitor. -/
inductive IrInstr where
  | malformedIr
  | unreachable
  | if_ (falseAddress : LabelTarget)
  | br (address : LabelTarget)
  | brIf (trueAddress : LabelTarget)
  | brTable (n : U32)
  | return_ (returnSize : U8)
  | call (x : U16)
  | callHost (module : HostModuleRef) (x : U16)
  | callExtern (module : ModuleRef) (x : U16)
  | callIndirect (x : Idx)
  | drop (ty : ValType)
  | select (ty : ValType)
  | localGet (l : LocalVariable)
  | localSet (l : LocalVariable)
  | localTee (l : LocalVariable)
  | globalGet (idx : U16)
  | globalSet (idx : U16)
  | globalGetHost (module : HostModuleRef) (index : U16)
  | globalSetHost (module : HostModuleRef) (index : U16)
  | globalGetExtern (module : ModuleRef) (index : U16)
  | globalSetExtern (module : ModuleRef) (index : U16)
  | load (op : LoadOp) (m : MemArg)
  | store (op : StoreOp) (m : MemArg)
  | memorySize
  | memoryGrow
  | i32Const (n : U32)
  | i64Const (n : U64)
  | f32Const (z : U32)
  | f64Const (z : U64)
  | num (op : NumOp)
  | sat (op : SatOp)
  deriving DecidableEq, Repr

/-- A computation that reads code and moves the address. -/
abbrev FetchM (α : Type) := Fallible Empty JumpTarget α

namespace IrReader

variable (code : List TextPage)

/-- `IrReader::read`: the word at the address, which moves on by one. -/
def read : FetchM U16 := fun address =>
  match code[address.page]? with
  | none => .panic
  | some page =>
      if h : address.offset < 256 then .ok page[address.offset] (address + 1) else .panic

def readU32 : FetchM U32 := do
  let w1 ← read code
  let w2 ← read code
  pure (w1.setWidth 32 ||| (w2.setWidth 32 <<< 16))

def readU64 : FetchM U64 := do
  let w1 ← read code
  let w2 ← read code
  let w3 ← read code
  let w4 ← read code
  pure (w1.setWidth 64 ||| (w2.setWidth 64 <<< 16) ||| (w3.setWidth 64 <<< 32) |||
    (w4.setWidth 64 <<< 48))

/-- Read and drop labels. -/
def dropLabels (n : ℕ) : FetchM Unit := iterate n (do let _ ← readU32 code; pure ())

/-- The closure of a `br_table` with `n` labels: the label of the selector
`case_`, with all the others read and dropped. -/
def brTableCase (n case_ : U32) : FetchM LabelTarget := do
  if case_ < n then do
    dropLabels code case_.toNat
    let lt ← readU32 code
    dropLabels code (n.toNat - (case_.toNat + 1))
    let _ ← readU32 code
    pure lt
  else do
    dropLabels code n.toNat
    readU32 code

/-- An instruction with a value type in its immediate. -/
def withValType (imm : U8) (f : ValType → IrInstr) : IrInstr :=
  match ValType.fromRepr imm with
  | some ty => f ty
  | none => .malformedIr

/-- An 8-bit index, or a 16-bit one after `0xFF`. -/
def readIndex (imm : U8) : FetchM U16 :=
  if imm = 0xFF then read code else pure (imm.setWidth 16)

/-- The rest of the instruction with opcode `opcode` and immediate `imm`. -/
def decodeRest (opcode imm : U8) : FetchM IrInstr :=
  if opcode = Opcode.unreachable then pure .unreachable
  else if opcode = Opcode.if_ then .if_ <$> readU32 code
  else if opcode = Opcode.br then .br <$> readU32 code
  else if opcode = Opcode.brIf then .brIf <$> readU32 code
  else if opcode = Opcode.brTable then do
    let n ← readIndex code imm
    pure (.brTable (n.setWidth 32))
  else if opcode = Opcode.return_ then pure (.return_ imm)
  else if opcode = Opcode.call then .call <$> read code
  else if opcode = Opcode.callHost then .callHost imm <$> read code
  else if opcode = Opcode.callExtern then .callExtern imm <$> read code
  else if opcode = Opcode.callIndirect then do
    let n ← read code
    pure (.callIndirect n.toNat)
  else if opcode = Opcode.drop then pure (withValType imm .drop)
  else if opcode = Opcode.select then pure (withValType imm .select)
  else if opcode = Opcode.localGet then do
    let frameOffset ← read code
    pure (withValType imm fun ty => .localGet ⟨frameOffset, ty⟩)
  else if opcode = Opcode.localSet then do
    let frameOffset ← read code
    pure (withValType imm fun ty => .localSet ⟨frameOffset, ty⟩)
  else if opcode = Opcode.localTee then do
    let frameOffset ← read code
    pure (withValType imm fun ty => .localTee ⟨frameOffset, ty⟩)
  else if opcode = Opcode.globalGet then .globalGet <$> readIndex code imm
  else if opcode = Opcode.globalSet then .globalSet <$> readIndex code imm
  else if opcode = Opcode.globalGetHost then .globalGetHost imm <$> read code
  else if opcode = Opcode.globalSetHost then .globalSetHost imm <$> read code
  else if opcode = Opcode.globalGetExtern then .globalGetExtern imm <$> read code
  else if opcode = Opcode.globalSetExtern then .globalSetExtern imm <$> read code
  else if opcode = Opcode.memorySize then pure .memorySize
  else if opcode = Opcode.memoryGrow then pure .memoryGrow
  else if opcode = Opcode.i32Const then
    .i32Const <$> if imm = 0xFF then readU32 code else pure (imm.setWidth 32)
  else if opcode = Opcode.i64Const then
    .i64Const <$> if imm = 0xFF then readU64 code else pure (imm.setWidth 64)
  else if opcode = Opcode.f32Const then .f32Const <$> readU32 code
  else if opcode = Opcode.f64Const then .f64Const <$> readU64 code
  else if opcode = Opcode.extendedFc then
    match SatOp.ofSub imm with
    | some i => pure (.sat i)
    | none => pure .malformedIr
  else
    match LoadOp.ofOpcode opcode with
    | some i => do
        let offset ← readU32 code
        pure (.load i ⟨imm.setWidth 32, offset⟩)
    | none =>
      match StoreOp.ofOpcode opcode with
      | some i => do
          let offset ← readU32 code
          pure (.store i ⟨imm.setWidth 32, offset⟩)
      | none =>
        match NumOp.ofOpcode opcode with
        | some i => pure (.num i)
        | none => pure .malformedIr

/-- One instruction at the address. -/
def decode : FetchM IrInstr := do
  let first ← read code
  decodeRest code ((first >>> 8).setWidth 8) (first.setWidth 8)

end IrReader

end SpaceWasm
