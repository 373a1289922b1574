import SpaceWasm.Instr

/-!
# The instruction decoder

`readCode` decodes the instructions of an expression and passes them to a
visitor, up to the `end` that closes the expression. Every round of its loop
consumes a byte, so the number of remaining bytes bounds the rounds.
-/

namespace SpaceWasm

open Fallible

/-- The state of `read_code`: the reader, and the state of the visitor. -/
structure Decoding (σ : Type) where
  wasm : Reader
  visitor : σ

abbrev DecodeM (σ α : Type) := Fallible ValidationError (Decoding σ) α

variable {σ α : Type}

/-- A step of the reader. -/
def reading (x : ReaderM α) : DecodeM σ α :=
  zoom Decoding.wasm (fun s wasm => { s with wasm := wasm }) x

/-- A step of the visitor. -/
def visiting (x : Fallible ValidationError σ α) : DecodeM σ α :=
  zoom Decoding.visitor (fun s visitor => { s with visitor := visitor }) x

/-- Decode the rest of the instruction with opcode `op`, other than `br_table`.
The final `end` of the expression is `finish`. -/
def readInstr (depth : ℕ) (op : U8) : ReaderM WasmInstr :=
  -- Control instructions
  if op = Opcode.unreachable then pure .unreachable
  else if op = Opcode.nop then pure .nop
  else if op = Opcode.block then .enterBlock <$> ResultType.read
  else if op = Opcode.loop then .loop_ <$> ResultType.read
  else if op = Opcode.if_ then .if_ <$> ResultType.read
  else if op = Opcode.else_ then pure .else_
  else if op = Opcode.end_ then pure (if 0 < depth then .exitBlock else .finish)
  else if op = Opcode.br then .br <$> Idx.read
  else if op = Opcode.brIf then .brIf <$> Idx.read
  else if op = Opcode.return_ then pure .return_
  else if op = Opcode.call then .call <$> Idx.read
  else if op = Opcode.callIndirect then do
    let x ← Idx.read
    expectU8 0x00
    pure (.callIndirect x)
  -- Parametric instructions
  else if op = Opcode.drop then pure .drop
  else if op = Opcode.select then pure .select
  -- Variable instructions
  else if op = Opcode.localGet then .localGet <$> Idx.read
  else if op = Opcode.localSet then .localSet <$> Idx.read
  else if op = Opcode.localTee then .localTee <$> Idx.read
  else if op = Opcode.globalGet then .globalGet <$> Idx.read
  else if op = Opcode.globalSet then .globalSet <$> Idx.read
  -- Memory size and grow
  else if op = Opcode.memorySize then do
    expectU8 0x00
    pure .memorySize
  else if op = Opcode.memoryGrow then do
    expectU8 0x00
    pure .memoryGrow
  -- Constants
  else if op = Opcode.i32Const then .i32Const <$> readI32
  else if op = Opcode.i64Const then .i64Const <$> readI64
  else if op = Opcode.f32Const then .f32Const <$> readF32Bits
  else if op = Opcode.f64Const then .f64Const <$> readF64Bits
  else if op = Opcode.extendedFc then do
    let ext ← readU32
    match SatOp.all.find? fun i => i.sub.toNat = ext.toNat with
    | some i => pure (.sat i)
    | none => throw (.invalidFcOpcode (ext.setWidth 8))
  else
    match LoadOp.ofOpcode op with
    | some i => .load i <$> MemArg.read
    | none =>
      match StoreOp.ofOpcode op with
      | some i => .store i <$> MemArg.read
      | none =>
        match NumOp.ofOpcode op with
        | some i => pure (.num i)
        | none =>
          match ReinterpretOp.ofOpcode op with
          | some i => pure (.reinterpret i)
          | none => throw (.invalidOpcode op)

/-- The block depth after an instruction; `none` after the last one. -/
def WasmInstr.depthAfter (depth : ℕ) : WasmInstr → Option ℕ
  | enterBlock _ => some (depth + 1)
  | loop_ _ => some (depth + 1)
  | if_ _ => some (depth + 1)
  | exitBlock => some (depth - 1)
  | finish => none
  | _ => some depth

/-- The operands of a `br_table`, each of them visited as it is read. -/
def readBrTable (visitor : WasmVisitor σ) : DecodeM σ Unit := do
  let len ← reading readU32
  visiting (visitor (.brTableStart len))
  iterate len.toNat do
    let br ← reading Idx.read
    visiting (visitor (.brTableBranch br))
  let default_ ← reading Idx.read
  visiting (visitor (.brTableFinish default_))

/-- One round of the loop: decode an instruction and visit it. -/
def readCodeStep (visitor : WasmVisitor σ) (depth : ℕ) : DecodeM σ (Option ℕ) := do
  let op ← reading readU8
  if op = Opcode.brTable then do
    readBrTable visitor
    pure (some depth)
  else do
    let i ← reading (readInstr depth op)
    visiting (visitor i)
    pure (i.depthAfter depth)

/-- The loop of `read_code`, with a bound on its rounds. -/
def readCodeLoop (visitor : WasmVisitor σ) : (fuel depth : ℕ) → DecodeM σ Unit
  | 0, _ => diverge
  | fuel + 1, depth => do
      match ← readCodeStep visitor depth with
      | some depth' => readCodeLoop visitor fuel depth'
      | none => pure ()

/-- `read_code`. -/
def readCode (visitor : WasmVisitor σ) : DecodeM σ Unit := do
  let s ← get
  readCodeLoop visitor (s.wasm.input.length + 1) 0

end SpaceWasm
