import SpaceWasm.Opcode

/-!
# Decoded Wasm instructions

One constructor for each method of the Wasm visitor, with the arguments the
decoder passes to it. A `br_table` is three kinds of calls: its start with the
number of labels, each label, and its end with the default label.
-/

namespace SpaceWasm

/-- A call of the Wasm visitor. -/
inductive WasmInstr where
  | unreachable
  | nop
  | enterBlock (blockType : ResultType)
  | loop_ (blockType : ResultType)
  | if_ (blockType : ResultType)
  | else_
  | exitBlock
  | finish
  | br (l : Idx)
  | brIf (l : Idx)
  | brTableStart (len : U32)
  | brTableBranch (l : Idx)
  | brTableFinish (l : Idx)
  | return_
  | call (x : Idx)
  | callIndirect (x : Idx)
  | drop
  | select
  | localGet (x : Idx)
  | localSet (x : Idx)
  | localTee (x : Idx)
  | globalGet (x : Idx)
  | globalSet (x : Idx)
  | load (op : LoadOp) (m : MemArg)
  | store (op : StoreOp) (m : MemArg)
  | memorySize
  | memoryGrow
  | i32Const (n : U32)
  | i64Const (n : U64)
  | f32Const (z : U32)
  | f64Const (z : U64)
  | num (op : NumOp)
  | sat (op : SatOp)
  | reinterpret (op : ReinterpretOp)
  deriving DecidableEq, Repr

/-- A Wasm visitor over the state `σ`. -/
abbrev WasmVisitor (σ : Type) := WasmInstr → Fallible ValidationError σ Unit

end SpaceWasm
