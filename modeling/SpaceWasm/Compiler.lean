import SpaceWasm.Code
import SpaceWasm.TextBuilder

/-!
# The compiler

The compiler is the Wasm visitor that validates a function body and emits its IR
in the same pass. A handler pops the operand types of its instruction, pushes
the result types and emits the IR words.
-/

namespace SpaceWasm

open Fallible

namespace Compiler

open TextBuilder

variable {F D : ℕ}

/-- `validate!`: the operand types, topmost first, and the result types. -/
def validate (ins outs : List ValType) : TextM F D Unit := do
  popVals ins
  pushVals outs

/-- `check_memory_defined` of the current module. -/
def checkMemoryDefined : TextM F D Unit := do
  let s ← get
  if s.module.memory = none then throw .memoryNotDefined else pure ()

/-! ### Control instructions -/

def unreachable : TextM F D Unit := do
  instrImm8 Opcode.unreachable 0
  markUnreachable

def enterBlock (blockType : ResultType) : TextM F D Unit :=
  pushControl .block blockType blockType

def exitBlock : TextM F D Unit := do
  let results ← popControl
  pushResultType results

/-- Emit a `return` that moves the words of a result. -/
def instrReturn (ty : ResultType) : TextM F D Unit :=
  match ty with
  | some ty => instrImm8 Opcode.return_ (BitVec.ofNat 8 ty.size / 4)
  | none => instr Opcode.return_

def finish : TextM F D Unit := do
  let ty ← popControl
  instrReturn ty

def loop_ (blockType : ResultType) : TextM F D Unit := do
  pushControl .loop none blockType
  let pc ← pc
  setControlTarget pc

def if_ (blockType : ResultType) : TextM F D Unit := do
  let _ ← popStack (.known .i32)
  instr Opcode.if_
  pushControl .if_ blockType blockType
  writeIfElseTarget

def else_ : TextM F D Unit := do
  -- The branch over the else arm joins the chain of the `if` before that is popped.
  instr Opcode.br
  let _ ← writeLabelTarget 0
  let (results, brChain) ← popControlAndPatchIf
  pushControl .block results results
  setControlTarget brChain

def br (l : Idx) : TextM F D Unit := do
  instr Opcode.br
  let lblTypes ← writeLabelTarget l
  popResultType lblTypes
  markUnreachable

def brIf (l : Idx) : TextM F D Unit := do
  let _ ← popStack (.known .i32)
  instr Opcode.brIf
  let lblTypes ← writeLabelTarget l
  popResultType lblTypes
  pushResultType lblTypes

def brTableStart (len : U32) : TextM F D Unit := do
  let _ ← popStack (.known .i32)
  instrImm8Or16 Opcode.brTable len.toNat

def brTableBranch (br : Idx) : TextM F D Unit := do
  let caseReturn ← writeLabelTarget br
  checkBrTableResult caseReturn

def brTableFinish (default_ : Idx) : TextM F D Unit := do
  let defResult ← writeLabelTarget default_
  checkAndClearBrTableResult defResult
  popResultType defResult
  markUnreachable

def return_ : TextM F D Unit := do
  let s ← get
  popResultType s.func.returnTy
  instrReturn s.func.returnTy
  markUnreachable

/-- The end of the three kinds of calls: check the signature and emit. -/
def emitCall (params returns : List ValType) (op imm : U8) (index : U16) : TextM F D Unit := do
  popVals params.reverse
  pushVals returns.reverse
  instrImm8 op imm
  write16 index

def call (x : Idx) : TextM F D Unit := do
  let s ← get
  let ref ← okOr (s.module.getFuncRef x) .functionIdxOutOfRange
  match ref with
  | .module index => do
      let f ← unwrap s.module.functions[index.toNat]?
      let ty ← unwrap s.module.types[f.ty]?
      emitCall ty.params ty.returns Opcode.call 0 index
  | .host module index => do
      let hm ← unwrap (s.store.hostModule? module)
      let f ← unwrap hm.functions[index.toNat]?
      emitCall f.params f.returns.toList Opcode.callHost module index
  | .extern_ module index => do
      let m ← unwrap (s.store.module? module)
      let f ← unwrap m.functions[index.toNat]?
      let ty ← unwrap m.types[f.ty]?
      emitCall ty.params ty.returns Opcode.callExtern module index

def callIndirect (x : Idx) : TextM F D Unit := do
  let s ← get
  if s.module.table = none then throw .tableNotDefined
  else do
    let _ ← popStack (.known .i32)
    let ty ← okOr s.module.types[x]? .typeIdxOutOfRange
    popVals ty.params.reverse
    pushVals ty.returns
    if 0xFFFF < x then throw .idxTooLarge
    else do
      instr Opcode.callIndirect
      write16 (BitVec.ofNat 16 x)

/-! ### Parametric instructions -/

def drop : TextM F D Unit := do
  let ty ← popStackT
  instrImm8 Opcode.drop ty.valType.tag

def select : TextM F D Unit := do
  let _ ← popStack (.known .i32)
  let t1 ← popStackT
  let t2 ← popStack t1
  pushStack t2
  instrImm8 Opcode.select t2.valType.tag

/-! ### Variable instructions -/

def localGet (x : Idx) : TextM F D Unit := do
  let l ← getLocal x
  pushStack (.known l.ty)
  instrImm8 Opcode.localGet l.ty.tag
  write16 l.frameOffset

def localSet (x : Idx) : TextM F D Unit := do
  let l ← getLocal x
  let _ ← popStack (.known l.ty)
  instrImm8 Opcode.localSet l.ty.tag
  write16 l.frameOffset

def localTee (x : Idx) : TextM F D Unit := do
  let l ← getLocal x
  let _ ← popStack (.known l.ty)
  pushStack (.known l.ty)
  instrImm8 Opcode.localTee l.ty.tag
  write16 l.frameOffset

/-- Emit an access to a global: the opcodes for a global of the module itself,
of another module and of a host module. -/
def instrGlobal (own extern_ host : U8) (ref : Ref) : TextM F D Unit :=
  match ref with
  | .module idx => instrImm8Or16 own idx.toNat
  | .extern_ module index => do
      instrImm8 extern_ module
      write16 index
  | .host module index => do
      instrImm8 host module
      write16 index

def globalGet (x : Idx) : TextM F D Unit := do
  let g ← getGlobal x
  pushStack (.known g.ty)
  instrGlobal Opcode.globalGet Opcode.globalGetExtern Opcode.globalGetHost g.reference

def globalSet (x : Idx) : TextM F D Unit := do
  let g ← getGlobal x
  if g.mutable = false then throw .globalNotMutable
  else do
    let _ ← popStack (.known g.ty)
    instrGlobal Opcode.globalSet Opcode.globalSetExtern Opcode.globalSetHost g.reference

/-! ### Memory instructions -/

/-- An instruction with a `MemArg` operand. -/
def memInstr (op : U8) (maxAlign : ℕ) (ins outs : List ValType) (m : MemArg) :
    TextM F D Unit := do
  checkMemoryDefined
  validate ins outs
  if maxAlign < m.align.toNat then throw .alignmentLargerThanType
  else instrMem op m

def load (op : LoadOp) (m : MemArg) : TextM F D Unit :=
  memInstr op.opcode op.maxAlign [.i32] [op.result] m

def store (op : StoreOp) (m : MemArg) : TextM F D Unit :=
  memInstr op.opcode op.maxAlign [op.operand, .i32] [] m

def memorySize : TextM F D Unit := do
  checkMemoryDefined
  validate [] [.i32]
  instr Opcode.memorySize

def memoryGrow : TextM F D Unit := do
  checkMemoryDefined
  validate [.i32] [.i32]
  let s ← get
  if s.code.options.allowMemoryGrow then instr Opcode.memoryGrow
  else throw .illegalMemoryGrow

/-! ### Numeric instructions -/

def i32Const (n : U32) : TextM F D Unit := do
  validate [] [.i32]
  instrImm8Or32 Opcode.i32Const n

def i64Const (n : U64) : TextM F D Unit := do
  validate [] [.i64]
  instrImm8Or64 Opcode.i64Const n

def f32Const (z : U32) : TextM F D Unit := do
  validate [] [.f32]
  instr Opcode.f32Const
  write32 z

def f64Const (z : U64) : TextM F D Unit := do
  validate [] [.f64]
  instr Opcode.f64Const
  write64 z

def num (op : NumOp) : TextM F D Unit := do
  validate op.params [op.result]
  instr op.opcode

def sat (op : SatOp) : TextM F D Unit := do
  validate [op.operand] [op.result]
  instrImm8 Opcode.extendedFc op.sub

/-- A reinterpretation emits no IR: it changes no bit of the operand. -/
def reinterpret (op : ReinterpretOp) : TextM F D Unit := validate [op.operand] [op.result]

/-- The compiler as a visitor. -/
def visit : WasmVisitor (TextBuilder F D)
  | .unreachable => unreachable
  | .nop => pure ()
  | .enterBlock t => enterBlock t
  | .loop_ t => loop_ t
  | .if_ t => if_ t
  | .else_ => else_
  | .exitBlock => exitBlock
  | .finish => finish
  | .br l => br l
  | .brIf l => brIf l
  | .brTableStart len => brTableStart len
  | .brTableBranch l => brTableBranch l
  | .brTableFinish l => brTableFinish l
  | .return_ => return_
  | .call x => call x
  | .callIndirect x => callIndirect x
  | .drop => drop
  | .select => select
  | .localGet x => localGet x
  | .localSet x => localSet x
  | .localTee x => localTee x
  | .globalGet x => globalGet x
  | .globalSet x => globalSet x
  | .load op m => load op m
  | .store op m => store op m
  | .memorySize => memorySize
  | .memoryGrow => memoryGrow
  | .i32Const n => i32Const n
  | .i64Const n => i64Const n
  | .f32Const z => f32Const z
  | .f64Const z => f64Const z
  | .num op => num op
  | .sat op => sat op
  | .reinterpret op => reinterpret op

end Compiler

end SpaceWasm
