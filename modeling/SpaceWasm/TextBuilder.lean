import SpaceWasm.StaticVec
import SpaceWasm.Store

/-!
# The builder of compiled functions

`TextBuilder` compiles one function: it checks the operand types against a stack
of value types, keeps one control frame for each open block, and emits IR words
to the code builder. A forward branch is emitted before its target is known, so
the branches to one block are linked into a chain through their own operand
words, which `popControl` walks to patch in the end of the block.
-/

namespace SpaceWasm

open Fallible

inductive OperandType where
  | unknown
  | known (t : ValType)
  deriving DecidableEq, Repr

namespace OperandType

/-- The conversion to a value type: an unknown operand counts as an `i32`. -/
def valType : OperandType → ValType
  | unknown => .i32
  | known t => t

end OperandType

inductive BlockKind where
  | loop | block | if_
  deriving DecidableEq, Repr

/-- A control flow frame. -/
structure ControlFrame where
  kind : BlockKind
  label : ResultType
  out : ResultType
  /-- The operand stack height in number of elements. -/
  height : ℕ
  /-- The start of a loop; for other blocks, the head of the chain of forward
  branches, whose tail for an `if` is its false branch. -/
  target : JumpTarget
  unreachable : Bool
  deriving DecidableEq

structure GlobalVariable where
  reference : Ref
  ty : ValType
  mutable : Bool
  deriving DecidableEq

structure TextBuilder (maxControlFrames maxStackDepth : ℕ) where
  code : CodeBuilder
  store : Store
  module : Module
  func : Func
  controlFrames : StaticVec ControlFrame maxControlFrames
  valueStack : StaticVec OperandType maxStackDepth
  stackHighwater : ℕ
  brTableResult : Option ResultType

/-- The words of a stack of operand types, listed from the bottom, up to the
first unknown one. -/
def heightWords : List OperandType → ℕ
  | [] => 0
  | .unknown :: _ => 0
  | .known t :: ts => t.words + heightWords ts

variable {F D : ℕ} {α : Type}

abbrev TextM (F D : ℕ) (α : Type) := Fallible ValidationError (TextBuilder F D) α

namespace TextBuilder

/-- A step of the code builder. -/
def coding (x : CodeM α) : TextM F D α :=
  zoom TextBuilder.code (fun s code => { s with code := code }) x

def pc : TextM F D JumpTarget := coding CodeBuilder.pc

/-- `self.code.push(w)`. -/
def pushWord (w : U16) : TextM F D Unit := coding (CodeBuilder.push w)

/-! ### Locals and globals -/

/-- The search for a parameter: its type and its offset in bytes, or the offset
and the index after the last one. -/
def findParam : List ValType → (x i : U16) → ℕ → (ValType × ℕ) ⊕ U16
  | [], _, i, _ => .inr i
  | t :: ts, x, i, offset =>
      if x = i then .inl (t, offset) else findParam ts x (i + 1) (offset + t.size)

/-- The search through the groups of local variables, with 16-bit indices. -/
def findLocal : List (ℕ × ValType) → (x current : U16) → ℕ → Except ValidationError LocalVariable
  | [], _, _, _ => .error .localIdxOutOfRange
  | (n, ty) :: rest, x, current, offset =>
      let next := current + BitVec.ofNat 16 n
      if x < next then
        let wordOffset := (offset + ty.size * (x - current).toNat) / 4
        if 32767 - 2 < wordOffset then .error .localIdxOutOfRange
        else .ok ⟨BitVec.ofNat 16 wordOffset + 2, ty⟩
      else findLocal rest x next (offset + n * ty.size)

/-- The offset of a local variable from the frame pointer. -/
def findVariable (signature : FuncType) (func : Func) (x : Idx) :
    Except ValidationError LocalVariable :=
  let x := BitVec.ofNat 16 x
  match findParam signature.params x 0 0 with
  | .inl (ty, offset) =>
      .ok ⟨BitVec.ofNat 16 (offset / 4) - BitVec.ofNat 16 func.parameterSize, ty⟩
  | .inr current => findLocal func.locals x current 0

def getLocal (x : Idx) : TextM F D LocalVariable := do
  let s ← get
  if 0xFFFF < x then throw .localIdxOutOfRange
  else do
    let signature ← okOr s.module.types[s.func.ty]? .typeIdxOutOfRange
    ofExcept (findVariable signature s.func x)

def getGlobal (x : Idx) : TextM F D GlobalVariable := do
  let s ← get
  let reference ← okOr (s.module.getGlobalRef x) .globalIdxOutOfRange
  match reference with
  | .module idx => do
      let g ← okOr s.module.globals[idx.toNat]? .globalIdxOutOfRange
      pure ⟨reference, g.type.ty, g.type.mutable⟩
  | .host module index => do
      let hm ← unwrap (s.store.hostModule? module)
      let g ← unwrap hm.globals[index.toNat]?
      pure ⟨reference, g.ty, g.mutable⟩
  | .extern_ module index => do
      let m ← unwrap (s.store.module? module)
      let g ← unwrap m.globals[index.toNat]?
      pure ⟨reference, g.type.ty, g.type.mutable⟩

/-! ### The operand stack -/

/-- The height of the operand stack in words. -/
def stackHeight (s : TextBuilder F D) : ℕ := heightWords s.valueStack.toList.reverse

/-- The height in words of the lowest `n` operands. -/
def stackHeightFor (s : TextBuilder F D) (n : ℕ) : ℕ :=
  heightWords (s.valueStack.toList.reverse.take n)

def isUnreachable (s : TextBuilder F D) : Bool :=
  match s.controlFrames.last? with
  | some frame => frame.unreachable
  | none => false

def controlFrameStackLen (s : TextBuilder F D) : ℕ :=
  match s.controlFrames.last? with
  | some frame => s.valueStack.len - frame.height
  | none => s.valueStack.len

def markUnreachable : TextM F D Unit := do
  let s ← get
  match s.controlFrames.last? with
  | none => pure ()
  | some frame => do
      assert (frame.height ≤ s.valueStack.len)
      set { s with
        valueStack := s.valueStack.truncate frame.height
        controlFrames := s.controlFrames.modify 0 fun f => { f with unreachable := true } }

def pushStack (ty : OperandType) : TextM F D Unit := do
  let s ← get
  match s.valueStack.push ty with
  | none => throw (.allocError .outOfMemory)
  | some valueStack => do
      let s := { s with valueStack := valueStack }
      set { s with stackHighwater := max s.stackHeight s.stackHighwater }

def popStackT : TextM F D OperandType := do
  let s ← get
  if s.controlFrameStackLen = 0 ∧ s.isUnreachable then pure .unknown
  else if s.controlFrameStackLen = 0 then throw .stackUnderflow
  else
    match s.valueStack.pop with
    | none => throw .stackUnderflow
    | some (ty, valueStack) => do
        set { s with valueStack := valueStack }
        pure ty

def popStack (expect : OperandType) : TextM F D OperandType := do
  let actual ← popStackT
  if actual = .unknown then pure expect
  else if expect = .unknown then pure actual
  else if actual ≠ expect then throw .typeMismatch
  else pure actual

/-- `pop_stack(ValType::T)?`, for the operand types of an instruction. -/
def popVals : List ValType → TextM F D Unit
  | [] => pure ()
  | t :: ts => do
      let _ ← popStack (.known t)
      popVals ts

def pushVals : List ValType → TextM F D Unit
  | [] => pure ()
  | t :: ts => do
      pushStack (.known t)
      pushVals ts

def popResultType (result : ResultType) : TextM F D Unit := popVals result.toList

def pushResultType (result : ResultType) : TextM F D Unit := pushVals result.toList

/-! ### The results of a `br_table` -/

def checkBrTableResult (r : ResultType) : TextM F D Unit := do
  let s ← get
  match s.brTableResult with
  | some other => if other ≠ r then throw .brTableResultTypeMismatch else pure ()
  | none => set { s with brTableResult := some r }

def checkAndClearBrTableResult (defResult : ResultType) : TextM F D Unit := do
  let s ← get
  match s.brTableResult with
  | some other =>
      if other ≠ defResult then throw .brTableResultTypeMismatch
      else set { s with brTableResult := none }
  | none => pure ()

/-! ### Emitting instructions -/

/-- The first word of an instruction: `[opcode:8][operand:8]`. -/
def opWord (op imm : U8) : U16 := (op.setWidth 16 <<< 8) ||| imm.setWidth 16

def instr (op : U8) : TextM F D Unit := pushWord (op.setWidth 16 <<< 8)

def instrImm8 (op imm : U8) : TextM F D Unit := pushWord (opWord op imm)

/-- An 8-bit index inline, or `0xFF` and a 16-bit one. -/
def instrImm8Or16 (op : U8) (idx : ℕ) : TextM F D Unit := do
  if 0xFFFF < idx then throw .idxTooLarge
  else if idx < 0xFF then instrImm8 op (BitVec.ofNat 8 idx)
  else do
    instrImm8 op 0xFF
    pushWord (BitVec.ofNat 16 idx)

def write16 (w : U16) : TextM F D Unit := pushWord w

def write32 (i : U32) : TextM F D Unit := do
  pushWord (i.setWidth 16)
  pushWord ((i >>> 16).setWidth 16)

def write64 (i : U64) : TextM F D Unit := do
  pushWord (i.setWidth 16)
  pushWord ((i >>> 16).setWidth 16)
  pushWord ((i >>> 32).setWidth 16)
  pushWord ((i >>> 48).setWidth 16)

def instrMem (op : U8) (m : MemArg) : TextM F D Unit := do
  if 0xFF ≤ m.align.toNat then throw .memAlignTooLarge
  else do
    instrImm8 op (m.align.setWidth 8)
    write32 m.offset

def instrImm8Or32 (op : U8) (i : U32) : TextM F D Unit := do
  if i.toNat < 0xFF then instrImm8 op (i.setWidth 8)
  else do
    instrImm8 op 0xFF
    write32 i

def instrImm8Or64 (op : U8) (i : U64) : TextM F D Unit := do
  if i.toNat < 0xFF then instrImm8 op (i.setWidth 8)
  else do
    instrImm8 op 0xFF
    write64 i

/-! ### Control frames -/

def pushControl (kind : BlockKind) (label out : ResultType) : TextM F D Unit := do
  let s ← get
  let frame : ControlFrame := {
    kind := kind
    label := label
    out := out
    height := s.valueStack.len % 2 ^ 16
    target := JumpTarget.sentinel
    unreachable := false }
  match s.controlFrames.push frame with
  | none => throw (.allocError .outOfMemory)
  | some controlFrames => set { s with controlFrames := controlFrames }

def setControlTarget (target : JumpTarget) : TextM F D Unit := do
  let s ← get
  match s.controlFrames.last? with
  | none => throw .invalidEndBlock
  | some _ => set { s with
      controlFrames := s.controlFrames.modify 0 fun f => { f with target := target } }

/-- Emit the operand of a branch to the control frame `label` frames below the
top, and return the types the branch carries. -/
def writeLabelTarget (label : Idx) : TextM F D ResultType := do
  let s ← get
  match s.controlFrames.toList[label]? with
  | none => throw .invalidLabelIndex
  | some frame =>
      -- A branch to the function frame is an early return.
      if label + 1 = s.controlFrames.len then do
        write32 (LabelTarget.earlyReturn s.func.returnTy)
        pure s.func.returnTy
      else do
        let pc ← pc
        assert (frame.height ≤ s.valueStack.len)
        let stackDelta := s.stackHeight - s.stackHeightFor frame.height
        if 255 < stackDelta then throw .labelStackJumpTooDeep
        else
          match frame.kind with
          | .loop => do
              let offset ← ofExcept (JumpOffset.new pc frame.target)
              write32 (LabelTarget.new none (BitVec.ofNat 8 stackDelta) offset)
              pure none
          | .block | .if_ => do
              -- The operand takes the head of the chain and becomes its new head.
              modify fun s => { s with
                controlFrames := s.controlFrames.modify label fun f => { f with target := pc } }
              let offset ← ofExcept (JumpOffset.new pc frame.target)
              write32 (LabelTarget.new frame.out (BitVec.ofNat 8 stackDelta) offset)
              pure frame.label

/-- Emit the placeholder of the false branch of an `if`, the tail of its chain. -/
def writeIfElseTarget : TextM F D Unit := do
  let s ← get
  match s.controlFrames.last? with
  | none => throw .invalidEndBlock
  | some frame => do
      let patchLocation ← pc
      write32 (LabelTarget.new frame.out 0 JumpOffset.sentinel)
      modify fun s => { s with
        controlFrames := s.controlFrames.modify 0 fun f => { f with target := patchLocation } }

/-- Patch the label at `address` to jump to `target`. -/
def patchLabel (target address : JumpTarget) (label : LabelTarget) : CodeM Unit := do
  let offset ← ofExcept (JumpOffset.new address target)
  CodeBuilder.write32 address (label.withJump offset)

/-- The closure of `pop_control_and_patch_if`, over its variables `prev` and
`remaining_chain`: the tail of the chain is patched and cut off. -/
def patchIfTail (head pc : JumpTarget) (acc : JumpTarget × JumpTarget) (address : JumpTarget)
    (label : LabelTarget) : CodeM (JumpTarget × JumpTarget) := do
  let (prev, remainingChain) := acc
  if label.isSentinel then do
    patchLabel pc address label
    if prev ≠ JumpTarget.sentinel then do
      let oldLabel ← CodeBuilder.read32 prev
      CodeBuilder.write32 prev (LabelTarget.withJump oldLabel JumpOffset.sentinel)
      pure (prev, head)
    else pure (prev, remainingChain)
  else pure (address, remainingChain)

/-- The type and height checks at the end of a block, which then pops its frame. -/
def popFrame : TextM F D ControlFrame := do
  let s ← get
  let last ← unwrap s.controlFrames.last?
  popResultType last.out
  let s ← get
  if s.valueStack.len ≠ last.height then throw .blockResultTypeMismatch
  else
    match s.controlFrames.pop with
    | none => panic
    | some (last, controlFrames) => do
        set { s with controlFrames := controlFrames }
        pure last

/-- Leave the first arm of an `if`: its false branch jumps here. Returns the
result type and the chain of the branches that go to the end. -/
def popControlAndPatchIf : TextM F D (ResultType × JumpTarget) := do
  let s ← get
  let last ← unwrap s.controlFrames.last?
  if last.kind ≠ .if_ then throw .invalidElseBlock
  else do
    let last ← popFrame
    let pc ← pc
    let acc ← coding (CodeBuilder.backpatch last.target
      (JumpTarget.sentinel, JumpTarget.sentinel) (patchIfTail last.target pc))
    pure (last.out, acc.2)

/-- Let all branches of a chain jump here. -/
def patchChain (head : JumpTarget) : TextM F D Unit := do
  let pc ← pc
  coding (CodeBuilder.backpatch head () fun _ address label => patchLabel pc address label)

/-- Leave the current block and patch the branches that go to its end. -/
def popControl : TextM F D ResultType := do
  let last ← popFrame
  match last.kind with
  | .loop => pure ()
  | .block => patchChain last.target
  | .if_ =>
      if last.out = none then patchChain last.target
      else throw .blockResultTypeMismatch
  pure last.out

/-- The builder of a function, with the control frame of the function pushed. -/
def new (code : CodeBuilder) (store : Store) (module : Module) (func : Func) :
    TextBuilder F D :=
  let builder : TextBuilder F D := {
    code := code
    store := store
    module := module
    func := func
    controlFrames := .empty
    valueStack := .empty
    stackHighwater := 0
    brTableResult := none }
  -- The error of a vector without room for the frame is dropped.
  match pushControl .block func.returnTy func.returnTy builder with
  | .ok _ s => s
  | .error _ s => s
  | .panic => builder
  | .diverge => builder

end TextBuilder

end SpaceWasm
