import SpaceWasm.IrReader
import SpaceWasm.Lib.BoundedRun
import SpaceWasm.Numeric

/-!
# The interpreter

The visitor that executes IR instructions on the engine, the loop that runs it
for a number of instructions, and the entry points `invoke` and `resume`.
-/

namespace SpaceWasm

open Fallible

/-- What the interpreter runs on: the code, the float operations, the host. -/
structure ExecEnv (η : Type) where
  code : List TextPage
  floats : FloatOps
  host : HostEnv η

inductive InvokeError where
  | paramLenMismatch | paramTypeMismatch | stackOverflow | busy
  deriving DecidableEq, Repr

inductive ResumeError where
  | notPaused | resultTypeMismatch
  deriving DecidableEq, Repr

inductive InterpreterResult where
  | finished
  | trap (reason : TrapReason)
  | pause
  | outOfFuel
  deriving DecidableEq, Repr

/-- The address of a local variable. -/
def LocalVariable.addr (l : LocalVariable) (fp : ℕ) : ℕ :=
  ((BitVec.ofNat 32 fp + l.frameOffset.signExtend 32).signExtend 64).toNat

/-- The first link word of a frame. -/
structure CallFrame where
  frameLength : U16
  moduleDelta : U8
  parameterSize : U8
  deriving DecidableEq

namespace CallFrame

/-- The fields in memory order, as the little-endian transmute lays them out. -/
def intoBits (c : CallFrame) : U32 :=
  c.frameLength.setWidth 32 ||| (c.moduleDelta.setWidth 32 <<< 16) |||
    (c.parameterSize.setWidth 32 <<< 24)

def fromBits (bits : U32) : CallFrame :=
  ⟨bits.setWidth 16, (bits >>> 16).setWidth 8, (bits >>> 24).setWidth 8⟩

end CallFrame

variable {η : Type}

/-! ### Calls -/

/-- The function behind a reference. -/
def Store.func? (s : Store) (r : WasmRef) : Option Func := do
  let m ← s.module? r.module
  m.functions[r.index.toNat]?

/-- Write zeros over the local variables. -/
def zeroLocals : ℕ → ℕ → ExecM η Unit
  | 0, _ => pure ()
  | n + 1, addr => do
      writeWord addr 0
      zeroLocals n (addr + 1)

/-- `call_impl`: call a function of the current module. -/
def callImpl (moduleDelta : U8) (index : U16) : ExecM η Unit := do
  let e ← get
  let f ← unwrap (e.store.func? ⟨e.module, index⟩)
  if e.stack.words.length < e.sp + f.requiredStackWords then throw (.trap .stackOverflow)
  else do
    let frameLength ← spBelow e.fp
    let frame : CallFrame :=
      ⟨BitVec.ofNat 16 frameLength, moduleDelta, BitVec.ofNat 8 f.parameterSize⟩
    writeWord e.sp frame.intoBits
    writeWord (e.sp + 1) e.pc
    modify fun s => { s with fp := e.sp % 2 ^ 32 }
    zeroLocals f.localSize (e.sp + 2)
    modify fun s => { s with sp := e.sp + (2 + f.localSize), pc := f.expr, jumped := true }

/-- Make a module the current one. -/
def enterModule (module : ModuleRef) : ExecM η Unit := do
  let e ← get
  let memory ← unwrap (e.store.getMemory module)
  let table ← unwrap (e.store.getTable module)
  set { e with module := module, memory := memory, table := table }

/-- `call_impl_enter_module`. -/
def callImplEnterModule (f : WasmRef) : ExecM η Unit := do
  let e ← get
  if f.module = e.module then callImpl 0 f.index
  else do
    enterModule f.module
    callImpl (f.module - e.module) f.index

/-! ### Control instructions -/

namespace Interpreter

/-- Copy `n` words from `src` to `dst`, one after the other. -/
def copyWords : ℕ → ℕ → ℕ → ExecM η Unit
  | 0, _, _ => pure ()
  | n + 1, src, dst => do
      let w ← readWord src
      writeWord dst w
      copyWords n (src + 1) (dst + 1)

/-- The result a finished program leaves at the stack pointer. -/
def readResult (returnSize : ℕ) : ExecM η RawValue := do
  let e ← get
  match returnSize with
  | 0 => pure (.from64 0)
  | 1 => .from32 <$> readWord e.sp
  | 2 => .from64 <$> readDouble e.sp
  | _ => panic

def return_ (returnSize : ℕ) : ExecM η Unit := do
  let e ← get
  let fp := e.fp
  let returnPc ← readWord (fp + 1)
  let bits ← readWord fp
  let callFrame := CallFrame.fromBits bits
  assert (callFrame.frameLength.toNat ≤ fp)
  assert (callFrame.parameterSize.toNat ≤ fp)
  let returnFp := fp - callFrame.frameLength.toNat
  let parameterStart := fp - callFrame.parameterSize.toNat
  let src ← spBelow returnSize
  copyWords returnSize src parameterStart
  modify fun e => { e with fp := returnFp }
  if callFrame.moduleDelta ≠ 0 then do
    let e ← get
    enterModule (e.module - callFrame.moduleDelta)
  if returnPc = JumpTarget.sentinel then do
    modify fun e => { e with sp := parameterStart, pc := JumpTarget.sentinel, jumped := true }
    let v ← readResult returnSize
    modify fun e => { e with result := some v }
    throw .finished
  else
    modify fun e => { e with sp := parameterStart + returnSize, pc := returnPc + 2, jumped := true }

/-- `br_impl`: `labelPcOffset` words separate the instruction from its label. -/
def brImpl (labelPcOffset : JumpOffset) (addr : LabelTarget) : ExecM η Unit := do
  let arity ← unwrap addr.arity
  if addr.isSentinel then return_ arity.words
  else do
    dropSp addr.depth.toNat
    let e ← get
    -- The results are above the words that were dropped.
    match arity with
    | .none => pure ()
    | .i32 => do
        assert (1 ≤ e.sp + addr.depth.toNat)
        let w ← readWord (e.sp + addr.depth.toNat - 1)
        writeWord e.sp w
        raiseSp 1
    | .i64 => do
        assert (2 ≤ e.sp + addr.depth.toNat)
        let w1 ← readWord (e.sp + addr.depth.toNat - 2)
        let w2 ← readWord (e.sp + addr.depth.toNat - 1)
        writeWord e.sp w1
        writeWord (e.sp + 1) w2
        raiseSp 2
    modify fun e => { e with pc := e.pc + labelPcOffset + addr.jump, jumped := true }

def if_ (falseAddress : LabelTarget) : ExecM η Unit := do
  dropSp 1
  let e ← get
  let v ← readWord e.sp
  if v = 0 then modify fun e => { e with pc := e.pc + 1 + falseAddress.jump, jumped := true }

def br (addr : LabelTarget) : ExecM η Unit := brImpl 1 addr

def brIf (trueAddress : LabelTarget) : ExecM η Unit := do
  dropSp 1
  let e ← get
  let v ← readWord e.sp
  if v ≠ 0 then brImpl 1 trueAddress

/-- `br_table`; the closure reads code at the address `pc`, which it moves. -/
def brTable (env : ExecEnv η) (n : U32) (pc : JumpTarget) : ExecM η JumpTarget := do
  dropSp 1
  let e ← get
  let v ← readWord e.sp
  match IrReader.brTableCase env.code n v pc with
  | .ok label pc => do
      let opOffset : U32 := if 0xFF ≤ n.toNat then 2 else 1
      if v < n then brImpl (opOffset + 2 * v) label
      else brImpl (opOffset + 2 * n) label
      Pure.pure pc
  | _ => panic

def drop (ty : ValType) : ExecM η Unit := dropSp ty.words

def select (ty : ValType) : ExecM η Unit := do
  dropSp 1
  let e ← get
  let c ← readWord e.sp
  match ty with
  | .i32 | .f32 =>
      if c = 0 then do
        let src ← spBelow 1
        let val2 ← readWord src
        let dst ← spBelow 2
        writeWord dst val2
  | .i64 | .f64 =>
      if c = 0 then do
        let src ← spBelow 2
        let val2 ← readDouble src
        let dst ← spBelow 4
        writeDouble dst val2
  dropSp ty.words

/-! ### Host calls -/

/-- The arguments of a host call, read from the stack. -/
def readArgs : List ValType → ℕ → ExecM η (List Value)
  | [], _ => pure []
  | ty :: tys, addr => do
      let v ← readValue ty addr
      let vs ← readArgs tys (addr + ty.words)
      pure (v :: vs)

/-- Run the closure of a host function. -/
def callHostFn (env : ExecEnv η) (ref : HostRef) (args : List Value) :
    ExecM η HostFunctionResult := do
  let e ← get
  let (r, world, writes) := env.host.call e.world ref args e.store.memories
  set { e with world := world, store := e.store.writeBytes writes }
  pure r

def callHost (env : ExecEnv η) (module : HostModuleRef) (x : U16) : ExecM η Unit := do
  let e ← get
  let hm ← unwrap (e.store.hostModule? module)
  let f ← unwrap hm.functions[x.toNat]?
  dropSp f.paramSize
  let e ← get
  let args ← readArgs f.params e.sp
  match ← callHostFn env ⟨module, x⟩ args with
  | .continue_ v =>
      match v, f.returns with
      | none, none => pure ()
      | some v, some ty => do
          assert (v.type = ty)
          pushValue v
      | _, _ => panic
  | .pause => do
      let e ← get
      assert (e.hostPauseResult = none)
      set { e with hostPauseResult := some f.returns }
      throw .pause
  | .trap => throw (.trap .host)

def call (x : U16) : ExecM η Unit := callImpl 0 x

def callExtern (module : ModuleRef) (x : U16) : ExecM η Unit := callImplEnterModule ⟨module, x⟩

def callIndirect (env : ExecEnv η) (x : Idx) : ExecM η Unit := do
  dropSp 1
  let e ← get
  let i ← readWord e.sp
  let m ← unwrap (e.store.module? e.module)
  let fExpected ← unwrap m.types[x]?
  let entries ← unwrap e.store.tables[e.table]?
  match entries[i.toNat]? with
  | none => throw (.trap .invalidTableIndex)
  | some (.func module index) => do
      let fm ← unwrap (e.store.module? module)
      let f ← unwrap fm.functions[index.toNat]?
      let fActual ← unwrap fm.types[f.ty]?
      if fActual ≠ fExpected then throw (.trap .invalidTableFunctionType)
      else callImplEnterModule ⟨module, index⟩
  | some (.host module index) => do
      let hm ← unwrap (e.store.hostModule? module)
      let f ← unwrap hm.functions[index.toNat]?
      if f.params ≠ fExpected.params ∨ f.returns.toList ≠ fExpected.returns then
        throw (.trap .invalidTableFunctionType)
      else callHost env module index
  | some .uninitialized => throw (.trap .uninitializedTableElement)

/-! ### Locals and globals -/

def localGet (l : LocalVariable) : ExecM η Unit := do
  let e ← get
  match l.ty with
  | .i32 | .f32 => do
      let val ← readWord (l.addr e.fp)
      writeWord e.sp val
      raiseSp 1
  | .i64 | .f64 => do
      let val ← readDouble (l.addr e.fp)
      writeDouble e.sp val
      raiseSp 2

def localSet (l : LocalVariable) : ExecM η Unit := do
  dropSp l.ty.words
  let e ← get
  match l.ty with
  | .i32 | .f32 => do
      let val ← readWord e.sp
      writeWord (l.addr e.fp) val
  | .i64 | .f64 => do
      let val ← readDouble e.sp
      writeDouble (l.addr e.fp) val

def localTee (l : LocalVariable) : ExecM η Unit := do
  let e ← get
  let src ← spBelow l.ty.words
  match l.ty with
  | .i32 | .f32 => do
      let val ← readWord src
      writeWord (l.addr e.fp) val
  | .i64 | .f64 => do
      let val ← readDouble src
      writeDouble (l.addr e.fp) val

/-- The global of a module of the store. -/
def ownGlobal (module : ModuleRef) (idx : U16) : ExecM η Global := do
  let e ← get
  let m ← unwrap (e.store.module? module)
  unwrap m.globals[idx.toNat]?

/-- `global_get` on a module of the store. -/
def globalGet (module : ModuleRef) (idx : U16) : ExecM η Unit := do
  let g ← ownGlobal module idx
  pushValue (g.value.toValue g.type.ty)

end Interpreter

/-- Replace the value of a global of a module. -/
def Store.setGlobal (s : Store) (module : ModuleRef) (idx : U16) (v : RawValue) : Store :=
  { s with modules := s.modules.modify module.toNat fun m =>
      { m with globals := m.globals.modify idx.toNat fun g => { g with value := v } } }

namespace Interpreter

/-- `global_set` on a module of the store. -/
def globalSet (module : ModuleRef) (idx : U16) : ExecM η Unit := do
  let g ← ownGlobal module idx
  dropSp g.type.ty.words
  let e ← get
  match g.type.ty with
  | .i32 | .f32 => do
      let val ← readWord e.sp
      modify fun e => { e with store := e.store.setGlobal module idx (.from32 val) }
  | .i64 | .f64 => do
      let val ← readDouble e.sp
      modify fun e => { e with store := e.store.setGlobal module idx (.from64 val) }

/-- The declaration of a host global. -/
def hostGlobal (module : HostModuleRef) (index : U16) : ExecM η HostGlobal := do
  let e ← get
  let hm ← unwrap (e.store.hostModule? module)
  unwrap hm.globals[index.toNat]?

def globalGetHost (env : ExecEnv η) (module : HostModuleRef) (index : U16) : ExecM η Unit := do
  let _ ← hostGlobal module index
  let e ← get
  let v ← okOr (env.host.readGlobal e.world ⟨module, index⟩) (.trap .globalGetFailed)
  pushValue v

def globalSetHost (env : ExecEnv η) (module : HostModuleRef) (index : U16) : ExecM η Unit := do
  let g ← hostGlobal module index
  dropSp g.ty.words
  let e ← get
  let v ← readValue g.ty e.sp
  let e ← get
  let world ← okOr (env.host.writeGlobal e.world ⟨module, index⟩ v) (.trap .globalSetFailed)
  set { e with world := world }

/-! ### Memory instructions -/

/-- The trap of a memory error. -/
def memoryResult {α : Type} : Except MemoryError α → ExecM η α
  | .ok a => pure a
  | .error .outOfBounds => throw (.trap .memoryOutOfBounds)
  | .error .outOfMemory => throw (.trap .outOfMemory)
  | .error _ => panic

/-- The memory of the current module. -/
def currentMemory : ExecM η Memory := do
  let e ← get
  unwrap e.store.memories[e.memory]?

end Interpreter

namespace LoadOp

/-- The number of bytes a load reads. -/
def bytes : LoadOp → ℕ
  | i32Load => 4
  | i64Load => 8
  | f32Load => 4
  | f64Load => 8
  | i32Load8S => 1
  | i32Load8U => 1
  | i32Load16S => 2
  | i32Load16U => 2
  | i64Load8S => 1
  | i64Load8U => 1
  | i64Load16S => 2
  | i64Load16U => 2
  | i64Load32S => 4
  | i64Load32U => 4

/-- Whether a load extends the sign of what it reads. -/
def signed : LoadOp → Bool
  | i32Load8S | i32Load16S | i64Load8S | i64Load16S | i64Load32S => true
  | _ => false

/-- The value of a load, extended from the bytes it reads to `w` bits. -/
def extend (op : LoadOp) (w v : ℕ) : BitVec w :=
  if op.signed then (BitVec.ofNat (8 * op.bytes) v).signExtend w else BitVec.ofNat w v

end LoadOp

/-- The number of bytes a store writes. -/
def StoreOp.bytes : StoreOp → ℕ
  | .i32Store => 4
  | .i64Store => 8
  | .f32Store => 4
  | .f64Store => 8
  | .i32Store8 => 1
  | .i32Store16 => 2
  | .i64Store8 => 1
  | .i64Store16 => 2
  | .i64Store32 => 4

namespace Interpreter

def load (op : LoadOp) (m : MemArg) : ExecM η Unit := do
  let top ← spBelow 1
  let base ← readWord top
  let addr ← memoryResult (Memory.effectiveAddress base m.offset)
  let memory ← currentMemory
  let v ← memoryResult (memory.loadLe op.bytes addr)
  match op.result with
  | .i32 | .f32 => writeWord top (op.extend 32 v)
  | .i64 | .f64 => do
      writeDouble top (op.extend 64 v)
      raiseSp 1

def store (op : StoreOp) (m : MemArg) : ExecM η Unit := do
  dropSp (1 + op.operand.words)
  let e ← get
  let val ← match op.operand with
    | .i32 | .f32 => BitVec.toNat <$> readWord (e.sp + 1)
    | .i64 | .f64 => BitVec.toNat <$> readDouble (e.sp + 1)
  let base ← readWord e.sp
  let addr ← memoryResult (Memory.effectiveAddress base m.offset)
  let memory ← currentMemory
  let memory' ← memoryResult (memory.storeLe op.bytes addr val)
  modify fun e => { e with store := e.store.setMemory e.memory memory' }

def memorySize : ExecM η Unit := do
  let memory ← currentMemory
  let e ← get
  writeWord e.sp memory.size
  raiseSp 1

/-- `memory.grow(n)` on the memory behind a handle; the allocator is asked only
when the memory does get larger. -/
def growMemory (env : ExecEnv η) (mem : MemRef) (m : Memory) (n : U32) : ExecM η U32 := do
  let e ← get
  let (allocated, world) := match m.growRequest n with
    | some size => env.host.reallocate e.world size
    | none => (false, e.world)
  set { e with world := world }
  match m.grow n allocated with
  | .ok (oldSize, m') => do
      modify fun e => { e with store := e.store.setMemory mem m' }
      pure oldSize
  | .error _ => pure 0xFFFFFFFF

/-- All handles to a memory. -/
def memoryHandles (env : ExecEnv η) (e : Engine η) (mem : MemRef) : ℕ :=
  e.store.memoryHandles mem + (if e.memory = mem then 1 else 0) +
    env.host.memoryHandles e.world mem

def memoryGrow (env : ExecEnv η) : ExecM η Unit := do
  let top ← spBelow 1
  let n ← readWord top
  -- The engine gives up its own handle, so that the store's is the only one.
  modify Engine.clearMemory
  let e ← get
  let mem ← unwrap (e.store.getMemoryMut e.module)
  let m ← unwrap e.store.memories[mem]?
  let result ←
    if m.isZero then pure 0xFFFFFFFF
    else if memoryHandles env e mem = 1 then growMemory env mem m n
    else throw (.trap .memoryRefNotUnique)
  modify fun e => { e with memory := mem }
  writeWord top result

/-! ### The visitor -/

/-- Execute a decoded instruction; the result is where the decoder has got to. -/
def exec (env : ExecEnv η) (i : IrInstr) (pc : JumpTarget) : ExecM η JumpTarget := do
  match i with
  | .brTable n => brTable env n pc
  | .malformedIr => throw (.trap .malformedIr)
  | .unreachable => throw (.trap .unreachable)
  | .if_ lt => do if_ lt; pure pc
  | .br lt => do br lt; pure pc
  | .brIf lt => do brIf lt; pure pc
  | .return_ size => do return_ size.toNat; pure pc
  | .call x => do call x; pure pc
  | .callHost m x => do callHost env m x; pure pc
  | .callExtern m x => do callExtern m x; pure pc
  | .callIndirect x => do callIndirect env x; pure pc
  | .drop ty => do drop ty; pure pc
  | .select ty => do select ty; pure pc
  | .localGet l => do localGet l; pure pc
  | .localSet l => do localSet l; pure pc
  | .localTee l => do localTee l; pure pc
  | .globalGet idx => do
      let e ← get
      globalGet e.module idx
      pure pc
  | .globalSet idx => do
      let e ← get
      globalSet e.module idx
      pure pc
  | .globalGetHost m x => do globalGetHost env m x; pure pc
  | .globalSetHost m x => do globalSetHost env m x; pure pc
  | .globalGetExtern m x => do globalGet m x; pure pc
  | .globalSetExtern m x => do globalSet m x; pure pc
  | .load op m => do load op m; pure pc
  | .store op m => do store op m; pure pc
  | .memorySize => do memorySize; pure pc
  | .memoryGrow => do memoryGrow env; pure pc
  | .i32Const n => do pushValue (.i32 n); pure pc
  | .i64Const n => do pushValue (.i64 n); pure pc
  | .f32Const z => do pushValue (.f32 z); pure pc
  | .f64Const z => do pushValue (.f64 z); pure pc
  | .num op => do (op.sem env.floats).exec; pure pc
  | .sat op => do op.sem.exec; pure pc

end Interpreter

/-! ### Running -/

/-- How one round of the loop ends: the loop goes on, or it returns. -/
abbrev RoundResult := Option InterpreterResult

/-- What the loop does after an instruction: `next` is where the decoder got to
when the instruction did not break off. -/
def Engine.afterInstr (e : Engine η) (next : JumpTarget) : Engine η :=
  if e.jumped then { e with jumped := false } else { e with pc := next }

/-- The state a trap leaves. -/
def Engine.trapped (e : Engine η) : Engine η :=
  { e with sp := 0, pc := JumpTarget.sentinel, fp := 0, jumped := false }

/-- One round of the loop of `run`; `none` is a panic. -/
def runRound (env : ExecEnv η) (e : Engine η) : Option (RoundResult × Engine η) :=
  if e.pc = JumpTarget.sentinel then some (some .finished, e)
  else
    match IrReader.decode env.code e.pc with
    | .ok i pc =>
        match Interpreter.exec env i pc e with
        | .ok pc' e' => some (none, e'.afterInstr pc')
        | .error .finished e' => some (some .finished, e'.afterInstr pc)
        | .error .pause e' => some (some .pause, e'.afterInstr pc)
        | .error (.trap reason) e' => some (some (.trap reason), e'.trapped)
        | .panic => none
        | .diverge => none
    | _ => none

/-- `run`: at most `n` rounds; `none` is a panic. -/
def run (env : ExecEnv η) (n : ℕ) (e : Engine η) : Option (InterpreterResult × Engine η) :=
  boundedRun (runRound env) .outOfFuel n e

/-! ### Entry points -/

/-- A call of an entry point that may be rejected. -/
abbrev EntryM (η ε α : Type) := Fallible ε (Engine η) α

/-- A step of the engine that cannot break off. -/
def stepping {ε α : Type} (x : ExecM η α) : EntryM η ε α := fun e =>
  match x e with
  | .ok a e' => .ok a e'
  | _ => .panic

/-- Write the arguments of a call. -/
def pushParams : List ValType → List Value → EntryM η InvokeError Unit
  | ty :: tys, v :: vs =>
      if v.type = ty then do
        stepping (pushValue v)
        pushParams tys vs
      else do
        modify fun e => { e with sp := 0 }
        throw .paramTypeMismatch
  | _, _ => pure ()

/-- `invoke`. -/
def invoke (f : WasmRef) (params : List Value) : EntryM η InvokeError Unit := do
  let e ← get
  if e.pc ≠ JumpTarget.sentinel ∨ e.sp ≠ 0 ∨ e.fp ≠ 0 then throw .busy
  else do
    let m ← unwrap (e.store.module? f.module)
    let func ← unwrap m.functions[f.index.toNat]?
    let ty ← unwrap m.types[func.ty]?
    if ty.params.length ≠ params.length then throw .paramLenMismatch
    else if e.stack.words.length < (ty.params.map fun t => t.size / 4).sum +
        func.requiredStackWords then throw .stackOverflow
    else do
      pushParams ty.params params
      stepping (enterModule f.module)
      stepping (callImpl 0 f.index)
      modify fun e => { e with jumped := false, result := none }

/-- `resume`. -/
def resume (resumeValue : Option Value) : EntryM η ResumeError Unit := do
  let e ← get
  match e.hostPauseResult with
  | none => throw .notPaused
  | some pauseResult =>
      if resumeValue.map Value.type = pauseResult then do
        modify fun e => { e with hostPauseResult := none }
        match resumeValue with
        | some v => stepping (pushValue v)
        | none => pure ()
      else throw .resultTypeMismatch

/-! ### Programs without floats and imports -/

/-- Float operations for code that has none. -/
def FloatOps.none : FloatOps := {
  f32Ceil := id, f32Floor := id, f32Trunc := id, f32Rint := id, f32Sqrt := id
  f32Add := fun a _ => a, f32Sub := fun a _ => a, f32Mul := fun a _ => a, f32Div := fun a _ => a
  f64Ceil := id, f64Floor := id, f64Trunc := id, f64Rint := id, f64Sqrt := id
  f64Add := fun a _ => a, f64Sub := fun a _ => a, f64Mul := fun a _ => a, f64Div := fun a _ => a
  f32OfInt := fun _ => 0, f64OfInt := fun _ => 0, f32Demote := fun _ => 0
  f64Promote := fun _ => 0 }

/-- A host that is never called, holds no memory and grants every request for one. -/
def HostEnv.quiet : HostEnv Unit := {
  call := fun _ _ _ _ => (.trap, (), [])
  readGlobal := fun _ _ => .none
  writeGlobal := fun _ _ _ => .none
  memoryHandles := fun _ _ => 0
  reallocate := fun _ _ => (true, ()) }

def ExecEnv.quiet (code : List TextPage) : ExecEnv Unit := ⟨code, .none, .quiet⟩

end SpaceWasm
