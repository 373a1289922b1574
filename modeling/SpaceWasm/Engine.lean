import SpaceWasm.Store

/-!
# The engine

The engine is the state of the interpreter: the program counter, the operand
stack with its two pointers, the memory and the table of the current module, and
the store. The host is a parameter: `η` is its own state, and `HostEnv` says what
its functions, its globals and its allocator answer.

Stack accesses are unchecked in a release build. Here an access outside the
stack and a stack pointer below zero are panics, and the stack records the
addresses it was accessed at, so that a result can say which they were.
-/

namespace SpaceWasm

open Fallible

structure Stack where
  words : List U32
  /-- The addresses of the accesses so far, the last one first. -/
  touched : List ℕ
  deriving DecidableEq

structure Engine (η : Type) where
  pc : JumpTarget
  /-- Whether the current instruction jumps. -/
  jumped : Bool
  /-- Frame pointer. -/
  fp : ℕ
  /-- Stack pointer. -/
  sp : ℕ
  stack : Stack
  /-- Linear memory of the active module. -/
  memory : MemRef
  /-- Table of the active module. -/
  table : TableRef
  /-- The module whose code is executed. -/
  module : ModuleRef
  store : Store
  /-- The result type a pending pause expects from `resume`. -/
  hostPauseResult : Option ResultType
  result : Option RawValue
  /-- The state of the host. -/
  world : η

inductive HostFunctionResult where
  | continue_ (v : Option Value)
  | trap
  | pause
  deriving DecidableEq

/-- A change a host function makes to a byte of a memory. -/
structure ByteWrite where
  mem : MemRef
  addr : ℕ
  byte : U8

/-- The host: it changes nothing in the engine but bytes of memories. -/
structure HostEnv (η : Type) where
  call : η → HostRef → List Value → List Memory → HostFunctionResult × η × List ByteWrite
  readGlobal : η → HostRef → Option Value
  writeGlobal : η → HostRef → Value → Option η
  /-- The handles to a memory held outside the store and the engine. -/
  memoryHandles : η → MemRef → ℕ
  /-- The answer of the guest allocator to a request for so many bytes. -/
  reallocate : η → ℕ → Bool × η

inductive TrapReason where
  | unreachable | host | divideByZero | invalidTableIndex | invalidTableFunctionType
  | uninitializedTableElement | globalGetFailed | globalSetFailed | outOfMemory
  | memoryRefNotUnique | memoryOutOfBounds | stackOverflow | unrepresentableResult
  | integerOverflow | badConversionToInteger | malformedIr
  deriving DecidableEq, Repr

inductive InterpreterBreak where
  | finished
  | trap (reason : TrapReason)
  | pause
  deriving DecidableEq, Repr

variable {η : Type}

abbrev ExecM (η α : Type) := Fallible InterpreterBreak (Engine η) α

namespace Store

/-- One byte changed by the host; a write outside the memory is no write. -/
def writeByte (s : Store) (w : ByteWrite) : Store :=
  match s.memories[w.mem]? with
  | none => s
  | some m => s.setMemory w.mem { m with bytes := m.bytes.set w.addr w.byte }

def writeBytes (s : Store) (ws : List ByteWrite) : Store := ws.foldl writeByte s

end Store

namespace Engine

/-- `Engine::new`, over a store. -/
def new (stackSize : ℕ) (store : Store) (world : η) : Engine η := {
  pc := JumpTarget.sentinel
  jumped := false
  fp := 0
  sp := 0
  stack := ⟨List.replicate stackSize 0, []⟩
  memory := store.zeroMemory
  table := store.zeroTable
  module := 0
  store := store
  hostPauseResult := none
  result := none
  world := world }

def clearMemory (e : Engine η) : Engine η := { e with memory := e.store.zeroMemory }

def clearTable (e : Engine η) : Engine η := { e with table := e.store.zeroTable }

def reset (e : Engine η) : Engine η :=
  clearTable (clearMemory { e with
    pc := JumpTarget.sentinel
    sp := 0
    fp := 0
    jumped := false
    result := none
    hostPauseResult := none })

def isIdle (e : Engine η) : Bool := decide (e.pc = JumpTarget.sentinel)

end Engine

/-! ### Stack accesses -/

/-- `state.sp - n`. -/
def spBelow (n : ℕ) : ExecM η ℕ := do
  let e ← get
  assert (n ≤ e.sp)
  pure (e.sp - n)

/-- `state.sp -= n`. -/
def dropSp (n : ℕ) : ExecM η Unit := do
  let sp ← spBelow n
  modify fun e => { e with sp := sp }

/-- `state.sp += n`. -/
def raiseSp (n : ℕ) : ExecM η Unit := modify fun e => { e with sp := e.sp + n }

/-- The word at an address. -/
def readWord (addr : ℕ) : ExecM η U32 := do
  let e ← get
  let w ← unwrap e.stack.words[addr]?
  set { e with stack := { e.stack with touched := addr :: e.stack.touched } }
  pure w

def writeWord (addr : ℕ) (w : U32) : ExecM η Unit := do
  let e ← get
  assert (addr < e.stack.words.length)
  set { e with stack := ⟨e.stack.words.set addr w, addr :: e.stack.touched⟩ }

/-- `read_u64`: two words, the low one first. -/
def readDouble (addr : ℕ) : ExecM η U64 := do
  let lo ← readWord addr
  let hi ← readWord (addr + 1)
  pure (lo.setWidth 64 ||| (hi.setWidth 64 <<< 32))

def writeDouble (addr : ℕ) (w : U64) : ExecM η Unit := do
  writeWord addr (w.setWidth 32)
  writeWord (addr + 1) ((w >>> 32).setWidth 32)

/-- Write a value of a type at the top of the stack. -/
def pushValue (v : Value) : ExecM η Unit := do
  let e ← get
  match v with
  | .i32 w | .f32 w => do
      writeWord e.sp w
      raiseSp 1
  | .i64 w | .f64 w => do
      writeDouble e.sp w
      raiseSp 2

/-- Read a value of a type at an address. -/
def readValue (ty : ValType) (addr : ℕ) : ExecM η Value :=
  match ty with
  | .i32 => .i32 <$> readWord addr
  | .i64 => .i64 <$> readDouble addr
  | .f32 => .f32 <$> readWord addr
  | .f64 => .f64 <$> readDouble addr

end SpaceWasm
