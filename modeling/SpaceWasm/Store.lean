import SpaceWasm.Memory
import SpaceWasm.Text

/-!
# Modules and the store

The store owns the loaded modules and the host modules. A memory or a table is
an object behind a reference-counted handle: handles are positions in the two
heaps `memories` and `tables`, so that two handles are the same object exactly
when they are equal. What a host function does and what a host global holds is
not in the store; see `SpaceWasm.Engine`.
-/

namespace SpaceWasm

/-- A name, as its UTF-8 bytes. -/
abbrev Name := List U8

/-- A handle to a memory (`Rc<Memory>`). -/
abbrev MemRef := ℕ

/-- A handle to a table (`Rc<[TableElement]>`). -/
abbrev TableRef := ℕ

inductive TableElement where
  | uninitialized
  | host (module : HostModuleRef) (index : U16)
  | func (module : ModuleRef) (index : U16)
  deriving DecidableEq, Repr

inductive MemoryKind where
  | owned (mem : MemRef)
  | import_ (module : ModuleRef)
  | importHost (ref : HostRef)
  deriving DecidableEq

inductive TableKind where
  | owned (table : TableRef) (ty : TableType)
  | import_ (module : ModuleRef)
  | importHost (ref : HostRef)
  deriving DecidableEq

/-- A function of a module. -/
structure Func where
  ty : Idx
  /-- Peak operand usage in words, not counting inner calls. -/
  stackUsage : ℕ
  /-- Words of the local variables. -/
  localSize : ℕ
  /-- Words of the parameters. -/
  parameterSize : ℕ
  returnTy : ResultType
  /-- Groups of local variables: a count and a type. -/
  locals : List (ℕ × ValType)
  /-- The entry point. -/
  expr : JumpTarget
  deriving DecidableEq

/-- Stack words a call needs above the caller's stack pointer. -/
def Func.requiredStackWords (f : Func) : ℕ := f.stackUsage + 2 + f.localSize

structure Global where
  type : GlobalType
  value : RawValue
  deriving DecidableEq

inductive Import where
  | func (module : ModuleRef) (index : U16)
  | hostFunc (module : HostModuleRef) (index : U16)
  | table (module : ModuleRef) (index : U16)
  | hostTable (module : HostModuleRef) (index : U16)
  | memory (module : ModuleRef) (index : U16)
  | hostMemory (module : HostModuleRef) (index : U16)
  | global (module : ModuleRef) (index : U16)
  | hostGlobal (module : HostModuleRef) (index : U16)
  deriving DecidableEq

inductive ExportDesc where
  | func (i : Idx)
  | table (i : Idx)
  | mem (i : Idx)
  | global (i : Idx)
  deriving DecidableEq

structure Export where
  name : Name
  desc : ExportDesc
  deriving DecidableEq

structure Module where
  name : Name
  types : List FuncType
  functions : List Func
  table : Option TableKind
  memory : Option MemoryKind
  globals : List Global
  imports : List Import
  exports : List Export
  start : Option Ref
  deriving DecidableEq

namespace Module

/-- Walk the imports for the one with index `x` among the functions: the
resolved reference, or the number of imported functions. -/
def funcImport : List Import → Idx → ℕ → Ref ⊕ ℕ
  | [], _, n => .inr n
  | .func m i :: rest, x, n => if x = n then .inl (.extern_ m i) else funcImport rest x (n + 1)
  | .hostFunc m i :: rest, x, n => if x = n then .inl (.host m i) else funcImport rest x (n + 1)
  | _ :: rest, x, n => funcImport rest x n

/-- The function with index `x` in the function index space. -/
def getFuncRef (m : Module) (x : Idx) : Option Ref :=
  match funcImport m.imports x 0 with
  | .inl r => some r
  | .inr n =>
      let i := x - n
      if m.functions.length ≤ i then none else some (.module (BitVec.ofNat 16 i))

/-- Walk the imports for the one with index `x` among the globals. -/
def globalImport : List Import → Idx → ℕ → Ref ⊕ ℕ
  | [], _, n => .inr n
  | .global m i :: rest, x, n =>
      if x = n then .inl (.extern_ m i) else globalImport rest x (n + 1)
  | .hostGlobal m i :: rest, x, n =>
      if x = n then .inl (.host m i) else globalImport rest x (n + 1)
  | _ :: rest, x, n => globalImport rest x n

/-- The global with index `x` in the global index space. -/
def getGlobalRef (m : Module) (x : Idx) : Option Ref :=
  match globalImport m.imports x 0 with
  | .inl r => some r
  | .inr n =>
      let i := x - n
      if m.globals.length ≤ i then none else some (.module (BitVec.ofNat 16 i))

end Module

/-- `MAX_HOST_FUNCTION_PARAMS`. -/
def maxHostFunctionParams : ℕ := 9

/-- The declaration of a host function. `HostValList` bounds its parameters. -/
structure HostFunction where
  name : Name
  params : List ValType
  returns : ResultType
  params_le : params.length ≤ maxHostFunctionParams

/-- Parameter size in words. -/
def HostFunction.paramSize (f : HostFunction) : ℕ := (f.params.map ValType.size).sum / 4

/-- The declaration of a host global. -/
structure HostGlobal where
  name : Name
  ty : ValType
  mutable : Bool

/-- A memory a host module defines. -/
structure HostMemory where
  name : Name
  value : MemRef

/-- A table a host module defines, with its limits. -/
structure HostTable where
  name : Name
  value : TableRef
  limits : Limit

structure HostModule where
  name : Name
  globals : List HostGlobal
  functions : List HostFunction
  memory : List HostMemory
  table : List HostTable

/-- `HostModuleRef::new`: the index narrowed to 8 bits. -/
def HostModuleRef.new (i : ℕ) : HostModuleRef := BitVec.ofNat 8 i

structure Store where
  modules : List Module
  /-- The capacity of `modules`. -/
  maxModules : ℕ
  hostModules : List HostModule
  /-- The memories that handles point to. -/
  memories : List Memory
  /-- The tables that handles point to. -/
  tables : List (List TableElement)
  zeroMemory : MemRef
  zeroTable : TableRef

namespace Store

/-- `from_host_modules`, over the memories and tables the host modules hold
handles to. -/
def fromHostModules (maxModules : ℕ) (hostModules : List HostModule)
    (memories : List Memory) (tables : List (List TableElement)) : Except AllocError Store :=
  if 256 < maxModules then .error .outOfMemory
  else
    .ok {
      modules := []
      maxModules := maxModules
      hostModules := hostModules
      memories := memories ++ [Memory.zero]
      tables := tables ++ [[]]
      zeroMemory := memories.length
      zeroTable := tables.length }

/-- `push_module`: append a module, unless the store is full. -/
def pushModule (s : Store) (m : Module) : Except AllocError (ModuleRef × Store) :=
  if s.modules.length < s.maxModules then
    let s' := { s with modules := s.modules ++ [m] }
    .ok (BitVec.ofNat 8 (s'.modules.length - 1), s')
  else .error .outOfMemory

def module? (s : Store) (r : ModuleRef) : Option Module := s.modules[r.toNat]?

def hostModule? (s : Store) (r : HostModuleRef) : Option HostModule := s.hostModules[r.toNat]?

/-- The handle a host memory reference stands for. -/
def hostMemory? (s : Store) (r : HostRef) : Option MemRef := do
  let hm ← s.hostModule? r.module
  let sym ← hm.memory[r.index.toNat]?
  pure sym.value

/-- The handle a host table reference stands for. -/
def hostTable? (s : Store) (r : HostRef) : Option HostTable := do
  let hm ← s.hostModule? r.module
  hm.table[r.index.toNat]?

/-- The memory a module owns itself. -/
def ownedMemory? (s : Store) (r : ModuleRef) : Option MemRef := do
  let m ← s.module? r
  match m.memory with
  | some (.owned mem) => some mem
  | _ => none

/-- The table a module owns itself. -/
def ownedTable? (s : Store) (r : ModuleRef) : Option (TableRef × TableType) := do
  let m ← s.module? r
  match m.table with
  | some (.owned table ty) => some (table, ty)
  | _ => none

/-- `get_memory`: the memory a module sees. `none` is an `unreachable!` arm or an
index out of range. -/
def getMemory (s : Store) (r : ModuleRef) : Option MemRef := do
  let m ← s.module? r
  match m.memory with
  | none => some s.zeroMemory
  | some (.owned mem) => some mem
  | some (.import_ r') => s.ownedMemory? r'
  | some (.importHost h) => s.hostMemory? h

/-- `get_table`: the table a module sees. -/
def getTable (s : Store) (r : ModuleRef) : Option TableRef := do
  let m ← s.module? r
  match m.table with
  | none => some s.zeroTable
  | some (.owned table _) => some table
  | some (.import_ r') => (s.ownedTable? r').map Prod.fst
  | some (.importHost h) => (s.hostTable? h).map HostTable.value

/-- `get_memory_mut`: the place of the handle, for a caller that wants to grow
the memory behind it. -/
def getMemoryMut (s : Store) (r : ModuleRef) : Option MemRef := do
  let m ← s.module? r
  match m.memory with
  | none => some s.zeroMemory
  | some (.owned _) => s.ownedMemory? r
  | some (.import_ r') => s.ownedMemory? r'
  | some (.importHost h) => s.hostMemory? h

/-- The handles to a memory inside the store: the sentinel, the owning modules
and the host symbols. -/
def memoryHandles (s : Store) (mem : MemRef) : ℕ :=
  (if s.zeroMemory = mem then 1 else 0) +
    s.modules.countP (fun m => m.memory = some (.owned mem)) +
    (s.hostModules.map fun hm => hm.memory.countP fun sym => sym.value = mem).sum

/-- The handles to a table inside the store. -/
def tableHandles (s : Store) (table : TableRef) : ℕ :=
  (if s.zeroTable = table then 1 else 0) +
    s.modules.countP (fun m =>
      match m.table with
      | some (.owned t _) => t = table
      | _ => false) +
    (s.hostModules.map fun hm => hm.table.countP fun sym => sym.value = table).sum

/-- Replace the memory behind a handle. -/
def setMemory (s : Store) (mem : MemRef) (m : Memory) : Store :=
  { s with memories := s.memories.set mem m }

/-- Replace the table behind a handle. -/
def setTable (s : Store) (table : TableRef) (t : List TableElement) : Store :=
  { s with tables := s.tables.set table t }

end Store

end SpaceWasm
