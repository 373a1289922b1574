import SpaceWasm.Store

/-!
# Linking

An import is looked up by its module and symbol names, first among the host
modules and then among the loaded modules. An export of an imported entity
resolves to the entity itself, so that every resolved import designates an
owner.
-/

namespace SpaceWasm

open Fallible

/-- What an import asks for. -/
inductive ImportDesc where
  | func (ty : Idx)
  | table (ty : TableType)
  | mem (ty : MemType)
  | global (ty : GlobalType)
  deriving DecidableEq

/-- A linking step: it reads the store and may fail or panic. -/
abbrev LinkM (α : Type) := Fallible ValidationError Unit α

/-- The first element that answers, with its position counted from `n`. -/
def findFirst {α β : Type} (f : ℕ → α → Option β) : List α → ℕ → Option β
  | [], _ => none
  | a :: as, n =>
      match f n a with
      | some b => some b
      | none => findFirst f as (n + 1)

namespace HostFunction

/-- The type of a host function. -/
def type (f : HostFunction) : FuncType := ⟨f.params, f.returns.toList⟩

end HostFunction

namespace Store

/-- The first host symbol with a name in the host modules with a name: its
module and symbol index, and the symbol. -/
def findHost {α : Type} (s : Store) (symbols : HostModule → List α) (symbolName : α → Name)
    (moduleName name : Name) : Option (ℕ × ℕ × α) :=
  findFirst (fun mi module =>
    if module.name = moduleName then
      findFirst (fun i sym => if symbolName sym = name then some (mi, i, sym) else none)
        (symbols module) 0
    else none) s.hostModules 0

/-- The first export with a name in the loaded modules with a name. -/
def findExport (s : Store) (moduleName name : Name) : Option (ℕ × Module × ExportDesc) :=
  findFirst (fun mi module =>
    if module.name = moduleName then
      findFirst (fun _ e => if e.name = name then some (mi, module, e.desc) else none)
        module.exports 0
    else none) s.modules 0

/-- The import of a function, if its type is the expected one. -/
def checkFunction (ty expectedTy : FuncType) (i : Import) : LinkM Import :=
  if ty = expectedTy then pure i else throw .functionImportTypeMismatch

def linkFunction (s : Store) (moduleName name : Name) (expectedTy : FuncType) : LinkM Import :=
  match s.findHost HostModule.functions HostFunction.name moduleName name with
  | some (mi, fi, f) =>
      checkFunction f.type expectedTy (.hostFunc (HostModuleRef.new mi) (BitVec.ofNat 16 fi))
  | none =>
      match s.findExport moduleName name with
      | none => throw .functionImportNotFound
      | some (mi, module, .func fi) => do
          let ref ← okOr (module.getFuncRef fi) .functionIdxOutOfRange
          match ref with
          | .module idx => do
              let f ← unwrap module.functions[idx.toNat]?
              let ty ← okOr module.types[f.ty]? .typeIdxOutOfRange
              checkFunction ty expectedTy (.func (BitVec.ofNat 8 mi) idx)
          | .extern_ m index => do
              let em ← unwrap (s.module? m)
              let f ← unwrap em.functions[index.toNat]?
              let ty ← unwrap em.types[f.ty]?
              checkFunction ty expectedTy (.func m index)
          | .host m index => do
              let hm ← unwrap (s.hostModule? m)
              let f ← unwrap hm.functions[index.toNat]?
              checkFunction f.type expectedTy (.hostFunc m index)
      | some _ => throw .functionImportTypeMismatch

/-- The import of a global, if its type is the expected one. -/
def checkGlobal (ty : ValType) (mutable : Bool) (expectedTy : GlobalType) (i : Import) :
    LinkM Import :=
  if ty ≠ expectedTy.ty then throw .globalImportTypeMismatch
  else if mutable ≠ expectedTy.mutable then throw .globalNotMutable
  else pure i

def linkGlobal (s : Store) (moduleName name : Name) (expectedTy : GlobalType) : LinkM Import :=
  match s.findHost HostModule.globals HostGlobal.name moduleName name with
  | some (mi, gi, g) =>
      checkGlobal g.ty g.mutable expectedTy
        (.hostGlobal (HostModuleRef.new mi) (BitVec.ofNat 16 gi))
  | none =>
      match s.findExport moduleName name with
      | none => throw .globalImportNotFound
      | some (mi, module, .global gi) => do
          let ref ← okOr (module.getGlobalRef gi) .globalIdxOutOfRange
          match ref with
          | .module idx => do
              let g ← unwrap module.globals[idx.toNat]?
              checkGlobal g.type.ty g.type.mutable expectedTy (.global (BitVec.ofNat 8 mi) idx)
          | .extern_ m index => do
              let em ← unwrap (s.module? m)
              let g ← unwrap em.globals[index.toNat]?
              checkGlobal g.type.ty g.type.mutable expectedTy (.global m index)
          | .host m index => do
              let hm ← unwrap (s.hostModule? m)
              let g ← unwrap hm.globals[index.toNat]?
              checkGlobal g.ty g.mutable expectedTy (.hostGlobal m index)
      | some _ => throw .globalImportTypeMismatch

/-- The import of a table, if its limits are included in the expected ones. -/
def checkTable (limits : Limit) (expectedTy : TableType) (i : Import) : LinkM Import :=
  if limits.matches expectedTy.limits then pure i else throw .tableImportIncompatibleSize

def linkTable (s : Store) (moduleName name : Name) (expectedTy : TableType) : LinkM Import :=
  match s.findHost HostModule.table HostTable.name moduleName name with
  | some (mi, ti, table) =>
      checkTable table.limits expectedTy
        (.hostTable (HostModuleRef.new mi) (BitVec.ofNat 16 ti))
  | none =>
      match s.findExport moduleName name with
      | none => throw .tableImportNotFound
      | some (mi, module, .table ti) =>
          if 0 < ti then throw .invalidTableIndex
          else
            match module.table with
            | none => throw .tableNotDefined
            | some (.owned _ ty) => checkTable ty.limits expectedTy (.table (BitVec.ofNat 8 mi) 0)
            | some (.import_ m) => do
                let (_, ty) ← unwrap (s.ownedTable? m)
                checkTable ty.limits expectedTy (.table m 0)
            | some (.importHost h) => do
                let sym ← unwrap (s.hostTable? h)
                checkTable sym.limits expectedTy (.hostTable h.module h.index)
      | some _ => throw .tableImportTypeMismatch

/-- The type of the memory behind a handle. -/
def memType? (s : Store) (mem : MemRef) : Option MemType := s.memories[mem]?.map Memory.ty

/-- The import of a memory, if its type matches the expected one. -/
def checkMemory (s : Store) (mem : MemRef) (expectedTy : MemType) (i : Import) : LinkM Import := do
  let ty ← unwrap (s.memType? mem)
  if ty.matches expectedTy then pure i else throw .memoryImportTooLarge

def linkMemory (s : Store) (moduleName name : Name) (expectedTy : MemType) : LinkM Import :=
  match s.findHost HostModule.memory HostMemory.name moduleName name with
  | some (mi, i, symbol) =>
      s.checkMemory symbol.value expectedTy
        (.hostMemory (HostModuleRef.new mi) (BitVec.ofNat 16 i))
  | none =>
      match s.findExport moduleName name with
      | none => throw .memoryImportNotFound
      | some (mi, module, .mem i) =>
          if 0 < i then throw .invalidMemIndex
          else
            match module.memory with
            | none => throw .memoryNotDefined
            | some (.owned mem) => s.checkMemory mem expectedTy (.memory (BitVec.ofNat 8 mi) 0)
            | some (.import_ m) => do
                let mem ← unwrap (s.ownedMemory? m)
                s.checkMemory mem expectedTy (.memory m 0)
            | some (.importHost h) => do
                let mem ← unwrap (s.hostMemory? h)
                s.checkMemory mem expectedTy (.hostMemory h.module h.index)
      | some _ => throw .memoryImportTypeMismatch

end Store

end SpaceWasm
