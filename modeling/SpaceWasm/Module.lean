import SpaceWasm.Compiler
import SpaceWasm.Constant
import SpaceWasm.Imports

/-!
# The module decoder

`Module.new` decodes a module from the stream: it links the imports against the
store, compiles the function bodies into the shared code buffer, and writes
element and data segments into tables and memories as it reads them. A failed
load leaves the store and the code buffer as they were at the failure; the
module under construction is dropped.
-/

namespace SpaceWasm

open Fallible

/-- What a load takes from its surroundings. -/
structure LoadEnv where
  maxControlFrames : ℕ
  maxStackDepth : ℕ
  /-- The frame of the function is the first one. -/
  maxControlFrames_pos : 0 < maxControlFrames
  /-- The assertion that `Expr::read` makes when it is compiled. -/
  maxStackDepth_le : 2 * maxStackDepth ≤ 0xFFFF
  /-- The value of a host global. -/
  readGlobal : HostRef → Option Value
  /-- The handles to a table held outside the store. -/
  tableHandles : TableRef → ℕ
  /-- Whether the guest allocator has so many bytes. -/
  allocates : ℕ → Bool

/-- The state of a load. -/
structure LoadState where
  wasm : Reader
  store : Store
  code : CodeBuilder
  module : Module

abbrev LoadM (α : Type) := Fallible ValidationError LoadState α

/-! ### Steps of the parts of a load -/

section Steps

variable {α : Type}

def decoding (x : ReaderM α) : LoadM α :=
  zoom LoadState.wasm (fun s wasm => { s with wasm := wasm }) x

def building (x : CodeM α) : LoadM α :=
  zoom LoadState.code (fun s code => { s with code := code }) x

/-- A linking step reads the store. -/
def linking (f : Store → LinkM α) : LoadM α := do
  let s ← get
  zoom (fun _ => ()) (fun s _ => s) (f s.store)

/-- `wasm.with_limit(len, f)`. -/
def limited (len : ℕ) (f : LoadM α) : LoadM α :=
  withLimit LoadState.wasm (fun s wasm => { s with wasm := wasm }) id len f

/-- `wasm.offset()`. -/
def offset : LoadM ℕ := gets fun s => s.wasm.offset

/-- `Vec::new(capacity)`. -/
def newVec (capacity : ℕ) : LoadM Unit :=
  if 0 < capacity then building (allocate capacity) else pure ()

/-- `read_vec`: a vector whose capacity is its length prefix. -/
def readVec (readElement : LoadM α) : LoadM (List α) := do
  let len ← decoding readU32
  let remaining ← gets fun s => s.wasm.bytesRemaining
  if remaining < len.toNat then throw .vecTooLong
  else do
    newVec len.toNat
    collect len.toNat readElement

end Steps

/-! ### Names and types -/

/-- A continuation byte of UTF-8. -/
def isContinuation (b : U8) : Bool := decide (0x80 ≤ b.toNat) && decide (b.toNat ≤ 0xBF)

/-- `core::str::from_utf8(bytes).is_ok()`: shortest forms of scalar values only. -/
def utf8Valid : List U8 → Bool
  | [] => true
  | b :: rest =>
      if b.toNat ≤ 0x7F then utf8Valid rest
      else if 0xC2 ≤ b.toNat ∧ b.toNat ≤ 0xDF then
        match rest with
        | c :: rest => isContinuation c && utf8Valid rest
        | _ => false
      else if 0xE0 ≤ b.toNat ∧ b.toNat ≤ 0xEF then
        match rest with
        | c :: d :: rest =>
            -- No overlong form after `E0` and no surrogate after `ED`.
            isContinuation c && isContinuation d &&
              (decide (b ≠ 0xE0) || decide (0xA0 ≤ c.toNat)) &&
              (decide (b ≠ 0xED) || decide (c.toNat ≤ 0x9F)) && utf8Valid rest
        | _ => false
      else if 0xF0 ≤ b.toNat ∧ b.toNat ≤ 0xF4 then
        match rest with
        | c :: d :: e :: rest =>
            isContinuation c && isContinuation d && isContinuation e &&
              (decide (b ≠ 0xF0) || decide (0x90 ≤ c.toNat)) &&
              (decide (b ≠ 0xF4) || decide (c.toNat ≤ 0x8F)) && utf8Valid rest
        | _ => false
      else false

/-- `Name::read`. -/
def Name.read : LoadM Name := do
  let bytes ← readVec (decoding readU8)
  if utf8Valid bytes then pure bytes else throw .malformedUtf8

/-- A name of at most 32 bytes, read without allocation. -/
def readShortName : ReaderM Name := do
  let bytes ← readVecStack 32 readU8
  if utf8Valid bytes then pure bytes else throw .malformedUtf8

def FuncType.read : LoadM FuncType := do
  let tag ← decoding readU8
  if tag = 0x60 then do
    let params ← readVec (decoding ValType.read)
    let returns ← readVec (decoding ValType.read)
    if 1 < returns.length then throw .functionReturnsTooLarge
    else pure ⟨params, returns⟩
  else throw (.malformedFunction tag)

/-! ### Expressions -/

/-- `Expr::read_constant`. -/
def readConstant (env : LoadEnv) : LoadM Value := do
  let s ← get
  let value ← zoom (fun s => (⟨s.wasm, none⟩ : Decoding (Option Value)))
    (fun s d => { s with wasm := d.wasm }) (do
      readCode (ConstantCompiler.visit env.readGlobal s.store s.module)
      gets Decoding.visitor)
  unwrap value

/-- `Expr::read`: compile a function body. Returns its entry and its stack usage. -/
def readExpr (env : LoadEnv) (ctx : Func) : LoadM (JumpTarget × ℕ) := do
  let e ← building CodeBuilder.pc
  let usage ← zoom
    (fun s => (⟨s.wasm, TextBuilder.new s.code s.store s.module ctx⟩ :
      Decoding (TextBuilder env.maxControlFrames env.maxStackDepth)))
    (fun s d => { s with wasm := d.wasm, code := d.visitor.code }) (do
      readCode Compiler.visit
      gets fun d => d.visitor.stackHighwater)
  if 0xFFFF < usage then throw .stackTooLarge else pure (e, usage)

/-- A group of locals. -/
def readLocals : ReaderM (ℕ × ValType) := do
  let n ← readU32
  let t ← ValType.read
  if 0xFFFF < n.toNat then throw .tooManyLocals else pure (n.toNat, t)

/-- The size of the locals in bytes; `none` when it overflows a `usize`. -/
def localsSize : List (ℕ × ValType) → ℕ → Option ℕ
  | [], total => some total
  | (n, ty) :: rest, total =>
      if total + n * ty.size ≤ usizeMax then localsSize rest (total + n * ty.size) else none

/-- `self.functions[i] = f`. -/
def setFunction (i : ℕ) (f : Func) : LoadM Unit :=
  modify fun s => { s with module := { s.module with functions := s.module.functions.set i f } }

/-- `read_function_code`: the body of function `i`. -/
def readFunctionCode (env : LoadEnv) (i : ℕ) : LoadM Unit := do
  let size ← decoding readU32
  let start ← offset
  let s ← get
  let f ← unwrap s.module.functions[i]?
  setFunction i { f with locals := [], expr := 0 }
  let f ← limited size.toNat do
    let locals ← readVec (decoding readLocals)
    let totalSize ← okOr (localsSize locals 0) .tooManyLocals
    let sizeInWords := totalSize / 4
    if 0xFFFF < sizeInWords then throw .tooManyLocals
    else do
      let f := { f with locals := locals, localSize := sizeInWords }
      let (expr, stackUsage) ← readExpr env f
      pure { f with expr := expr, stackUsage := stackUsage }
  -- The frame a call leaves behind has a 16-bit length.
  if 0xFFFF < 2 + f.localSize + f.stackUsage then throw .stackTooLarge
  else do
    setFunction i f
    let stop ← offset
    if (stop - start) % 2 ^ 32 ≠ size.toNat then throw .malformedCodeSize else pure ()

/-! ### Sections -/

def SectionKind.convert (value : U8) : Except ValidationError SectionKind :=
  match value.toNat with
  | 0 => .ok .custom
  | 1 => .ok .type
  | 2 => .ok .import_
  | 3 => .ok .function
  | 4 => .ok .table
  | 5 => .ok .memory
  | 6 => .ok .global
  | 7 => .ok .export_
  | 8 => .ok .start
  | 9 => .ok .element
  | 10 => .ok .code
  | 11 => .ok .data
  | _ => .error (.malformedSectionId value)

def SectionKind.read : ReaderM SectionKind := do
  let id ← readU8
  ofExcept (SectionKind.convert id)

/-- `CustomSection::read` with the handler that skips the payload. -/
def readCustomSection (size : ℕ) : LoadM Unit := do
  let start ← offset
  let _ ← decoding readShortName
  let stop ← offset
  let nameLength := stop - start
  if size < nameLength then throw .malformedSectionSize
  else limited (size - nameLength) (decoding (skip (size - nameLength)))

def ImportDesc.read : ReaderM ImportDesc := do
  let tag ← readU8
  if tag = 0x00 then .func <$> Idx.read
  else if tag = 0x01 then .table <$> TableType.read
  else if tag = 0x02 then .mem <$> MemType.read
  else if tag = 0x03 then .global <$> GlobalType.read
  else throw (.malformedImportExportDesc tag)

/-- The look-up of an import in the store. -/
def linkImport (module : Module) (moduleName name : Name) (desc : ImportDesc) (store : Store) :
    LinkM Import :=
  match desc with
  | .func tyIdx => do
      let ty ← okOr module.types[tyIdx]? .typeIdxOutOfRange
      store.linkFunction moduleName name ty
  | .mem ty => store.linkMemory moduleName name ty
  | .table ty => store.linkTable moduleName name ty
  | .global ty => store.linkGlobal moduleName name ty

def Import.read : LoadM Import := do
  let moduleName ← decoding readShortName
  let name ← decoding readShortName
  let desc ← decoding ImportDesc.read
  let s ← get
  linking (linkImport s.module moduleName name desc)

/-- `self.memory = Some(kind)`, unless there is one. -/
def importMemory (kind : MemoryKind) : LoadM Unit := do
  let s ← get
  if s.module.memory ≠ none then throw .multipleMemories
  else set { s with module := { s.module with memory := some kind } }

/-- `self.table = Some(kind)`, unless there is one. -/
def importTable (kind : TableKind) : LoadM Unit := do
  let s ← get
  if s.module.table ≠ none then throw .multipleTables
  else set { s with module := { s.module with table := some kind } }

/-- Check that an `unreachable!` arm or an index is not reached; the check comes
after the one for a second import. -/
def present {β : Type} (o : Option β) : LoadM Unit := do
  let _ ← unwrap o

/-- Resolve an import of a memory or a table into the module. -/
def resolveImport : Import → LoadM Unit
  | .memory module _ => do
      importMemory (.import_ module)
      let s ← get
      present (s.store.ownedMemory? module)
  | .hostMemory module index => do
      importMemory (.importHost ⟨module, index⟩)
      let s ← get
      present (s.store.hostMemory? ⟨module, index⟩)
  | .table module _ => do
      importTable (.import_ module)
      let s ← get
      present (s.store.ownedTable? module)
  | .hostTable module index => do
      importTable (.importHost ⟨module, index⟩)
      let s ← get
      present (s.store.hostTable? ⟨module, index⟩)
  | _ => pure ()

def readImportSection : LoadM Unit := do
  let imports ← readVec Import.read
  modify fun s => { s with module := { s.module with imports := imports } }
  forEach imports resolveImport

def readTypeSection : LoadM Unit := do
  let types ← readVec FuncType.read
  modify fun s => { s with module := { s.module with types := types } }

/-- `Func::read_func_section`. -/
def readFuncDecl : LoadM Func := do
  let tyIdx ← decoding Idx.read
  let s ← get
  let ty ← okOr s.module.types[tyIdx]? .typeIdxOutOfRange
  let parameterSize := (ty.params.map ValType.size).sum / 4
  if 1 < ty.returns.length then throw .functionReturnsTooLarge
  else if 0xFF < parameterSize then throw .functionParametersTooLarge
  else pure {
    ty := tyIdx
    stackUsage := 0
    localSize := 0
    parameterSize := parameterSize
    returnTy := ty.returns.head?
    locals := []
    expr := 0 }

def readFunctionSection : LoadM Unit := do
  let functions ← readVec readFuncDecl
  if 0xFFFF < functions.length then throw .idxTooLarge
  else modify fun s => { s with module := { s.module with functions := functions } }

/-- `Rc::new_slice_with_default`: a new table. -/
def newTable (n : ℕ) : LoadM TableRef := do
  building (allocate n)
  let s ← get
  let table := s.store.tables.length
  set { s with store :=
    { s.store with tables := s.store.tables ++ [List.replicate n .uninitialized] } }
  pure table

def readTableSection : LoadM Unit := do
  let s ← get
  if s.module.table ≠ none then throw .multipleTables
  else do
    let n ← decoding readU32
    if n.toNat = 0 then modify fun s => { s with module := { s.module with table := none } }
    else if n.toNat = 1 then do
      let ty ← decoding TableType.read
      let table ← newTable ty.limits.min
      modify fun s => { s with module := { s.module with table := some (.owned table ty) } }
    else throw .multipleTables

/-- `Memory::new` and `Rc::new`: a new memory. -/
def newMemory (env : LoadEnv) (ty : MemType) : LoadM MemRef := do
  let size := Memory.initialSize ty
  if 0 < size ∧ env.allocates size = false then throw .guestMemoryAllocationFailure
  else do
    building (allocate 1)
    let s ← get
    let mem := s.store.memories.length
    set { s with store := { s.store with memories := s.store.memories ++ [Memory.ofType ty] } }
    pure mem

def readMemorySection (env : LoadEnv) : LoadM Unit := do
  let len ← decoding readU32
  if 1 < len.toNat then throw .multipleMemories
  else if len.toNat = 0 then
    modify fun s => { s with module := { s.module with memory := none } }
  else do
    let s ← get
    if s.module.memory ≠ none then throw .multipleMemories
    else do
      let ty ← decoding MemType.read
      let mem ← newMemory env ty
      modify fun s => { s with module := { s.module with memory := some (.owned mem) } }

def Global.read (env : LoadEnv) : LoadM Global := do
  let type ← decoding GlobalType.read
  let init ← readConstant env
  if type.ty ≠ init.type then throw .globalTypeMismatch
  else pure ⟨type, RawValue.ofValue init⟩

def readGlobalSection (env : LoadEnv) : LoadM Unit := do
  let globals ← readVec (Global.read env)
  if 0xFFFF < globals.length then throw .idxTooLarge
  else modify fun s => { s with module := { s.module with globals := globals } }

def ExportDesc.read : ReaderM ExportDesc := do
  let tag ← readU8
  if tag = 0x00 then .func <$> Idx.read
  else if tag = 0x01 then .table <$> Idx.read
  else if tag = 0x02 then .mem <$> Idx.read
  else if tag = 0x03 then .global <$> Idx.read
  else throw (.malformedImportExportDesc tag)

/-- The check that an export refers to a defined symbol. -/
def checkExport (module : Module) : ExportDesc → Except ValidationError Unit
  | .func i => if module.getFuncRef i = none then .error .functionIdxOutOfRange else .ok ()
  | .table i =>
      if i ≠ 0 then .error .invalidTableIndex
      else if module.table = none then .error .tableNotDefined
      else .ok ()
  | .mem i =>
      if i ≠ 0 then .error .invalidMemIndex
      else if module.memory = none then .error .memoryNotDefined
      else .ok ()
  | .global i => if module.getGlobalRef i = none then .error .globalIdxOutOfRange else .ok ()

def Export.read : LoadM Export := do
  let name ← Name.read
  let desc ← decoding ExportDesc.read
  let s ← get
  ofExcept (checkExport s.module desc)
  pure ⟨name, desc⟩

/-- The loop of `ExportSection::read`, over the exports read so far. -/
def readExports : ℕ → List Export → LoadM (List Export)
  | 0, out => pure out
  | n + 1, out => do
      let e ← Export.read
      if out.any fun ei => ei.name = e.name then throw .duplicateExportName
      else readExports n (out ++ [e])

def readExportSection : LoadM Unit := do
  let len ← decoding readU32
  newVec len.toNat
  let exports ← readExports len.toNat []
  modify fun s => { s with module := { s.module with exports := exports } }

/-- Start functions must be `[] -> []`. -/
def checkStart (ty : FuncType) : LoadM Unit :=
  if ty.params ≠ [] ∨ ty.returns ≠ [] then throw .invalidStartFunctionSignature else pure ()

def readStartSection : LoadM Unit := do
  let idx ← decoding Idx.read
  let s ← get
  let r ← okOr (s.module.getFuncRef idx) .functionIdxOutOfRange
  match r with
  | .module index => do
      let f ← unwrap s.module.functions[index.toNat]?
      let ty ← unwrap s.module.types[f.ty]?
      checkStart ty
  | .host _ _ => throw .invalidHostStartFunction
  | .extern_ module index => do
      let m ← unwrap (s.store.module? module)
      let f ← unwrap m.functions[index.toNat]?
      let ty ← unwrap m.types[f.ty]?
      checkStart ty
  modify fun s => { s with module := { s.module with start := some r } }

/-! ### Element segments -/

/-- `Module::get_table`: the table of the module, for a writer that needs the
only handle to it. -/
def getTableMut (env : LoadEnv) : LoadM (Option TableRef) := do
  let s ← get
  match s.module.table with
  | none => pure none
  | some kind => do
      let table ← match kind with
        | .owned table _ => pure table
        | .import_ i => do
            let (table, _) ← unwrap (s.store.ownedTable? i)
            pure table
        | .importHost i => do
            let sym ← unwrap (s.store.hostTable? i)
            pure sym.value
      let own := match kind with
        | .owned _ _ => 1
        | _ => 0
      if s.store.tableHandles table + env.tableHandles table + own = 1 then pure (some table)
      else throw .tableRefNotUnique

/-- The table entry for a function reference of the module that is being loaded. -/
def tableElementOf (modules : ℕ) : Ref → TableElement
  | .module index => .func (BitVec.ofNat 8 modules) index
  | .host module index => .host module index
  | .extern_ module index => .func module index

/-- The offset of a segment. -/
def segmentOffset (e : ValidationError) : Value → LoadM U32
  | .i32 i => pure i
  | _ => throw e

/-- One function of an element segment, written at `index`. -/
def readElementFunc (env : LoadEnv) (index : ℕ) : LoadM Unit := do
  let idx ← decoding Idx.read
  let s ← get
  let r ← okOr (s.module.getFuncRef idx) .functionIdxOutOfRange
  let tr := tableElementOf s.store.modules.length r
  match ← getTableMut env with
  | none => throw .tableNotDefined
  | some table => do
      let entries ← unwrap s.store.tables[table]?
      if entries.length ≤ index then throw .invalidElementOutOfBounds
      else modify fun s => { s with store := s.store.setTable table (entries.set index tr) }

/-- The functions of an element segment, written from `index` on. -/
def readElementFuncs (env : LoadEnv) : ℕ → ℕ → LoadM Unit
  | 0, _ => pure ()
  | n + 1, index => do
      readElementFunc env index
      readElementFuncs env n (index + 1)

/-- `Element::read`. -/
def readElement (env : LoadEnv) : LoadM Unit := do
  let table ← decoding Idx.read
  if table ≠ 0 then throw .invalidTableIndex
  else do
    let value ← readConstant env
    let offset ← segmentOffset .invalidElementOffset value
    let initLen ← decoding readU32
    match ← getTableMut env with
    | none => throw .tableNotDefined
    | some table => do
        let s ← get
        let entries ← unwrap s.store.tables[table]?
        if entries.length < offset.toNat then throw .invalidElementOffset
        else if entries.length < offset.toNat + initLen.toNat then
          throw .invalidElementOutOfBounds
        else pure ()
    readElementFuncs env initLen.toNat offset.toNat

def readElementSection (env : LoadEnv) : LoadM Unit := do
  let len ← decoding readU32
  iterate len.toNat (readElement env)

/-! ### Code and data -/

/-- The loop of `CodeSection::read`. -/
def readFunctionCodes (env : LoadEnv) : ℕ → ℕ → LoadM Unit
  | 0, _ => pure ()
  | n + 1, i => do
      readFunctionCode env i
      readFunctionCodes env n (i + 1)

def readCodeSection (env : LoadEnv) : LoadM Unit := do
  let n ← decoding readU32
  let s ← get
  if n.toNat ≠ s.module.functions.length then throw .invalidCodeSectionFunctionCount
  else readFunctionCodes env n.toNat 0

/-- The result of a memory operation, its error converted. -/
def memoryResult {α : Type} : Except MemoryError α → LoadM α
  | .ok a => pure a
  | .error e => throw (.memoryError e)

/-- `memory.store(addr, data)` on the memory behind a handle. -/
def storeBytes (mem : MemRef) (addr : ℕ) (data : List U8) : LoadM Unit := do
  let s ← get
  let m ← unwrap s.store.memories[mem]?
  let m' ← memoryResult (m.store addr data)
  set { s with store := s.store.setMemory mem m' }

/-- The bytes of a data segment, from the `i`-th on. -/
def readDataBytes (mem : MemRef) (offset : U32) : ℕ → ℕ → LoadM Unit
  | 0, _ => pure ()
  | n + 1, i => do
      let addr ← memoryResult (Memory.effectiveAddress offset (BitVec.ofNat 32 i))
      let b ← decoding readU8
      storeBytes mem addr [b]
      readDataBytes mem offset n (i + 1)

/-- `Data::read`. -/
def readData (env : LoadEnv) (memory : MemRef) : LoadM Unit := do
  let mem ← decoding Idx.read
  if mem ≠ 0 then throw .invalidMemIndex
  else do
    let s ← get
    if s.module.memory = none then throw .memoryNotDefined
    else do
      let value ← readConstant env
      let offset ← segmentOffset .invalidMemOffsetType value
      let len ← decoding readU32
      readDataBytes memory offset len.toNat 0
      if len.toNat = 0 then storeBytes memory offset.toNat [] else pure ()

def readDataSection (env : LoadEnv) : LoadM Unit := do
  let len ← decoding readU32
  if len.toNat = 0 then pure ()
  else do
    let s ← get
    match s.module.memory with
    | none => throw .memoryNotDefined
    | some kind => do
        let memory ← match kind with
          | .owned mem => pure mem
          | .import_ i => unwrap (s.store.ownedMemory? i)
          | .importHost i => unwrap (s.store.hostMemory? i)
        iterate len.toNat (readData env memory)

/-- `read_section`. -/
def readSection (env : LoadEnv) (size : ℕ) : SectionKind → LoadM Unit
  | .custom => readCustomSection size
  | .type => readTypeSection
  | .import_ => readImportSection
  | .function => readFunctionSection
  | .table => readTableSection
  | .memory => readMemorySection env
  | .global => readGlobalSection env
  | .export_ => readExportSection
  | .start => readStartSection
  | .element => readElementSection env
  | .code => readCodeSection env
  | .data => readDataSection env

/-! ### The module -/

/-- A load with errors that name their section. -/
abbrev DecodeModuleM (α : Type) := Fallible SectionDecodeError LoadState α

/-- The conversion `?` applies outside a section. -/
def plain {α : Type} (x : LoadM α) : DecodeModuleM α :=
  mapError ValidationError.toSectionDecodeError x

/-- The check of the order of the sections. -/
def checkOrder (last new : SectionKind) : Except ValidationError SectionKind :=
  if new = .custom then .ok last
  else if new.toNat < last.toNat ∧ last ≠ .custom then .error (.invalidSectionOrdering last new)
  else if last = new then .error (.duplicateSection new)
  else .ok new

/-- The body of a section, of exactly its declared size. -/
def readSectionBody (env : LoadEnv) (kind : SectionKind) : DecodeModuleM Unit := do
  let size ← plain (decoding readU32)
  let start ← plain offset
  withLimit LoadState.wasm (fun s wasm => { s with wasm := wasm })
    ValidationError.toSectionDecodeError size.toNat
    (mapError (fun e => e.withSection kind) (readSection env size.toNat kind))
  let stop ← plain offset
  if stop - start ≠ size.toNat then throw (ValidationError.malformedSectionSize.withSection kind)
  else pure ()

/-- The loop over the sections. Each round reads a byte, which bounds them. -/
def readSections (env : LoadEnv) : ℕ → SectionKind → Bool → DecodeModuleM Bool
  | 0, _, _ => diverge
  | fuel + 1, last, seenCode => fun s =>
      match decoding SectionKind.read s with
      | .error .eof s => .ok seenCode s
      | .error e s => .error e.toSectionDecodeError s
      | .panic => .panic
      | .diverge => .diverge
      | .ok kind s => (do
          let last ← plain (ofExcept (checkOrder last kind))
          readSectionBody env kind
          readSections env fuel last (seenCode || decide (kind = SectionKind.code))) s

/-- A module with a name is the only one in the store. -/
def checkName (name : Name) (store : Store) : Except ValidationError Unit :=
  if name ≠ [] ∧
      (store.modules.any (fun m => m.name = name) ∨
        store.hostModules.any (fun m => m.name = name)) then
    .error .duplicateModuleName
  else .ok ()

/-- `Module::read`. -/
def Module.read (env : LoadEnv) (name : Name) : DecodeModuleM Module := do
  let magic ← plain (decoding (stripBytes 4))
  if magic ≠ [0x00, 0x61, 0x73, 0x6D] then
    throw ValidationError.malformedMagic.toSectionDecodeError
  else do
    let version ← plain (decoding (stripBytes 4))
    if version ≠ [0x01, 0x00, 0x00, 0x00] then
      throw ValidationError.malformedVersion.toSectionDecodeError
    else do
      let s ← get
      plain (ofExcept (checkName name s.store))
      plain (newVec name.length)
      let s ← get
      let seenCode ← readSections env (s.wasm.input.length + 1) .custom false
      let s ← get
      if seenCode = false ∧ s.module.functions ≠ [] then
        throw ValidationError.invalidCodeSectionFunctionCount.toSectionDecodeError
      else pure s.module

/-- A module before its sections are read. -/
def Module.empty (name : Name) : Module := ⟨name, [], [], none, none, [], [], [], none⟩

/-- The store and the code buffer, which loads share. -/
structure LoadTarget where
  store : Store
  code : CodeBuilder

/-- `Module::new`. -/
def Module.new (env : LoadEnv) (name : Name) (wasm : Reader) :
    Fallible ParseError LoadTarget Module := fun t =>
  match Module.read env name ⟨wasm, t.store, t.code, Module.empty name⟩ with
  | .ok m s => .ok m ⟨s.store, s.code⟩
  | .error e s => .error ⟨BitVec.ofNat 32 s.wasm.offset, e⟩ ⟨s.store, s.code⟩
  | .panic => .panic
  | .diverge => .diverge

/-- How a load step fails. -/
inductive LoadError where
  | parse (e : ParseError)
  | capacity (e : AllocError)
  deriving DecidableEq

/-- `spacewasm_load_module`: decode a module and push it onto the store. -/
def loadModule (env : LoadEnv) (name : Name) (wasm : Reader) :
    Fallible LoadError LoadTarget ModuleRef := do
  let m ← mapError LoadError.parse (Module.new env name wasm)
  let t ← get
  match t.store.pushModule m with
  | .ok (r, store) => do
      set { t with store := store }
      pure r
  | .error e => throw (.capacity e)

end SpaceWasm
