import SpaceWasm.LoadOutcome

/-!
# The C interface

The functions through which an embedder in C drives an engine. Each of them checks its
arguments and the state of the engine before it touches anything, and answers with a
status code. An engine is a session: it owns the code of the modules in its store.
Checks of pointers for null are left out, and strings are given as the bytes they hold.
-/

namespace SpaceWasm

namespace Capi

variable {η : Type}

/-! ### Status codes -/

/-- `spacewasm_status_t`. -/
inductive Status where
  | ok | badArg | badSignature | capacity | notFound | wrongState
  -- Allocation and memory access errors
  | guestMemoryAllocFailed | allocFailed | outOfMemory | pageTooSmall | heapPoisoned
  | memOutOfBounds
  -- Invoke errors
  | paramLenMismatch | paramTypeMismatch | stackOverflow
  -- Parse and validation errors
  | eof | malformedInteger | malformedMagic | malformedVersion | malformedUtf8
  | duplicateModuleName | duplicateExportName | malformedSectionId | malformedValueType
  | malformedFunction | malformedLimit | malformedElemType | malformedSectionSize
  | expectedConstOrVar | malformedImportExportDesc | malformedMemType | invalidPageSize
  | invalidSectionOrdering | duplicateSection | invalidMaxLimit | expectedTerminal
  | invalidOpcode | malformedCodeSize | invalidCodeSectionFunctionCount | vecTooLong
  | idxTooLarge | memoryTooLarge | memoryImportTooLarge | memAlignTooLarge | tableTooLarge
  | stackUnderflow | stackTooLarge | labelStackJumpTooDeep | labelJumpTooLarge | typeMismatch
  | blockResultTypeMismatch | brTableResultTypeMismatch | illegalMemoryGrow
  | invalidElementOffset | invalidElementOutOfBounds | invalidTableIndex | tableNotDefined
  | invalidMemIndex | memoryNotDefined | invalidMemOffsetType | multipleMemories
  | multipleTables | invalidLabelIndex | invalidElseBlock | invalidEndBlock
  | localIdxOutOfRange | functionIdxOutOfRange | typeIdxOutOfRange | globalIdxOutOfRange
  | functionImportNotFound | globalImportNotFound | memoryImportNotFound | tableImportNotFound
  | functionImportTypeMismatch | globalNotMutable | globalImportTypeMismatch
  | memoryImportTypeMismatch | tableImportTypeMismatch | tableImportIncompatibleSize
  | tableRefNotUnique | functionParametersTooLarge | functionReturnsTooLarge | tooManyLocals
  | invalidConstInstruction | globalTypeMismatch | alignmentLargerThanType
  | invalidStartFunctionSignature | invalidHostStartFunction | constAlreadyHasValue
  | constNoValue | constInvalidGlobal | possibleBackpatchCycle | pageFault | readerError
  deriving DecidableEq, Repr

/-- `spacewasm_run_status_t`. -/
inductive RunStatus where
  | finished | outOfFuel | pause | trap
  deriving DecidableEq, Repr

def allocStatus : AllocError → Status
  | .allocationFailed => .allocFailed
  | .outOfMemory => .outOfMemory
  | .pageTooSmall => .pageTooSmall
  | .heapPoisoned => .heapPoisoned

def memoryStatus : MemoryError → Status
  | .outOfBounds => .memOutOfBounds
  | .outOfMemory => .outOfMemory
  | .allocationFailed => .allocFailed
  | .pageTooSmall => .pageTooSmall
  | .heapPoisoned => .heapPoisoned

def invokeStatus : InvokeError → Status
  | .paramLenMismatch => .paramLenMismatch
  | .paramTypeMismatch => .paramTypeMismatch
  | .stackOverflow => .stackOverflow
  | .busy => .wrongState

def resumeStatus : ResumeError → Status
  | .notPaused => .wrongState
  | .resultTypeMismatch => .paramTypeMismatch

def constantExprStatus : ConstantExprError → Status
  | .invalidConstantInstruction => .invalidConstInstruction
  | .alreadyHasValue => .constAlreadyHasValue
  | .noValue => .constNoValue
  | .invalidGlobal => .constInvalidGlobal

def validationStatus : ValidationError → Status
  | .eof => .eof
  | .malformedInteger => .malformedInteger
  | .malformedMagic => .malformedMagic
  | .malformedVersion => .malformedVersion
  | .malformedUtf8 => .malformedUtf8
  | .duplicateModuleName => .duplicateModuleName
  | .duplicateExportName => .duplicateExportName
  | .malformedSectionId _ => .malformedSectionId
  | .malformedValueType _ => .malformedValueType
  | .malformedFunction _ => .malformedFunction
  | .malformedLimit _ => .malformedLimit
  | .malformedElemType _ => .malformedElemType
  | .malformedSectionSize => .malformedSectionSize
  | .expectedConstOrVar _ => .expectedConstOrVar
  | .malformedImportExportDesc _ => .malformedImportExportDesc
  | .malformedMemType _ => .malformedMemType
  | .invalidPageSize _ => .invalidPageSize
  | .invalidSectionOrdering _ _ => .invalidSectionOrdering
  | .duplicateSection _ => .duplicateSection
  | .invalidMaxLimit => .invalidMaxLimit
  | .expectedTerminal _ => .expectedTerminal
  | .invalidOpcode _ | .invalidFcOpcode _ => .invalidOpcode
  | .malformedCodeSize => .malformedCodeSize
  | .invalidCodeSectionFunctionCount => .invalidCodeSectionFunctionCount
  | .vecTooLong => .vecTooLong
  | .idxTooLarge => .idxTooLarge
  | .memoryTooLarge => .memoryTooLarge
  | .tableTooLarge => .tableTooLarge
  | .memoryImportTooLarge => .memoryImportTooLarge
  | .memAlignTooLarge => .memAlignTooLarge
  | .stackUnderflow => .stackUnderflow
  | .stackTooLarge => .stackTooLarge
  | .labelStackJumpTooDeep => .labelStackJumpTooDeep
  | .labelJumpTooLarge => .labelJumpTooLarge
  | .typeMismatch => .typeMismatch
  | .blockResultTypeMismatch => .blockResultTypeMismatch
  | .brTableResultTypeMismatch => .brTableResultTypeMismatch
  | .illegalMemoryGrow => .illegalMemoryGrow
  | .invalidElementOffset => .invalidElementOffset
  | .invalidElementOutOfBounds => .invalidElementOutOfBounds
  | .invalidTableIndex => .invalidTableIndex
  | .tableNotDefined => .tableNotDefined
  | .invalidMemIndex => .invalidMemIndex
  | .memoryNotDefined => .memoryNotDefined
  | .invalidMemOffsetType => .invalidMemOffsetType
  | .invalidLabelIndex => .invalidLabelIndex
  | .invalidElseBlock => .invalidElseBlock
  | .invalidEndBlock => .invalidEndBlock
  | .multipleMemories => .multipleMemories
  | .multipleTables => .multipleTables
  | .possibleBackpatchCycle => .possibleBackpatchCycle
  | .pageFault => .pageFault
  | .localIdxOutOfRange => .localIdxOutOfRange
  | .functionIdxOutOfRange => .functionIdxOutOfRange
  | .typeIdxOutOfRange => .typeIdxOutOfRange
  | .globalIdxOutOfRange => .globalIdxOutOfRange
  | .functionImportNotFound => .functionImportNotFound
  | .globalImportNotFound => .globalImportNotFound
  | .memoryImportNotFound => .memoryImportNotFound
  | .tableImportNotFound => .tableImportNotFound
  | .functionImportTypeMismatch => .functionImportTypeMismatch
  | .globalNotMutable => .globalNotMutable
  | .globalImportTypeMismatch => .globalImportTypeMismatch
  | .memoryImportTypeMismatch => .memoryImportTypeMismatch
  | .tableImportTypeMismatch => .tableImportTypeMismatch
  | .tableImportIncompatibleSize => .tableImportIncompatibleSize
  | .tableRefNotUnique => .tableRefNotUnique
  | .functionParametersTooLarge => .functionParametersTooLarge
  | .functionReturnsTooLarge => .functionReturnsTooLarge
  | .tooManyLocals => .tooManyLocals
  | .globalTypeMismatch => .globalTypeMismatch
  | .alignmentLargerThanType => .alignmentLargerThanType
  | .invalidStartFunctionSignature => .invalidStartFunctionSignature
  | .invalidHostStartFunction => .invalidHostStartFunction
  | .invalidConstantExpr e => constantExprStatus e
  | .guestMemoryAllocationFailure => .guestMemoryAllocFailed
  | .allocError e => allocStatus e
  | .memoryError e => memoryStatus e
  | .readerError _ => .readerError

def parseStatus (e : ParseError) : Status := validationStatus e.err.err

/-- The status of a load that has failed. A store that is full is at its capacity. -/
def loadStatus : LoadError → Status
  | .parse e => parseStatus e
  | .capacity _ => .capacity

/-- A load that has begun does not answer that the engine is busy. -/
theorem loadStatus_ne_wrongState (e : LoadError) : loadStatus e ≠ .wrongState := by
  cases e with
  | capacity => simp [loadStatus]
  | parse e =>
      rw [loadStatus, parseStatus]
      cases e.err.err with
      | invalidConstantExpr e => cases e <;> simp [validationStatus, constantExprStatus]
      | allocError e => cases e <;> simp [validationStatus, allocStatus]
      | memoryError e => cases e <;> simp [validationStatus, memoryStatus]
      | _ => simp [validationStatus]

def runStatus : InterpreterResult → RunStatus × Option TrapReason
  | .finished => (.finished, none)
  | .outOfFuel => (.outOfFuel, none)
  | .pause => (.pause, none)
  | .trap reason => (.trap, some reason)

/-! ### Values -/

/-- `spacewasm_value_t`: the tag, and the bytes of the union. -/
structure CValue where
  tag : U8
  u : U64

/-- `ValType::try_from` on a tag. -/
def tryFromTag (tag : U8) : Option ValType :=
  if tag = 0 then some .i32
  else if tag = 1 then some .i64
  else if tag = 2 then some .f32
  else if tag = 3 then some .f64
  else none

def tagOf : ValType → U8
  | .i32 => 0
  | .i64 => 1
  | .f32 => 2
  | .f64 => 3

namespace CValue

def tryToValue (v : CValue) : Option Value := do
  let ty ← tryFromTag v.tag
  match ty with
  | .i32 => pure (.i32 (v.u.setWidth 32))
  | .i64 => pure (.i64 v.u)
  | .f32 => pure (.f32 (v.u.setWidth 32))
  | .f64 => pure (.f64 v.u)

def fromValue (v : Value) : CValue :=
  match v with
  | .i32 w | .f32 w => ⟨tagOf v.type, w.setWidth 64⟩
  | .i64 w | .f64 w => ⟨tagOf v.type, w⟩

def fromRaw (raw : RawValue) (ty : ValType) : CValue := fromValue (raw.toValue ty)

/-- A value survives the way to C and back. -/
theorem tryToValue_fromValue (v : Value) : (fromValue v).tryToValue = some v := by
  have hnarrow : ∀ w : U32, (w.setWidth 64).setWidth 32 = w := fun w => by
    rw [BitVec.setWidth_setWidth_of_le w (by decide), BitVec.setWidth_eq]
  cases v with
  | i32 w | f32 w => exact congrArg some (congrArg _ (hnarrow w))
  | i64 w | f64 w => rfl

end CValue

/-! ### Questions -/

def findModule (name : Name) (s : Session η) : Except Status U32 :=
  match s.engine.store.modules.findIdx? fun m => m.name = name with
  | some i => .ok (BitVec.ofNat 32 i)
  | none => .error .notFound

/-- The first export under a name that `select` takes decides. -/
def findExport (select : ExportDesc → Option Idx) (name : Name) (exports : List Export) :
    Option Idx :=
  exports.findSome? fun e => if e.name = name then select e.desc else none

/-- The index of a function that a module exports and defines itself. -/
def findExportFunc (module : U32) (name : Name) (s : Session η) : Except Status U32 :=
  match s.engine.store.modules[module.toNat]? with
  | none => .error .notFound
  | some m =>
      let func : ExportDesc → Option Idx := fun
        | .func i => some i
        | _ => none
      match (findExport func name m.exports).bind m.getFuncRef with
      | some (.module index) => .ok (index.setWidth 32)
      | _ => .error .notFound

/-- The index of a global that a module exports and defines itself. -/
def findGlobal (module : U32) (name : Name) (s : Session η) : Except Status U32 :=
  match s.engine.store.modules[module.toNat]? with
  | none => .error .notFound
  | some m =>
      let global : ExportDesc → Option Idx := fun
        | .global i => some i
        | _ => none
      match (findExport global name m.exports).bind m.getGlobalRef with
      | some (.module index) => .ok (index.setWidth 32)
      | _ => .error .notFound

def getGlobal (module index : U32) (s : Session η) : Except Status CValue :=
  match s.engine.store.modules[module.toNat]? with
  | none => .error .notFound
  | some m =>
      match m.globals[index.toNat]? with
      | none => .error .notFound
      | some g => .ok (CValue.fromValue (g.value.toValue g.type.ty))

def getResult (expected : U8) (s : Session η) : Except Status CValue :=
  match tryFromTag expected with
  | none => .error .badArg
  | some ty =>
      match s.engine.result with
      | some raw => .ok (CValue.fromRaw raw ty)
      | none => .error .notFound

/-- A start function as a function of a module; `none` is a host function, which no
module that has been loaded starts with. -/
def startRef (module : ModuleRef) : Ref → Option WasmRef
  | .module index => some ⟨module, index⟩
  | .extern_ m index => some ⟨m, index⟩
  | .host _ _ => none

/-- `spacewasm_module_start`; `none` is the arm that `Engine::module_start` has for a host
function. -/
def moduleStart (module : U32) (s : Session η) : Option (Except Status (U32 × U32)) :=
  match s.engine.store.modules[module.toNat]? with
  | none => some (.error .notFound)
  | some m =>
      match m.start with
      | none => some (.error .notFound)
      | some r => (startRef (BitVec.ofNat 8 module.toNat) r).map fun f =>
          .ok (f.module.setWidth 32, f.index.setWidth 32)

/-! ### Signatures -/

inductive HostFunctionError where
  | valListInvalidItem | parameterListTooLong
  deriving DecidableEq, Repr

def hostValListStatus : HostFunctionError → Status
  | .valListInvalidItem => .badSignature
  | .parameterListTooLong => .functionParametersTooLarge

/-- `HostValList::map_char`. -/
def mapChar (c : Char) : Except HostFunctionError ValType :=
  if c = 'i' then .ok .i32
  else if c = 'I' then .ok .i64
  else if c = 'f' then .ok .f32
  else if c = 'd' then .ok .f64
  else .error .valListInvalidItem

/-- `HostValList::try_new`, after the entries in `data`. -/
def tryNewFrom (data : List ValType) : List Char → Except HostFunctionError (List ValType)
  | [] => .ok data
  | c :: cs =>
      if maxHostFunctionParams ≤ data.length then .error .parameterListTooLong
      else
        match mapChar c with
        | .ok ty => tryNewFrom (data ++ [ty]) cs
        | .error e => .error e

def tryNew (sig : List Char) : Except HostFunctionError (List ValType) := tryNewFrom [] sig

def checkFuncSignature (module func : U32) (paramsSig returnsSig : List Char) (s : Session η) :
    Status :=
  match tryNew paramsSig with
  | .error e => hostValListStatus e
  | .ok params =>
      match tryNew returnsSig with
      | .error e => hostValListStatus e
      | .ok returns =>
          match s.engine.store.modules[module.toNat]? with
          | none => .notFound
          | some m =>
              match m.functions[func.toNat]? with
              | none => .notFound
              | some f =>
                  match m.types[f.ty]? with
                  | none => .notFound
                  | some ty =>
                      if params.length ≠ ty.params.length ∨ returns.length ≠ ty.returns.length then
                        .paramLenMismatch
                      else if params ≠ ty.params ∨ returns ≠ ty.returns then .paramTypeMismatch
                      else .ok

/-! ### Calls -/

/-- `spacewasm_load_module`. The engine holds a handle to the table that it caches. -/
def loadModule (env : LoadEnv) (name : Name) (wasm : Reader) (s : Session η) :
    Option (Except Status U32 × Session η) :=
  if ¬s.engine.isIdle then some (.error .wrongState, s)
  else
    match SpaceWasm.loadModule (s.engine.loadEnv env) name wasm s.target with
    | .ok r t => some (.ok (r.setWidth 32), s.withTarget t)
    | .error e t => some (.error (loadStatus e), s.withTarget t)
    | _ => none

/-- The checks of `spacewasm_set_global`: the value to write. -/
def checkGlobal (module index : U32) (value : CValue) (store : Store) : Except Status Value :=
  match store.modules[module.toNat]? with
  | none => .error .notFound
  | some m =>
      match m.globals[index.toNat]? with
      | none => .error .notFound
      | some g =>
          match value.tryToValue with
          | none => .error .badArg
          | some v =>
              if v.type ≠ g.type.ty then .error .globalTypeMismatch
              else if ¬g.type.mutable then .error .globalNotMutable
              else .ok v

/-- `spacewasm_set_global`. -/
def setGlobal (module index : U32) (value : CValue) (s : Session η) : Status × Session η :=
  match checkGlobal module index value s.engine.store with
  | .error st => (st, s)
  | .ok v =>
      (.ok, s.withEngine { s.engine with
        store := s.engine.store.setGlobal (BitVec.ofNat 8 module.toNat)
          (BitVec.ofNat 16 index.toNat) (RawValue.ofValue v) })

/-- The buffer that `spacewasm_invoke` reads its arguments into. -/
def maxInvokeParams : ℕ := 64

/-- The checks of `spacewasm_invoke`: the function to call, and its arguments. -/
def checkInvoke (module func : U32) (params : List CValue) (idle : Bool) (store : Store) :
    Except Status (WasmRef × List Value) :=
  if 0xFFFF < func.toNat then .error .badArg
  else if ¬idle then .error .wrongState
  else
    match store.modules[module.toNat]? with
    | none => .error .notFound
    | some m =>
        if m.functions.length ≤ func.toNat then .error .notFound
        else if maxInvokeParams < params.length then .error .capacity
        else
          match params.mapM CValue.tryToValue with
          | none => .error .badArg
          | some vs => .ok (⟨BitVec.ofNat 8 module.toNat, BitVec.ofNat 16 func.toNat⟩, vs)

/-- Only a function that exists is called, and only by an idle engine. -/
theorem checkInvoke_eq_ok {module func : U32} {params : List CValue} {idle : Bool} {store : Store}
    {f : WasmRef} {vs : List Value} (h : checkInvoke module func params idle store = .ok (f, vs)) :
    idle = true ∧ func.toNat ≤ 0xFFFF ∧ params.mapM CValue.tryToValue = some vs ∧
      f = ⟨BitVec.ofNat 8 module.toNat, BitVec.ofNat 16 func.toNat⟩ ∧
      ∃ m, store.modules[module.toNat]? = some m ∧ func.toNat < m.functions.length := by
  unfold checkInvoke at h
  split at h
  · cases h
  · next hindex =>
    split at h
    · cases h
    · next hidle =>
      split at h
      · cases h
      · next m hm =>
        split at h
        · cases h
        · next hfunc =>
          split at h
          · cases h
          · split at h
            · cases h
            · next hparams =>
              cases h
              exact ⟨Decidable.not_not.1 hidle, Nat.le_of_not_lt hindex, hparams, rfl, m, hm,
                Nat.lt_of_not_le hfunc⟩

theorem checkInvoke_ne_ok (module func : U32) (params : List CValue) (idle : Bool)
    (store : Store) : checkInvoke module func params idle store ≠ .error .ok := by
  unfold checkInvoke
  repeat' split
  all_goals simp

/-- `spacewasm_invoke`. -/
def invoke (module func : U32) (params : List CValue) (s : Session η) :
    Option (Status × Session η) :=
  match checkInvoke module func params s.engine.isIdle s.engine.store with
  | .error st => some (st, s)
  | .ok (f, vs) =>
      match SpaceWasm.invoke f vs s.engine with
      | .ok () e => some (.ok, s.withEngine e)
      | .error err e => some (invokeStatus err, s.withEngine e)
      | _ => none

/-- `spacewasm_run`. An idle engine is not run. -/
def run (floats : FloatOps) (host : HostEnv η) (fuel : ℕ) (s : Session η) :
    Option ((RunStatus × Option TrapReason) × Session η) :=
  if s.engine.isIdle then some ((.trap, none), s)
  else (SpaceWasm.run (s.env floats host) fuel s.engine).map fun p =>
    (runStatus p.1, s.withEngine p.2)

/-- What `spacewasm_resume` and `spacewasm_resume_value` share. -/
def resumeWith (v : Option Value) (s : Session η) : Option (Status × Session η) :=
  match SpaceWasm.resume v s.engine with
  | .ok () e => some (.ok, s.withEngine e)
  | .error err e => some (resumeStatus err, s.withEngine e)
  | _ => none

/-- `spacewasm_resume`. -/
def resume (s : Session η) : Option (Status × Session η) := resumeWith none s

/-- `spacewasm_resume_value`. -/
def resumeValue (v : CValue) (s : Session η) : Option (Status × Session η) :=
  match v.tryToValue with
  | none => some (.badArg, s)
  | some v => resumeWith (some v) s

/-- `spacewasm_reset`. -/
def reset (s : Session η) : Status × Session η := (.ok, s.withEngine s.engine.reset)

/-- What an embedder asks without changing anything. -/
inductive Question where
  | findModule (name : Name)
  | findExportFunc (module : U32) (name : Name)
  | moduleStart (module : U32)
  | findGlobal (module : U32) (name : Name)
  | getGlobal (module index : U32)
  | checkFuncSignature (module func : U32) (paramsSig returnsSig : List Char)
  | getResult (expected : U8)

/-- A call of the embedder into the engine. -/
inductive Call (η : Type) where
  | loadModule (env : LoadEnv) (name : Name) (wasm : Reader)
  | setGlobal (module index : U32) (value : CValue)
  | invoke (module func : U32) (params : List CValue)
  | run (fuel : ℕ)
  | resume
  | resumeValue (v : CValue)
  | reset
  | ask (q : Question)
  /-- Between two calls the embedder may change its own world. -/
  | outside (world : η)

inductive Answer where
  | status (s : Status)
  | loaded (r : Except Status U32)
  | ran (r : RunStatus × Option TrapReason)
  | found (r : Except Status U32)
  | start (r : Except Status (U32 × U32))
  | value (r : Except Status CValue)
  | none

/-- The answer to a question; `none` is a panic. -/
def Question.answer (s : Session η) : Question → Option Answer
  | .findModule name => some (.found (Capi.findModule name s))
  | .findExportFunc module name => some (.found (Capi.findExportFunc module name s))
  | .moduleStart module => (Capi.moduleStart module s).map .start
  | .findGlobal module name => some (.found (Capi.findGlobal module name s))
  | .getGlobal module index => some (.value (Capi.getGlobal module index s))
  | .checkFuncSignature module func paramsSig returnsSig =>
      some (.status (Capi.checkFuncSignature module func paramsSig returnsSig s))
  | .getResult expected => some (.value (Capi.getResult expected s))

/-- The question is for the result of the last call. -/
def Question.AsksResult : Question → Bool
  | .getResult _ => true
  | _ => false

/-- The other questions are answered from the store. -/
theorem Question.answer_congr {s t : Session η} (q : Question)
    (hstore : t.engine.store = s.engine.store)
    (hresult : q.AsksResult → t.engine.result = s.engine.result) : q.answer t = q.answer s := by
  cases q with
  | getResult expected => simp only [answer, Capi.getResult, hresult rfl]
  | findModule name => simp only [answer, Capi.findModule, hstore]
  | findExportFunc module name => simp only [answer, Capi.findExportFunc, hstore]
  | moduleStart module => simp only [answer, Capi.moduleStart, hstore]
  | findGlobal module name => simp only [answer, Capi.findGlobal, hstore]
  | getGlobal module index => simp only [answer, Capi.getGlobal, hstore]
  | checkFuncSignature module func paramsSig returnsSig =>
      simp only [answer, Capi.checkFuncSignature, hstore]

/-- What a call answers and leaves; `none` is a panic. -/
def Call.perform (floats : FloatOps) (host : HostEnv η) (s : Session η) :
    Call η → Option (Answer × Session η)
  | .loadModule env name wasm => (Capi.loadModule env name wasm s).map (Prod.map .loaded id)
  | .setGlobal module index value =>
    some (Prod.map .status id (Capi.setGlobal module index value s))
  | .invoke module func params => (Capi.invoke module func params s).map (Prod.map .status id)
  | .run fuel => (Capi.run floats host fuel s).map (Prod.map .ran id)
  | .resume => (Capi.resume s).map (Prod.map .status id)
  | .resumeValue v => (Capi.resumeValue v s).map (Prod.map .status id)
  | .reset => some (Prod.map .status id (Capi.reset s))
  | .ask q => (q.answer s).map fun a => (a, s)
  | .outside world => some (.none, s.withEngine { s.engine with world := world })

/-- The call gives the engine a result. -/
inductive Call.Gives : Call η → Option Value → Prop where
  | resume : Gives .resume none
  | resumeValue {v : CValue} {w : Value} : v.tryToValue = some w → Gives (.resumeValue v) (some w)

/-- What a call may do. -/
inductive Call.Performs (floats : FloatOps) (host : HostEnv η) (s : Session η) :
    Call η → Answer → Session η → Prop where
  | loadRefused {env : LoadEnv} {name : Name} {wasm : Reader} : ¬s.engine.isIdle →
      Performs floats host s (.loadModule env name wasm) (.loaded (.error .wrongState)) s
  | loaded {env : LoadEnv} {name : Name} {wasm : Reader} {r : ModuleRef} {t : LoadTarget} :
      s.engine.isIdle → SpaceWasm.loadModule (s.engine.loadEnv env) name wasm s.target = .ok r t →
      Performs floats host s (.loadModule env name wasm) (.loaded (.ok (r.setWidth 32)))
        (s.withTarget t)
  | loadFailed {env : LoadEnv} {name : Name} {wasm : Reader} {e : LoadError} {t : LoadTarget} :
      s.engine.isIdle → SpaceWasm.loadModule (s.engine.loadEnv env) name wasm s.target =
        .error e t →
      Performs floats host s (.loadModule env name wasm) (.loaded (.error (loadStatus e)))
        (s.withTarget t)
  | setGlobalRefused {module index : U32} {value : CValue} {st : Status} : st ≠ .ok →
      checkGlobal module index value s.engine.store = .error st →
      Performs floats host s (.setGlobal module index value) (.status st) s
  | setGlobal {module index : U32} {value : CValue} {v : Value} :
      checkGlobal module index value s.engine.store = .ok v →
      Performs floats host s (.setGlobal module index value) (.status .ok)
        (s.withEngine { s.engine with
          store := s.engine.store.setGlobal (BitVec.ofNat 8 module.toNat)
            (BitVec.ofNat 16 index.toNat) (RawValue.ofValue v) })
  | invokeRefused {module func : U32} {params : List CValue} {st : Status} : st ≠ .ok →
      checkInvoke module func params s.engine.isIdle s.engine.store = .error st →
      Performs floats host s (.invoke module func params) (.status st) s
  | invoked {module func : U32} {params : List CValue} {f : WasmRef} {vs : List Value}
      {e : Engine η} : checkInvoke module func params s.engine.isIdle s.engine.store = .ok (f, vs) →
      SpaceWasm.invoke f vs s.engine = .ok () e →
      Performs floats host s (.invoke module func params) (.status .ok) (s.withEngine e)
  | invokeRejected {module func : U32} {params : List CValue} {f : WasmRef} {vs : List Value}
      {err : InvokeError} {e : Engine η} :
      checkInvoke module func params s.engine.isIdle s.engine.store = .ok (f, vs) →
      SpaceWasm.invoke f vs s.engine = .error err e →
      Performs floats host s (.invoke module func params) (.status (invokeStatus err))
        (s.withEngine e)
  | runIdle {fuel : ℕ} : s.engine.isIdle →
      Performs floats host s (.run fuel) (.ran (.trap, none)) s
  | ran {fuel : ℕ} {r : InterpreterResult} {e : Engine η} : ¬s.engine.isIdle →
      SpaceWasm.run (s.env floats host) fuel s.engine = some (r, e) →
      Performs floats host s (.run fuel) (.ran (runStatus r)) (s.withEngine e)
  | badValue {v : CValue} : v.tryToValue = none →
      Performs floats host s (.resumeValue v) (.status .badArg) s
  | resumed {c : Call η} {v : Option Value} {e : Engine η} : c.Gives v →
      SpaceWasm.resume v s.engine = .ok () e →
      Performs floats host s c (.status .ok) (s.withEngine e)
  | resumeRejected {c : Call η} {v : Option Value} {err : ResumeError} {e : Engine η} : c.Gives v →
      SpaceWasm.resume v s.engine = .error err e →
      Performs floats host s c (.status (resumeStatus err)) (s.withEngine e)
  | reset : Performs floats host s .reset (.status .ok) (s.withEngine s.engine.reset)
  | asked {q : Question} {a : Answer} : q.answer s = some a → Performs floats host s (.ask q) a s
  | outside {world : η} :
      Performs floats host s (.outside world) .none (s.withEngine { s.engine with world := world })

section Performs

variable {floats : FloatOps} {host : HostEnv η} {s t : Session η}

theorem checkGlobal_ne_ok (module index : U32) (value : CValue) (store : Store) :
    checkGlobal module index value store ≠ .error .ok := by
  unfold checkGlobal
  repeat' split
  all_goals simp

theorem resumeWith_performs {c : Call η} {v : Option Value} {a : Status} (hc : c.Gives v)
    (h : resumeWith v s = some (a, t)) : c.Performs floats host s (.status a) t := by
  unfold resumeWith at h
  split at h
  · next hresume =>
    cases h
    exact .resumed hc hresume
  · next hresume =>
    cases h
    exact .resumeRejected hc hresume
  · cases h

theorem Call.performs {c : Call η} {a : Answer} (h : c.perform floats host s = some (a, t)) :
    c.Performs floats host s a t := by
  cases c with
  | loadModule env name wasm =>
      obtain ⟨⟨b, u⟩, hb, heq⟩ := Option.map_eq_some_iff.1 h
      cases heq
      unfold Capi.loadModule at hb
      split at hb
      · next hidle =>
        cases hb
        exact .loadRefused hidle
      · next hidle =>
        split at hb
        · next hload =>
          cases hb
          exact .loaded (Decidable.not_not.1 hidle) hload
        · next hload =>
          cases hb
          exact .loadFailed (Decidable.not_not.1 hidle) hload
        · cases hb
  | setGlobal module index value =>
      have hset := Option.some.inj h
      unfold Capi.setGlobal at hset
      split at hset <;> cases hset
      · next st hcheck =>
        exact .setGlobalRefused (fun hok => checkGlobal_ne_ok _ _ _ _ (hok ▸ hcheck)) hcheck
      · next hcheck => exact .setGlobal hcheck
  | invoke module func params =>
      obtain ⟨⟨b, u⟩, hb, heq⟩ := Option.map_eq_some_iff.1 h
      cases heq
      unfold Capi.invoke at hb
      split at hb
      · next st hcheck =>
        cases hb
        exact .invokeRefused (fun hok => checkInvoke_ne_ok _ _ _ _ _ (hok ▸ hcheck)) hcheck
      · next hcheck =>
        split at hb
        · next hinvoke =>
          cases hb
          exact .invoked hcheck hinvoke
        · next hinvoke =>
          cases hb
          exact .invokeRejected hcheck hinvoke
        · cases hb
  | run fuel =>
      obtain ⟨⟨b, u⟩, hb, heq⟩ := Option.map_eq_some_iff.1 h
      cases heq
      unfold Capi.run at hb
      split at hb
      · next hidle =>
        cases hb
        exact .runIdle hidle
      · next hidle =>
        obtain ⟨⟨r, e⟩, hrun, heq⟩ := Option.map_eq_some_iff.1 hb
        cases heq
        exact .ran hidle hrun
  | resume =>
      obtain ⟨⟨b, u⟩, hb, heq⟩ := Option.map_eq_some_iff.1 h
      cases heq
      exact resumeWith_performs .resume hb
  | resumeValue v =>
      obtain ⟨⟨b, u⟩, hb, heq⟩ := Option.map_eq_some_iff.1 h
      cases heq
      unfold Capi.resumeValue at hb
      split at hb
      · next hv =>
        cases hb
        exact .badValue hv
      · next w hv => exact resumeWith_performs (.resumeValue hv) hb
  | reset =>
      cases h
      exact .reset
  | ask q =>
      obtain ⟨b, hb, heq⟩ := Option.map_eq_some_iff.1 h
      cases heq
      exact .asked hb
  | outside world =>
      cases h
      exact .outside

end Performs

/-- The call loads a module. -/
def Call.Loads : Call η → Prop
  | .loadModule .. => True
  | _ => False

instance : DecidablePred (@Call.Loads η)
  | .loadModule .. => .isTrue trivial
  | .setGlobal .. | .invoke .. | .run _ | .resume | .resumeValue _ | .reset | .ask _ | .outside _ =>
      .isFalse id

theorem Call.Gives.not_loads {c : Call η} {v : Option Value} (h : c.Gives v) : ¬c.Loads := by
  cases h <;> exact id

/-- An embedder that abides by the protocol does not run a paused engine. -/
def Call.Allowed (s : Session η) : Call η → Prop
  | .run _ => s.engine.hostPauseResult = none
  | _ => True

instance (s : Session η) : (c : Call η) → Decidable (c.Allowed s)
  | .run _ => inferInstanceAs (Decidable (s.engine.hostPauseResult = none))
  | .loadModule .. | .setGlobal .. | .invoke .. | .resume | .resumeValue _ | .reset | .ask _
  | .outside _ => .isTrue trivial

/-- Any calls, one after the other, with their answers. -/
inductive Calls (floats : FloatOps) (host : HostEnv η) :
    Session η → List (Call η × Answer) → Session η → Prop where
  | nil (s : Session η) : Calls floats host s [] s
  | cons {s t u : Session η} {c : Call η} {a : Answer} {calls : List (Call η × Answer)} :
      c.perform floats host s = some (a, t) → Calls floats host t calls u →
        Calls floats host s ((c, a) :: calls) u

/-- Calls that abide by the protocol, one after the other, with their answers. -/
inductive Trace (floats : FloatOps) (host : HostEnv η) :
    Session η → List (Call η × Answer) → Session η → Prop where
  | nil (s : Session η) : Trace floats host s [] s
  | cons {s t u : Session η} {c : Call η} {a : Answer} {calls : List (Call η × Answer)} :
      c.Allowed s → c.perform floats host s = some (a, t) → Trace floats host t calls u →
        Trace floats host s ((c, a) :: calls) u

theorem Trace.calls {floats : FloatOps} {host : HostEnv η} {s t : Session η}
    {calls : List (Call η × Answer)} (h : Trace floats host s calls t) :
    Calls floats host s calls t := by
  induction h with
  | nil => exact .nil _
  | cons _ hperform _ ih => exact .cons hperform ih

/-- The calls, one after the other, as long as the protocol allows them. -/
def replay (floats : FloatOps) (host : HostEnv η) :
    List (Call η) → Session η → Option (List (Call η × Answer) × Session η)
  | [], s => some ([], s)
  | c :: cs, s =>
      if c.Allowed s then
        (c.perform floats host s).bind fun p =>
          (replay floats host cs p.2).map fun q => ((c, p.1) :: q.1, q.2)
      else none

theorem replay_trace {floats : FloatOps} {host : HostEnv η} {cs : List (Call η)}
    {s s' : Session η} {calls : List (Call η × Answer)}
    (h : replay floats host cs s = some (calls, s')) : Trace floats host s calls s' := by
  induction cs generalizing s calls with
  | nil =>
      cases h
      exact .nil _
  | cons c cs ih =>
      rw [replay] at h
      split at h
      · next hc =>
        obtain ⟨⟨a, t⟩, hperform, h⟩ := Option.bind_eq_some_iff.1 h
        obtain ⟨⟨calls', u⟩, hrest, heq⟩ := Option.map_eq_some_iff.1 h
        cases heq
        exact .cons hc hperform (ih hrest)
      · cases h

end Capi

end SpaceWasm
