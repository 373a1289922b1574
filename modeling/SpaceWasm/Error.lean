import Mathlib.Algebra.Order.Ring.Int
import Mathlib.Data.Nat.Notation

/-!
# Errors

The error types of the decoder, the validator and the engine. A constructor
that no modelled function raises is left out.
-/

namespace SpaceWasm

/-- An 8-bit machine word. -/
abbrev U8 := BitVec 8

/-- A 16-bit machine word. -/
abbrev U16 := BitVec 16

/-- A 32-bit machine word. -/
abbrev U32 := BitVec 32

/-- A 64-bit machine word. -/
abbrev U64 := BitVec 64

/-- `usize::MAX` on the 64-bit targets the model describes. -/
def usizeMax : ℕ := 2 ^ 64 - 1

/-- All Wasm sections, ordered by the order expected in the file. -/
inductive SectionKind where
  | custom | type | import_ | function | table | memory | global | export_ | start
  | element | code | data
  deriving DecidableEq, Repr

/-- The position of a section in the derived order of `SectionKind`. -/
def SectionKind.toNat : SectionKind → ℕ
  | custom => 0
  | type => 1
  | import_ => 2
  | function => 3
  | table => 4
  | memory => 5
  | global => 6
  | export_ => 7
  | start => 8
  | element => 9
  | code => 10
  | data => 11

inductive AllocError where
  | allocationFailed | outOfMemory | pageTooSmall | heapPoisoned
  deriving DecidableEq, Repr

inductive MemoryError where
  | outOfBounds | outOfMemory | allocationFailed | pageTooSmall | heapPoisoned
  deriving DecidableEq, Repr

inductive ConstantExprError where
  | invalidConstantInstruction | alreadyHasValue | noValue | invalidGlobal
  deriving DecidableEq, Repr

inductive ValidationError where
  | eof
  | malformedInteger
  | malformedMagic
  | malformedVersion
  | malformedUtf8
  | duplicateModuleName
  | duplicateExportName
  | malformedSectionId (id : U8)
  | malformedValueType (tag : U8)
  | malformedFunction (tag : U8)
  | malformedLimit (flag : U8)
  | malformedElemType (tag : U8)
  | malformedSectionSize
  | expectedConstOrVar (flag : U8)
  | malformedImportExportDesc (tag : U8)
  | malformedMemType (flag : U8)
  | invalidPageSize (p : U8)
  | invalidSectionOrdering (last new : SectionKind)
  | duplicateSection (kind : SectionKind)
  | invalidMaxLimit
  | expectedTerminal (byte : U8)
  | invalidOpcode (op : U8)
  | invalidFcOpcode (op : U8)
  | malformedCodeSize
  | invalidCodeSectionFunctionCount
  | vecTooLong
  | idxTooLarge
  | memoryTooLarge
  | tableTooLarge
  | memoryImportTooLarge
  | memAlignTooLarge
  | stackUnderflow
  | stackTooLarge
  | labelStackJumpTooDeep
  | labelJumpTooLarge
  | typeMismatch
  | blockResultTypeMismatch
  | brTableResultTypeMismatch
  | illegalMemoryGrow
  | invalidElementOffset
  | invalidElementOutOfBounds
  | invalidTableIndex
  | tableNotDefined
  | invalidMemIndex
  | memoryNotDefined
  | invalidMemOffsetType
  | invalidLabelIndex
  | invalidElseBlock
  | invalidEndBlock
  | multipleMemories
  | multipleTables
  | possibleBackpatchCycle
  | pageFault
  | localIdxOutOfRange
  | functionIdxOutOfRange
  | typeIdxOutOfRange
  | globalIdxOutOfRange
  | functionImportNotFound
  | globalImportNotFound
  | memoryImportNotFound
  | tableImportNotFound
  | functionImportTypeMismatch
  | globalNotMutable
  | globalImportTypeMismatch
  | memoryImportTypeMismatch
  | tableImportTypeMismatch
  | tableImportIncompatibleSize
  | tableRefNotUnique
  | functionParametersTooLarge
  | functionReturnsTooLarge
  | tooManyLocals
  | globalTypeMismatch
  | alignmentLargerThanType
  | invalidStartFunctionSignature
  | invalidHostStartFunction
  | invalidConstantExpr (e : ConstantExprError)
  | guestMemoryAllocationFailure
  | allocError (e : AllocError)
  | memoryError (e : MemoryError)
  | readerError (code : U8)
  deriving DecidableEq, Repr

/-- An error of the module decoder, with the section it happened in. -/
structure SectionDecodeError where
  section_ : Option SectionKind
  err : ValidationError
  deriving DecidableEq, Repr

/-- An error of `Module::new`, with the offset of the byte it happened at. -/
structure ParseError where
  offset : U32
  err : SectionDecodeError
  deriving DecidableEq, Repr

/-- `ValidationError::with_section`. -/
def ValidationError.withSection (err : ValidationError) (kind : SectionKind) :
    SectionDecodeError :=
  ⟨some kind, err⟩

/-- The conversion `?` uses outside a section. -/
def ValidationError.toSectionDecodeError (err : ValidationError) : SectionDecodeError :=
  ⟨none, err⟩

end SpaceWasm
