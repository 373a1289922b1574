import SpaceWasm.Reader

/-!
# Wasm types and values

Value types, function types, limits and the index spaces, with the decoders
that read them from the stream. A float value is its bit pattern.
-/

namespace SpaceWasm

open Fallible

/-- Value types classify the individual values a computation works on. -/
inductive ValType where
  | i32 | i64 | f32 | f64
  deriving DecidableEq, Repr

namespace ValType

/-- Size in bytes. -/
def size : ValType → ℕ
  | i32 => 4
  | i64 => 8
  | f32 => 4
  | f64 => 8

/-- Size in 32-bit stack words. -/
def words : ValType → ℕ
  | i32 => 1
  | i64 => 2
  | f32 => 1
  | f64 => 2

/-- The `#[repr(u8)]` discriminant. -/
def tag : ValType → U8
  | i32 => 0
  | i64 => 1
  | f32 => 2
  | f64 => 3

/-- The inverse of `tag`; `none` for a byte that is no discriminant. -/
def fromRepr (t : U8) : Option ValType :=
  if t = 0 then some i32
  else if t = 1 then some i64
  else if t = 2 then some f32
  else if t = 3 then some f64
  else none

@[simp] theorem fromRepr_tag (t : ValType) : fromRepr t.tag = some t := by
  cases t <;> decide

theorem size_eq (t : ValType) : t.size = 4 * t.words := by
  cases t <;> rfl

@[simp] theorem size_div_four (t : ValType) : t.size / 4 = t.words := by
  cases t <;> rfl

theorem words_pos (t : ValType) : 0 < t.words := by
  cases t <;> decide

def convert (v : U8) : Except ValidationError ValType :=
  if v = 0x7F then .ok i32
  else if v = 0x7E then .ok i64
  else if v = 0x7D then .ok f32
  else if v = 0x7C then .ok f64
  else .error (.malformedValueType v)

def read : ReaderM ValType := do
  let v ← readU8
  ofExcept (convert v)

end ValType

/-- The words of a list of values. -/
def wordsOf (ts : List ValType) : ℕ := (ts.map ValType.words).sum

@[simp] theorem wordsOf_nil : wordsOf [] = 0 := rfl

@[simp] theorem wordsOf_cons (t : ValType) (ts : List ValType) :
    wordsOf (t :: ts) = t.words + wordsOf ts := by
  simp [wordsOf]

@[simp] theorem wordsOf_append (ts us : List ValType) :
    wordsOf (ts ++ us) = wordsOf ts + wordsOf us := by
  simp [wordsOf]

@[simp] theorem wordsOf_reverse (ts : List ValType) : wordsOf ts.reverse = wordsOf ts := by
  induction ts with
  | nil => rfl
  | cons t ts ih => simp [ih, Nat.add_comm]

/-- A runtime type-tracked value. -/
inductive Value where
  | i32 (v : U32)
  | i64 (v : U64)
  | f32 (bits : U32)
  | f64 (bits : U64)
  deriving DecidableEq, Repr

namespace Value

def type : Value → ValType
  | i32 _ => .i32
  | i64 _ => .i64
  | f32 _ => .f32
  | f64 _ => .f64

end Value

/-- A value without its type, kept in 64 bits. -/
structure RawValue where
  bits : U64
  deriving DecidableEq, Repr

namespace RawValue

def from32 (u : U32) : RawValue := ⟨u.setWidth 64⟩

def from64 (u : U64) : RawValue := ⟨u⟩

def read32 (r : RawValue) : U32 := r.bits.setWidth 32

def read64 (r : RawValue) : U64 := r.bits

/-- The raw form of a value (`from_i32`, `from_i64`, `from_f32`, `from_f64`). -/
def ofValue : Value → RawValue
  | .i32 v => from32 v
  | .i64 v => from64 v
  | .f32 v => from32 v
  | .f64 v => from64 v

/-- `to_value`. -/
def toValue (r : RawValue) : ValType → Value
  | .i32 => .i32 r.read32
  | .i64 => .i64 r.read64
  | .f32 => .f32 r.read32
  | .f64 => .f64 r.read64

@[simp] theorem toValue_type (r : RawValue) (t : ValType) : (r.toValue t).type = t := by
  cases t <;> rfl

end RawValue

/-- The result of a block or a function: at most one value. -/
abbrev ResultType := Option ValType

namespace ResultType

/-- Words of the result. -/
def words : ResultType → ℕ
  | none => 0
  | some t => t.words

def read : ReaderM ResultType := do
  let c ← readU8
  if c = 0x40 then pure none
  else do
    let t ← ofExcept (ValType.convert c)
    pure (some t)

@[simp] theorem words_none : words none = 0 := rfl

@[simp] theorem words_some (t : ValType) : words (some t) = t.words := rfl

end ResultType

structure FuncType where
  params : List ValType
  returns : List ValType
  deriving DecidableEq, Repr

structure Limit where
  min : ℕ
  max : Option ℕ
  deriving DecidableEq, Repr

namespace Limit

def read : ReaderM Limit := do
  let flag ← readU8
  if flag = 0 then do
    let min ← readU32
    pure ⟨min.toNat, none⟩
  else if flag = 1 then do
    let min ← readU32
    let max ← readU32
    if max.toNat < min.toNat then throw .invalidMaxLimit
    else pure ⟨min.toNat, some max.toNat⟩
  else throw (.malformedLimit flag)

/-- Whether `l` satisfies the requirement `other`. -/
def «matches» (l other : Limit) : Bool :=
  if l.min < other.min then false
  else
    match l.max, other.max with
    | _, none => true
    | some m1, some m2 => decide (m1 ≤ m2)
    | none, some _ => false

end Limit

inductive MemPageSize where
  | one | size65536
  deriving DecidableEq, Repr

def MemPageSize.size : MemPageSize → ℕ
  | one => 1
  | size65536 => 65536

structure MemType where
  initialPages : ℕ
  maxPages : Option ℕ
  pageSize : MemPageSize
  deriving DecidableEq, Repr

namespace MemType

/-- The bit of a memory flag byte. -/
private def flagBit (flag : U8) (i : ℕ) : Bool := flag.getLsbD i

def read : ReaderM MemType := do
  let flag ← readU8
  let min ← readU32
  -- Bit 0: whether a maximum for the limit follows.
  let max : Option ℕ ←
    if flagBit flag 0 then do
      let max ← readU32
      if max.toNat < min.toNat then throw .invalidMaxLimit else pure (some max.toNat)
    else pure none
  -- Bit 1 (shared) and bit 2 (64-bit index) are not supported.
  if flagBit flag 1 then throw (.malformedMemType flag)
  else if flagBit flag 2 then throw (.malformedMemType flag)
  else do
    -- Bit 3: whether the memory defines a custom page size.
    let pageSize : MemPageSize ←
      if flagBit flag 3 then do
        let p ← readU32
        if p.toNat = 0 then pure MemPageSize.one
        else if p.toNat = 16 then pure MemPageSize.size65536
        else if p.toNat ≤ 64 then throw (.invalidPageSize (p.setWidth 8))
        else throw (.invalidPageSize 0xFF)
      else pure MemPageSize.size65536
    if flag &&& 0xF0#8 ≠ 0#8 then throw (.malformedMemType flag)
    else
      let maxAllowed := match pageSize with
        | .one => 2 ^ 32
        | .size65536 => 65536
      if maxAllowed < min.toNat then throw .memoryTooLarge
      else if (match max with | some m => decide (maxAllowed < m) | none => false) then
        throw .memoryTooLarge
      else pure ⟨min.toNat, max, pageSize⟩

def zero : MemType := ⟨0, some 0, .size65536⟩

def canHold (ty : MemType) (nPages : ℕ) : Bool :=
  match ty.maxPages with
  | some max => decide (nPages ≤ max) && decide (ty.initialPages ≤ nPages)
  | none => decide (nPages * ty.pageSize.size ≤ 2 ^ 32) && decide (ty.initialPages ≤ nPages)

/-- Whether `ty` satisfies the requirement `other`. -/
def «matches» (ty other : MemType) : Bool :=
  Limit.matches ⟨ty.initialPages, ty.maxPages⟩ ⟨other.initialPages, other.maxPages⟩ &&
    decide (ty.pageSize = other.pageSize)

end MemType

/-- Maximum number of elements permitted in a table. -/
def maxTableElements : ℕ := 10000000

/-- A table type. `elem_type` has the single value `FuncRef`. -/
structure TableType where
  limits : Limit
  deriving DecidableEq, Repr

def TableType.read : ReaderM TableType := do
  let elem ← readU8
  if elem ≠ 0x70 then throw (.malformedElemType elem)
  else do
    let limits ← Limit.read
    if maxTableElements < limits.min then throw .tableTooLarge
    else if (match limits.max with | some m => decide (maxTableElements < m) | none => false) then
      throw .tableTooLarge
    else pure ⟨limits⟩

structure GlobalType where
  ty : ValType
  mutable : Bool
  deriving DecidableEq, Repr

def GlobalType.read : ReaderM GlobalType := do
  let ty ← ValType.read
  let c ← readU8
  if c = 0 then pure ⟨ty, false⟩
  else if c = 1 then pure ⟨ty, true⟩
  else throw (.expectedConstOrVar c)

/-- An index into one of the index spaces (`TypeIdx`, `FuncIdx`, `TableIdx`,
`MemIdx`, `GlobalIdx`, `LocalIdx`, `LabelIdx`), all read as a `u32`. -/
abbrev Idx := ℕ

def Idx.read : ReaderM Idx := do
  let v ← readU32
  pure v.toNat

/-- The immediate of a memory instruction. -/
structure MemArg where
  align : U32
  offset : U32
  deriving DecidableEq, Repr

def MemArg.read : ReaderM MemArg := do
  let align ← readU32
  let offset ← readU32
  pure ⟨align, offset⟩

/-- An index of a module in the store. -/
abbrev ModuleRef := U8

/-- An index of a host module in the store. -/
abbrev HostModuleRef := U8

/-- A reference to a symbol in the store, relative to an implicit module. -/
inductive Ref where
  | module (index : U16)
  | host (module : HostModuleRef) (index : U16)
  | extern_ (module : ModuleRef) (index : U16)
  deriving DecidableEq, Repr

/-- A reference to a Wasm symbol in the store. -/
structure WasmRef where
  module : ModuleRef
  index : U16
  deriving DecidableEq, Repr

/-- A reference to a symbol in a host module. -/
structure HostRef where
  module : HostModuleRef
  index : U16
  deriving DecidableEq, Repr

/-- A local variable: its type, and its signed word offset from the frame
pointer (parameters are below it, locals start two words above it). -/
structure LocalVariable where
  frameOffset : U16
  ty : ValType
  deriving DecidableEq, Repr

end SpaceWasm
