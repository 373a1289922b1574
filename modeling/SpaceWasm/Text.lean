import SpaceWasm.Opcode
import Mathlib.Data.Nat.Notation

/-!
# The paged code buffer

Compiled code is a sequence of 16-bit words in pages of 256 words. A code
address (`JumpTarget`) is a `u32` whose upper 24 bits are the page. A branch
operand (`LabelTarget`) packs the arity of the label, the number of stack words
to drop and a signed 22-bit offset into two words.

Addresses and offsets are 32-bit machine words with the wrapping arithmetic of
the release build.
-/

namespace SpaceWasm

open Fallible

/-! ### Addresses, offsets and labels -/

/-- An address into the paged code. -/
abbrev JumpTarget := U32

namespace JumpTarget

/-- Marks the end of a chain of references, and an engine that is not running. -/
def sentinel : JumpTarget := 0xFFFFFFFF#32

/-- The page of an address (its upper 24 bits). -/
def page (a : JumpTarget) : ℕ := (a >>> 8).toNat

/-- The word of an address within its page (its lower 8 bits). -/
def offset (a : JumpTarget) : ℕ := (a &&& 0xFF#32).toNat

end JumpTarget

/-- A signed distance between two code addresses. -/
abbrev JumpOffset := U32

namespace JumpOffset

def sentinel : JumpOffset := 0

def new (current «to» : JumpTarget) : Except ValidationError JumpOffset :=
  if «to» = JumpTarget.sentinel then .ok sentinel
  else
    let offset := «to» - current
    let fits := offset = (offset <<< 10).sshiftRight 10
    if fits then .ok offset else .error .labelJumpTooLarge

end JumpOffset

/-- A branch operand: `[arity:2][depth:8][offset:22]`. -/
abbrev LabelTarget := U32

/-- The number of words a label moves to its stack height. -/
inductive LabelArity where
  | none | i32 | i64
  deriving DecidableEq, Repr

/-- The arity as the word count it stands for (`arity() as u8`). -/
def LabelArity.words : LabelArity → ℕ
  | none => 0
  | i32 => 1
  | i64 => 2

namespace LabelTarget

/-- The arity bits of a result type. -/
def arityBits : ResultType → U32
  | none => 0
  | some .i32 => 1
  | some .f32 => 1
  | some .i64 => 2
  | some .f64 => 2

def new (resultType : ResultType) (depth : U8) (offset : JumpOffset) : LabelTarget :=
  (arityBits resultType <<< 30) ||| (depth.setWidth 32 <<< 22) ||| (offset &&& 0x3FFFFF#32)

def earlyReturn (resultType : ResultType) : LabelTarget :=
  new resultType 0 JumpOffset.sentinel

def withJump (l : LabelTarget) (offset : JumpOffset) : LabelTarget :=
  (l &&& 0xFFC00000#32) ||| (offset &&& 0x3FFFFF#32)

/-- The jump offset, sign-extended from its 22 bits. -/
def jump (l : LabelTarget) : JumpOffset := ((l &&& 0x3FFFFF#32) <<< 10).sshiftRight 10

def isSentinel (l : LabelTarget) : Bool := l.jump = 0

/-- The arity field; `none` for the unused pattern, on which the source panics. -/
def arity (l : LabelTarget) : Option LabelArity :=
  match ((l >>> 30) &&& 3#32).toNat with
  | 0 => some .none
  | 1 => some .i32
  | 2 => some .i64
  | _ => none

/-- The number of stack words to drop. -/
def depth (l : LabelTarget) : U8 := ((l >>> 22) &&& 0xFF#32).setWidth 8

end LabelTarget

/-! ### The code builder -/

/-- The answers of the global allocator: `answer n size` is the error of the
`n`-th request, of `size` bytes or elements, or `none` if it succeeds. -/
structure Heap where
  answer : ℕ → ℕ → Option AllocError
  requests : ℕ

/-- A page of compiled code. -/
abbrev TextPage := Vector U16 256

def TextPage.default : TextPage := Vector.replicate 256 0

/-- Code addresses have 24-bit page indices. -/
def maxAddressableCodePages : ℕ := 2 ^ 24

structure CompilerOptions where
  allowMemoryGrow : Bool
  maxBackpatchIterations : Option ℕ
  maxCodePages : ℕ

/-- The builder of the paged code. The process-wide allocator is threaded along
with it. -/
structure CodeBuilder where
  pages : List TextPage
  offset : ℕ
  options : CompilerOptions
  heap : Heap
  pages_le : pages.length ≤ options.maxCodePages
  maxCodePages_lt : options.maxCodePages < maxAddressableCodePages
  offset_le : offset ≤ 256
  offset_nil : pages = [] → offset = 0

abbrev CodeM (α : Type) := Fallible ValidationError CodeBuilder α

namespace CodeBuilder

def new (options : CompilerOptions) (heap : Heap) : Except AllocError CodeBuilder :=
  if h : options.maxCodePages < maxAddressableCodePages then
    .ok {
      pages := []
      offset := 0
      options := options
      heap := heap
      pages_le := Nat.zero_le _
      maxCodePages_lt := h
      offset_le := Nat.zero_le _
      offset_nil := fun _ => rfl }
  else .error .allocationFailed

/-- The page and the word the next push writes, as `pc` computes them. -/
def pcParts (c : CodeBuilder) : ℕ × ℕ :=
  if c.offset = 256 then (c.pages.length, 0)
  else if c.pages.isEmpty then (0, 0)
  else (c.pages.length - 1, c.offset)

end CodeBuilder

open CodeBuilder

/-- A request to the global allocator. -/
def allocate (size : ℕ) : CodeM Unit := fun c =>
  let heap := { c.heap with requests := c.heap.requests + 1 }
  match c.heap.answer c.heap.requests size with
  | none => .ok () { c with heap := heap }
  | some e => .error (.allocError e) { c with heap := heap }

/-- The address of the next word to be written. -/
def CodeBuilder.pc : CodeM JumpTarget := do
  let c ← get
  let (pageIndex, offset) := c.pcParts
  assert (pageIndex < maxAddressableCodePages)
  assert (offset < 256)
  pure ((BitVec.ofNat 32 pageIndex <<< 8) ||| BitVec.ofNat 32 offset)

/-- `self.pages.try_push(page)` and `self.offset = 0`. -/
def CodeBuilder.pushPage (page : TextPage) : CodeM Unit := fun c =>
  if h : c.pages.length < c.options.maxCodePages then
    .ok () { c with
      pages := c.pages ++ [page]
      offset := 0
      pages_le := by
        rw [List.length_append]
        exact h
      offset_le := Nat.zero_le _
      offset_nil := by simp }
  else .error (.allocError .outOfMemory) c

def CodeBuilder.addPage : CodeM Unit := do
  allocate 512
  pushPage TextPage.default

/-- `self.pages[idx].0[self.offset] = w; self.offset += 1` on the last page. -/
def CodeBuilder.putWord (w : U16) : CodeM Unit := fun c =>
  match hp : c.pages[c.pages.length - 1]? with
  | none => .panic
  | some page =>
      if h : c.offset < 256 then
        .ok () { c with
          pages := c.pages.set (c.pages.length - 1) (page.set c.offset w h)
          offset := c.offset + 1
          pages_le := by simpa using c.pages_le
          offset_le := h
          offset_nil := by
            intro hnil
            have hempty : c.pages = [] := by simpa using hnil
            simp [hempty] at hp }
      else .panic

/-- Append a word, on a new page if the current one is full. -/
def CodeBuilder.push (w : U16) : CodeM Unit := do
  let c ← get
  if c.offset = 0 ∧ c.pages = [] then addPage
  else if 256 ≤ c.offset then addPage
  else pure ()
  putWord w

/-- Overwrite the word at an address. -/
def CodeBuilder.write (address : JumpTarget) (value : U16) : CodeM Unit := fun c =>
  match c.pages[address.page]? with
  | none => .error .pageFault c
  | some page =>
      if h : address.offset < 256 then
        .ok () { c with
          pages := c.pages.set address.page (page.set address.offset value h)
          pages_le := by simpa using c.pages_le
          offset_nil := by simpa using c.offset_nil }
      else .error .pageFault c

/-- `write_32` at an address: the low word first. -/
def CodeBuilder.write32 (address : JumpTarget) (value : U32) : CodeM Unit := do
  write address (value.setWidth 16)
  write (address + 1) ((value >>> 16).setWidth 16)

/-- Read the word at an address. -/
def CodeBuilder.read (address : JumpTarget) : CodeM U16 := fun c =>
  match c.pages[address.page]? with
  | none => .error .pageFault c
  | some page => if h : address.offset < 256 then .ok page[address.offset] c
      else .error .pageFault c

def CodeBuilder.read32 (address : JumpTarget) : CodeM U32 := do
  let w1 ← read address
  let w2 ← read (address + 1)
  pure (w1.setWidth 32 ||| (w2.setWidth 32 <<< 16))

/-- One round of `backpatch` after another, until the label just visited has the
sentinel offset. The walk has no bound of its own when
`max_backpatch_iterations` is `None`; running out of `fuel` stands for a walk
that does not end. -/
def CodeBuilder.backpatchLoop {ρ : Type}
    (f : ρ → JumpTarget → LabelTarget → CodeM ρ) :
    (fuel n : ℕ) → JumpTarget → ρ → CodeM ρ
  | 0, _, _, _ => diverge
  | fuel + 1, n, address, acc => do
      let lt ← read32 address
      let acc ← f acc address lt
      if LabelTarget.isSentinel lt then pure acc
      else do
        let c ← get
        match c.options.maxBackpatchIterations with
        | some max =>
            if max < n + 1 then throw .possibleBackpatchCycle
            else backpatchLoop f fuel (n + 1) (address + LabelTarget.jump lt) acc
        | none => backpatchLoop f fuel (n + 1) (address + LabelTarget.jump lt) acc

/-- Walk the chain of references that starts at `start`; `acc` stands for the
variables that the closure of the source captures. -/
def CodeBuilder.backpatch {ρ : Type} (start : JumpTarget) (acc : ρ)
    (f : ρ → JumpTarget → LabelTarget → CodeM ρ) : CodeM ρ := do
  if start = JumpTarget.sentinel then pure acc
  else do
    let c ← get
    backpatchLoop f (256 * c.pages.length + 1) 0 start acc

end SpaceWasm
