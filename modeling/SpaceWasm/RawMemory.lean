import SpaceWasm.Alloc
import SpaceWasm.Memory

/-!
# Linear memory behind a pointer

The struct `Memory` field by field: a pointer, a size, the declared type and
whether there is an allocator. Its bytes are in the heap, and every access goes
through the pointer without a further check, so an operation that let an address
outside the block through would panic here.
-/

namespace SpaceWasm

open Fallible

/-- `MemPageSize::alignment`. -/
def MemPageSize.alignment : MemPageSize → ℕ
  | .one => 1
  | .size65536 => 16

structure RawMemory where
  ptr : Option ℕ
  size : ℕ
  ty : MemType
  /-- `allocator.is_some()`. -/
  allocator : Bool

/-- A memory and the heap its pointer points into. -/
structure MemoryWorld (α : Type) where
  memory : RawMemory
  heap : RawHeap α

/-- An operation on a linear memory. -/
abbrev RawM (α : Type) := Fallible MemoryError (MemoryWorld α)

namespace RawMemory

variable {α : Type}

/-- `Memory::new`. -/
def new (A : WasmMemoryAllocator α) (ty : MemType) : Fallible AllocError (RawHeap α) RawMemory := do
  let size := ty.initialPages * ty.pageSize.size
  if usizeMax < size then throw .allocationFailed
  else if size = 0 then pure ⟨none, 0, ty, true⟩
  else do
    let layout ← okOr (Layout.fromSizeAlign size ty.pageSize.alignment) .allocationFailed
    let ptr ← A.allocate layout
    -- Clear the pages.
    RawHeap.write (some ptr) 0 (List.replicate size 0)
    pure ⟨some ptr, size, ty, true⟩

/-- A heap operation, as one of the memory. -/
def onHeap {β : Type} (x : Fallible MemoryError (RawHeap α) β) : RawM α β :=
  zoom (fun s => s.heap) (fun s heap => { s with heap := heap }) x

def checkInBounds (addr size : ℕ) : RawM α Unit := do
  let s ← get
  if s.memory.size < size ∨ s.memory.size - size < addr then throw .outOfBounds else pure ()

/-- `store_u8`, `store_u16`, `store_u32` and `store_u64`, of `n` bytes. -/
def storeLe (n addr v : ℕ) : RawM α Unit := do
  checkInBounds addr n
  let s ← get
  onHeap (RawHeap.write s.memory.ptr addr (toLeBytes n v))

def storeU8 (addr : ℕ) (v : U8) : RawM α Unit := storeLe 1 addr v.toNat

def storeU16 (addr : ℕ) (v : U16) : RawM α Unit := storeLe 2 addr v.toNat

def storeU32 (addr : ℕ) (v : U32) : RawM α Unit := storeLe 4 addr v.toNat

def storeU64 (addr : ℕ) (v : U64) : RawM α Unit := storeLe 8 addr v.toNat

def store (addr : ℕ) (data : List U8) : RawM α Unit := do
  checkInBounds addr data.length
  if data.isEmpty then pure ()
  else do
    let s ← get
    onHeap (RawHeap.write s.memory.ptr addr data)

/-- `load_u8`, `load_u16`, `load_u32` and `load_u64`, of `n` bytes. -/
def loadLe (n addr : ℕ) : RawM α ℕ := do
  checkInBounds addr n
  let s ← get
  let bytes ← onHeap (RawHeap.read s.memory.ptr addr n)
  pure (fromLeBytes bytes)

def loadU8 (addr : ℕ) : RawM α U8 := BitVec.ofNat 8 <$> loadLe 1 addr

def loadU16 (addr : ℕ) : RawM α U16 := BitVec.ofNat 16 <$> loadLe 2 addr

def loadU32 (addr : ℕ) : RawM α U32 := BitVec.ofNat 32 <$> loadLe 4 addr

def loadU64 (addr : ℕ) : RawM α U64 := BitVec.ofNat 64 <$> loadLe 8 addr

def load (addr len : ℕ) : RawM α (List U8) := do
  checkInBounds addr len
  if len = 0 then pure []
  else do
    let s ← get
    onHeap (RawHeap.read s.memory.ptr addr len)

/-- `size`, in pages. -/
def pages : RawM α U32 := do
  let s ← get
  pure (BitVec.ofNat 32 (s.memory.size / s.memory.ty.pageSize.size))

/-- The allocator call of `grow`: a first block, or a larger one for the old. -/
def enlarge (A : WasmMemoryAllocator α) (m : RawMemory) (newLayout : Layout) : RawM α ℕ := do
  if m.size = 0 then onHeap (mapError MemoryError.ofAllocError (A.allocate newLayout))
  else do
    let p ← okOr m.ptr .outOfMemory
    let oldLayout ← okOr (Layout.fromSizeAlign m.size m.ty.pageSize.alignment) .allocationFailed
    onHeap (mapError MemoryError.ofAllocError (A.reallocate p oldLayout newLayout))

/-- The end of `grow`: the new memory is cleared before the larger size is
committed. -/
def commit (m : RawMemory) (ptr newSize : ℕ) : RawM α Unit := do
  onHeap (RawHeap.write (some ptr) m.size (List.replicate (newSize - m.size) 0))
  modify fun s => { s with memory := { m with ptr := some ptr, size := newSize } }

/-- `grow`. -/
def grow (A : WasmMemoryAllocator α) (n : U32) : RawM α U32 := do
  let oldPages ← pages
  let totalPages := oldPages.toNat + n.toNat
  let s ← get
  let m := s.memory
  if 2 ^ 32 ≤ totalPages then throw .outOfMemory
  else if m.ty.canHold totalPages = false then throw .outOfMemory
  else if m.allocator = false then throw .outOfMemory
  else if n = 0 then pure oldPages
  else do
    let newSize := totalPages * m.ty.pageSize.size
    if usizeMax < newSize then throw .outOfMemory
    else do
      let newLayout ← okOr (Layout.fromSizeAlign newSize m.ty.pageSize.alignment) .allocationFailed
      let ptr ← enlarge A m newLayout
      commit m ptr newSize
      pure oldPages

/-- `get_slice`. -/
def getSlice : RawM α (List U8) := do
  let s ← get
  match s.memory.ptr with
  | none => pure []
  | some p => onHeap (RawHeap.read (some p) 0 s.memory.size)

end RawMemory

end SpaceWasm
