import SpaceWasm.Types

/-!
# Linear memory

A memory is its bytes, its declared type and whether it has an allocator (the
sentinel `Memory.zero` has none). Whether a request for more bytes succeeds is
an argument of `grow`: the allocator is outside the repository.
-/

namespace SpaceWasm

structure Memory where
  bytes : List U8
  ty : MemType
  /-- `allocator.is_some()`. -/
  allocator : Bool
  deriving DecidableEq

/-- The little-endian bytes of a value, `n` of them. -/
def toLeBytes : ℕ → ℕ → List U8
  | 0, _ => []
  | n + 1, v => BitVec.ofNat 8 v :: toLeBytes n (v / 256)

@[simp] theorem toLeBytes_length (n v : ℕ) : (toLeBytes n v).length = n := by
  induction n generalizing v with
  | zero => rfl
  | succ n ih => simp [toLeBytes, ih]

namespace Memory

def zero : Memory := ⟨[], MemType.zero, false⟩

/-- The length in bytes (the field `size`). -/
def len (m : Memory) : ℕ := m.bytes.length

/-- The bytes a memory type asks for initially. -/
def initialSize (ty : MemType) : ℕ := ty.initialPages * ty.pageSize.size

/-- `Memory::new`, once its allocation has succeeded. -/
def ofType (ty : MemType) : Memory := ⟨List.replicate (initialSize ty) 0, ty, true⟩

/-- Resolve a guest access `base + offset` to a byte address. -/
def effectiveAddress (base offset : U32) : Except MemoryError ℕ :=
  let addr := base.toNat + offset.toNat
  if addr ≤ usizeMax then .ok addr else .error .outOfBounds

def checkInBounds (m : Memory) (addr size : ℕ) : Except MemoryError Unit :=
  if m.len < size ∨ m.len - size < addr then .error .outOfBounds else .ok ()

/-- `store`: overwrite the bytes from `addr` on. -/
def store (m : Memory) (addr : ℕ) (data : List U8) : Except MemoryError Memory :=
  match m.checkInBounds addr data.length with
  | .error e => .error e
  | .ok () =>
      .ok { m with bytes := m.bytes.take addr ++ data ++ m.bytes.drop (addr + data.length) }

/-- `load`: the `len` bytes from `addr` on. -/
def load (m : Memory) (addr len : ℕ) : Except MemoryError (List U8) :=
  match m.checkInBounds addr len with
  | .error e => .error e
  | .ok () => .ok ((m.bytes.drop addr).take len)

/-- `store_u8`, `store_u16`, `store_u32` and `store_u64`: the low `n` bytes of a
value in little-endian order. -/
def storeLe (m : Memory) (n addr v : ℕ) : Except MemoryError Memory :=
  m.store addr (toLeBytes n v)

/-- `load_u8`, `load_u16`, `load_u32` and `load_u64`: the value of `n` bytes in
little-endian order. -/
def loadLe (m : Memory) (n addr : ℕ) : Except MemoryError ℕ :=
  match m.load addr n with
  | .error e => .error e
  | .ok bytes => .ok (fromLeBytes bytes)

/-- `size`: the length in pages, as a `u32`. -/
def size (m : Memory) : U32 := BitVec.ofNat 32 (m.len / m.ty.pageSize.size)

/-- `grow`, with the answer of the allocator to a request for the new size. -/
def grow (m : Memory) (n : U32) (allocated : Bool) : Except MemoryError (U32 × Memory) :=
  let oldPages := m.size
  let totalPages := oldPages.toNat + n.toNat
  if 2 ^ 32 ≤ totalPages then .error .outOfMemory
  else if m.ty.canHold totalPages = false then .error .outOfMemory
  else if m.allocator = false then .error .outOfMemory
  else if n = 0 then .ok (oldPages, m)
  else if allocated = false then .error .allocationFailed
  else
    let newSize := totalPages * m.ty.pageSize.size
    .ok (oldPages, { m with bytes := m.bytes ++ List.replicate (newSize - m.len) 0 })

/-- The size `grow` asks the allocator for; `none` when it does not ask. -/
def growRequest (m : Memory) (n : U32) : Option ℕ :=
  let totalPages := m.size.toNat + n.toNat
  if 2 ^ 32 ≤ totalPages ∨ m.ty.canHold totalPages = false ∨ m.allocator = false ∨ n = 0 then none
  else some (totalPages * m.ty.pageSize.size)

/-- Whether `m` is the absent-memory sentinel: a null pointer and no allocator. -/
def isZero (m : Memory) : Bool := m.bytes.isEmpty && !m.allocator

end Memory

end SpaceWasm
