import SpaceWasm.Error
import SpaceWasm.Lib.Fallible
import Mathlib.Data.List.Basic
import Mathlib.Tactic.DeriveFintype

/-!
# Layouts, allocators and the heap

An allocator is code of the host, a parameter of the model. An `Allocator` gives
out addresses; `Serves` says that its blocks are apart from each other. Linear
memory sees the heap as blocks of bytes: a pointer names a block, and an access
outside the block it points into is undefined, which the model makes a panic.
`Honours` is the contract the documentation of `WasmMemoryAllocator` states.
-/

namespace SpaceWasm

open Fallible

/-- `isize::MAX`. -/
def isizeMax : ℕ := 2 ^ 63 - 1

/-- `core::alloc::Layout`: the alignment is a power of two, and the size rounded
up to it fits an `isize`. -/
structure Layout where
  size : ℕ
  align : ℕ
  align_pow : ∃ k < 64, align = 2 ^ k
  size_le : size + (align - 1) ≤ isizeMax
  deriving DecidableEq

namespace Layout

/-- `Layout::from_size_align`. -/
def fromSizeAlign (size align : ℕ) : Option Layout :=
  if h : (∃ k < 64, align = 2 ^ k) ∧ size + (align - 1) ≤ isizeMax then
    some ⟨size, align, h.1, h.2⟩
  else none

theorem fromSizeAlign_eq_some {size align : ℕ} {l : Layout}
    (h : fromSizeAlign size align = some l) : l.size = size ∧ l.align = align := by
  unfold fromSizeAlign at h
  split at h
  · cases h
    exact ⟨rfl, rfl⟩
  · cases h

theorem align_pos (l : Layout) : 0 < l.align := by
  obtain ⟨k, -, hk⟩ := l.align_pow
  rw [hk]
  exact Nat.two_pow_pos k

end Layout

/-- `trait Allocator`. -/
structure Allocator (β : Type) where
  alloc : Layout → Fallible AllocError β ℕ
  dealloc : ℕ → Layout → β → β

/-- Two ranges of addresses share none. -/
def Apart (a n b m : ℕ) : Prop := a + n ≤ b ∨ b + m ≤ a

/-- The allocator gives out blocks of layout `l` that are aligned, do not wrap the
address space and are apart from the ones it has not got back, `blocks`. -/
structure Allocator.Serves {β : Type} (A : Allocator β) (l : Layout) (blocks : β → List ℕ) :
    Prop where
  alloc : ∀ b, Triple (fun s => s = b) (A.alloc l)
    (fun p s => blocks s = p :: blocks b ∧ p % l.align = 0 ∧ p + l.size ≤ usizeMax ∧
      ∀ q ∈ blocks b, Apart p l.size q l.size)
    (fun _ s => blocks s = blocks b)
  dealloc : ∀ s, ∀ p ∈ blocks s, blocks (A.dealloc p l s) = (blocks s).erase p

/-- `From<AllocError>`. -/
def MemoryError.ofAllocError : AllocError → MemoryError
  | .allocationFailed => .allocationFailed
  | .outOfMemory => .outOfMemory
  | .pageTooSmall => .pageTooSmall
  | .heapPoisoned => .heapPoisoned

/-- The heap: the blocks that pointers point to, and the allocator's own state. -/
structure RawHeap (α : Type) where
  blocks : ℕ → Option (List U8)
  allocator : α

namespace RawHeap

variable {α ε : Type}

/-- Read `n` bytes at `ptr.add(addr)`; `none` is the null pointer. -/
def read (ptr : Option ℕ) (addr n : ℕ) : Fallible ε (RawHeap α) (List U8) := do
  let heap ← get
  let bytes ← unwrap (ptr >>= heap.blocks)
  assert (addr + n ≤ bytes.length)
  pure ((bytes.drop addr).take n)

/-- Write `data` at `ptr.add(addr)`. -/
def write (ptr : Option ℕ) (addr : ℕ) (data : List U8) : Fallible ε (RawHeap α) Unit := do
  let heap ← get
  let p ← unwrap ptr
  let bytes ← unwrap (heap.blocks p)
  assert (addr + data.length ≤ bytes.length)
  let bytes' := bytes.take addr ++ data ++ bytes.drop (addr + data.length)
  set { heap with blocks := Function.update heap.blocks p (some bytes') }

theorem read_of_block {heap : RawHeap α} {p addr n : ℕ} {bytes : List U8}
    (h : heap.blocks p = some bytes) (hn : addr + n ≤ bytes.length) :
    (read (some p) addr n : Fallible ε (RawHeap α) (List U8)) heap =
      .ok ((bytes.drop addr).take n) heap := by
  simp [read, bind_apply, h, assert_of hn]

theorem write_of_block {heap : RawHeap α} {p addr : ℕ} {bytes data : List U8}
    (h : heap.blocks p = some bytes) (hn : addr + data.length ≤ bytes.length) :
    (write (some p) addr data : Fallible ε (RawHeap α) Unit) heap =
      .ok () { heap with
        blocks := Function.update heap.blocks p
          (some (bytes.take addr ++ data ++ bytes.drop (addr + data.length))) } := by
  simp [write, bind_apply, h, assert_of hn]

end RawHeap

/-- `trait WasmMemoryAllocator`. -/
structure WasmMemoryAllocator (α : Type) where
  allocate : Layout → Fallible AllocError (RawHeap α) ℕ
  reallocate : ℕ → Layout → Layout → Fallible AllocError (RawHeap α) ℕ

/-- The documented contract of a `WasmMemoryAllocator`. -/
structure WasmMemoryAllocator.Honours {α : Type} (A : WasmMemoryAllocator α) : Prop where
  /-- A block of the requested size, of any contents. -/
  allocate : ∀ l : Layout, Triple (fun _ => True) (A.allocate l)
    (fun p heap => ∃ bytes, heap.blocks p = some bytes ∧ bytes.length = l.size)
    (fun _ _ => True)
  /-- A larger block that starts with the old contents, or an error that leaves
  the old block where it is. -/
  reallocate : ∀ (p : ℕ) (old new : Layout) (bytes : List U8),
    bytes.length = old.size → old.size ≤ new.size →
    Triple (fun heap => heap.blocks p = some bytes) (A.reallocate p old new)
      (fun q heap => ∃ tail, heap.blocks q = some (bytes ++ tail) ∧
        (bytes ++ tail).length = new.size)
      (fun _ heap => heap.blocks p = some bytes)

end SpaceWasm
