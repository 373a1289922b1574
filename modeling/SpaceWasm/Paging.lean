import SpaceWasm.Alloc

/-!
# The page allocator

Pages taken whole from a backing allocator, each handed out from its start to its
end. The only thing remembered of an allocation is that its page has one more of
them: a page goes back when its count is zero again. `debug` is whether the build
checks the arithmetic on addresses and keeps its debug assertions; without it the
arithmetic wraps.
-/

namespace SpaceWasm

open Fallible

/-- `a + b` on `usize`; `none` is a panic. -/
def usizeAdd (debug : Bool) (a b : ℕ) : Option ℕ :=
  if a + b ≤ usizeMax then some (a + b)
  else if debug then none
  else some ((a + b) % (usizeMax + 1))

/-- `a - b` on `usize`; `none` is a panic. -/
def usizeSub (debug : Bool) (a b : ℕ) : Option ℕ :=
  if b ≤ a then some (a - b)
  else if debug then none
  else some (a + (usizeMax + 1) - b)

structure Page where
  ptr : ℕ
  size : ℕ
  allocated : ℕ
  nAllocations : ℕ
  wasted : ℕ
  deriving DecidableEq

namespace Page

def new (ptr size : ℕ) : Page := ⟨ptr, size, 0, 0, 0⟩

/-- The distance to the next multiple of `align`. -/
def alignmentOffset (startAddress align : ℕ) : ℕ :=
  if startAddress % align = 0 then 0 else align - startAddress % align

/-- Attempt to allocate on the tail end of this page. -/
def alloc (debug : Bool) (layout : Layout) (page : Page) : Option (Option ℕ × Page) := do
  let startAddress ← usizeAdd debug page.ptr page.allocated
  let alignmentOffset := alignmentOffset startAddress layout.align
  let alignedStart ← usizeAdd debug startAddress alignmentOffset
  let alignedOffset ← usizeSub debug alignedStart page.ptr
  let finalOffset ← usizeAdd debug alignedOffset layout.size
  if finalOffset ≤ page.size then do
    let wasted ← usizeAdd debug page.wasted alignmentOffset
    let nAllocations ← usizeAdd debug page.nAllocations 1
    pure (some alignedStart, { page with
      wasted := wasted, allocated := finalOffset, nAllocations := nAllocations })
  else pure (none, page)

/-- `none` when the pointer is not from this page; else whether it was the last. -/
def dealloc (debug : Bool) (ptr : ℕ) (page : Page) : Option (Option Bool × Page) := do
  let pageEnd ← usizeAdd debug page.ptr page.size
  if page.ptr ≤ ptr ∧ ptr < pageEnd then
    -- `assert!(self.n_allocations > 0)`
    if page.nAllocations = 0 then none
    else
      pure (some (decide (page.nAllocations - 1 = 0)),
        { page with nAllocations := page.nAllocations - 1 })
  else pure (none, page)

end Page

/-- `PageAllocatorInner`, over a backing allocator with state `β`. -/
structure PageAllocator (β : Type) where
  pageAllocator : β
  pageSize : ℕ
  pages : List (Option Page)
  poisoned : Bool

namespace PageAllocator

variable {β : Type}

/-- `ALIGNMENT`. -/
def alignment : ℕ := 8

def new (pageAllocator : β) (pageSize maxPages : ℕ) : PageAllocator β :=
  ⟨pageAllocator, pageSize, List.replicate maxPages none, false⟩

/-- A call of the backing allocator. -/
def onBacking {γ : Type} (x : Fallible AllocError β γ) :
    Fallible AllocError (PageAllocator β) γ :=
  zoom (fun s => s.pageAllocator) (fun s b => { s with pageAllocator := b }) x

def setBucket (i : ℕ) (bucket : Option Page) : Fallible AllocError (PageAllocator β) Unit :=
  modify fun s => { s with pages := s.pages.set i bucket }

/-- An empty bucket: allocate the page, and place the allocation there. -/
def allocPage (A : Allocator β) (debug : Bool) (layout : Layout) (i : ℕ) :
    Fallible AllocError (PageAllocator β) ℕ := do
  let s ← get
  let pageLayout ← unwrap (Layout.fromSizeAlign s.pageSize alignment)
  let addr ← onBacking (A.alloc pageLayout)
  match ← unwrap ((Page.new addr s.pageSize).alloc debug layout) with
  | (none, _) => do
      -- All pages are the same size, so this will never work.
      modify fun s => { s with pageAllocator := A.dealloc addr pageLayout s.pageAllocator }
      throw .pageTooSmall
  | (some ptr, page) => do
      setBucket i (some page)
      pure ptr

/-- The loop of `alloc` over the `n` buckets from `i` on. -/
def allocFrom (A : Allocator β) (debug : Bool) (layout : Layout) :
    ℕ → ℕ → Fallible AllocError (PageAllocator β) ℕ
  | 0, _ => throw .outOfMemory
  | n + 1, i => do
      let s ← get
      match ← unwrap s.pages[i]? with
      | some page => do
          let (ptr, page') ← unwrap (page.alloc debug layout)
          setBucket i (some page')
          match ptr with
          | none => allocFrom A debug layout n (i + 1)
          | some ptr => pure ptr
      | none => allocPage A debug layout i

def alloc (A : Allocator β) (debug : Bool) (layout : Layout) :
    Fallible AllocError (PageAllocator β) ℕ := do
  let s ← get
  if layout.size = 0 then throw .allocationFailed
  else if s.poisoned then throw .heapPoisoned
  else allocFrom A debug layout s.pages.length 0

/-- A page lost its last allocation: it goes back to the backing allocator. -/
def dropPage (A : Allocator β) (i : ℕ) (page : Page) :
    Fallible AllocError (PageAllocator β) Unit := do
  let s ← get
  let pageLayout ← unwrap (Layout.fromSizeAlign s.pageSize alignment)
  modify fun s => { s with pageAllocator := A.dealloc page.ptr pageLayout s.pageAllocator }
  setBucket i none

/-- The loop of `dealloc` over the `n` buckets from `i` on. -/
def deallocFrom (A : Allocator β) (debug : Bool) (ptr : ℕ) :
    ℕ → ℕ → Fallible AllocError (PageAllocator β) Unit
  -- `debug_assert!(false, ..)`: the pointer is not owned by any live page.
  | 0, _ => if debug then panic else pure ()
  | n + 1, i => do
      let s ← get
      match ← unwrap s.pages[i]? with
      | some page => do
          let (answer, page') ← unwrap (page.dealloc debug ptr)
          setBucket i (some page')
          match answer with
          | none => deallocFrom A debug ptr n (i + 1)
          | some last => do
              -- Deallocation poisons the heap, until it is empty.
              modify fun s => { s with poisoned := true }
              if last then dropPage A i page'
              modify fun s =>
                if s.pages.all Option.isNone then { s with poisoned := false } else s
      | none => deallocFrom A debug ptr n (i + 1)

def dealloc (A : Allocator β) (debug : Bool) (ptr : ℕ) (_ : Layout) :
    Fallible AllocError (PageAllocator β) Unit := do
  let s ← get
  deallocFrom A debug ptr s.pages.length 0

end PageAllocator

end SpaceWasm
