import SpaceWasm.RawMemory
import Mathlib.Algebra.BigOperators.Intervals
import Mathlib.Algebra.BigOperators.Ring.Finset
import Mathlib.Tactic.Ring

/-!
# Linear memory is a byte array

The specification is a list of bytes and, for every operation, the answers it may
give and the bytes it leaves. `MemoryWorld.Represents` relates the bytes behind a
pointer to the `Memory` the interpreter works on; each operation on the pointer
is the operation on that `Memory`, and `Memory.Valid` is what keeps the length a
number of pages within the limits. The run theorem is about all sequences of
operations from `Memory::new` on.
-/

namespace SpaceWasm

open Fallible

/-! ### Memory types that are accepted -/

/-- What `MemType::read` checks: the limits are `u32`s in order, and no more than
`2 ^ 32` bytes. -/
structure MemType.Valid (ty : MemType) : Prop where
  initial_lt : ty.initialPages < 2 ^ 32
  initial_le : ty.initialPages * ty.pageSize.size ≤ 2 ^ 32
  le_max : ∀ max, ty.maxPages = some max → ty.initialPages ≤ max
  max_le : ∀ max, ty.maxPages = some max → max * ty.pageSize.size ≤ 2 ^ 32

/-- The last checks of `MemType::read`: no limit exceeds the `k` pages that make
`2 ^ 32` bytes. -/
private theorem MemType.returns_limits {min : U32} {max : Option ℕ} {pageSize : MemPageSize}
    {k : ℕ} {b : Bool} (hk : k * pageSize.size = 2 ^ 32)
    (hmin : ∀ m, max = some m → min.toNat ≤ m) (hb : b = false → ∀ m, max = some m → m ≤ k) :
    Returns MemType.Valid
      (if k < min.toNat then throw .memoryTooLarge
        else if b then throw .memoryTooLarge
        else pure ⟨min.toNat, max, pageSize⟩ : ReaderM MemType) := by
  split
  · exact Returns.throw _
  · rename_i hle
    cases b
    · refine Returns.pure ⟨min.isLt, hk ▸ Nat.mul_le_mul_right _ (not_lt.1 hle), hmin, ?_⟩
      intro m hm
      exact hk ▸ Nat.mul_le_mul_right _ (hb rfl m hm)
    · exact Returns.throw _

theorem MemType.returns_valid : Returns MemType.Valid MemType.read := by
  unfold MemType.read
  simp only [pure_bind]
  refine Returns.bind fun flag => Returns.bind fun min => ?_
  -- a branch that does not fail ends in the checks of the limits
  repeat' first
    | exact Returns.throw _
    | exact Returns.throw_bind _ _
    | (refine returns_limits ?_ ?_ ?_ <;> first | rfl | simp_all)
    | refine Returns.bind fun _ => ?_
    | refine Returns.cases (fun _ => ?_) (fun _ => ?_)

theorem MemPageSize.size_pos (p : MemPageSize) : 0 < p.size := by
  cases p <;> simp [MemPageSize.size]

theorem MemType.le_of_canHold {ty : MemType} (hty : ty.Valid) {n : ℕ} (h : ty.canHold n = true) :
    ty.initialPages ≤ n ∧ (∀ max, ty.maxPages = some max → n ≤ max) ∧
      n * ty.pageSize.size ≤ 2 ^ 32 := by
  unfold MemType.canHold at h
  cases hmax : ty.maxPages with
  | none =>
      rw [hmax] at h
      simp only [Bool.and_eq_true, decide_eq_true_eq] at h
      exact ⟨h.2, by simp, h.1⟩
  | some max =>
      rw [hmax] at h
      simp only [Bool.and_eq_true, decide_eq_true_eq] at h
      refine ⟨h.2, ?_, (Nat.mul_le_mul_right _ h.1).trans (hty.max_le max hmax)⟩
      rintro m ⟨⟩
      exact h.1

/-! ### Bytes of a value -/

/-- The `i`-th byte of a value, the lowest first. -/
def leByte (v i : ℕ) : U8 := BitVec.ofNat 8 (v / 256 ^ i)

theorem getElem?_toLeBytes (n v i : ℕ) :
    (toLeBytes n v)[i]? = if i < n then some (leByte v i) else none := by
  induction n generalizing v i with
  | zero => simp [toLeBytes]
  | succ n ih =>
      cases i with
      | zero => simp [toLeBytes, leByte]
      | succ i => simp [toLeBytes, leByte, ih, Nat.div_div_eq_div_mul, pow_succ']

/-- The low `n` bytes of a value depend on the value modulo `256 ^ n`. -/
theorem toLeBytes_mod (n v : ℕ) : toLeBytes n (v % 256 ^ n) = toLeBytes n v := by
  induction n generalizing v with
  | zero => rfl
  | succ n ih =>
      have hlow : BitVec.ofNat 8 (v % 256 ^ (n + 1)) = BitVec.ofNat 8 v := by
        apply BitVec.eq_of_toNat_eq
        simp only [BitVec.toNat_ofNat]
        exact Nat.mod_mod_of_dvd v (Dvd.intro_left (256 ^ n) (pow_succ 256 n).symm)
      have hhigh : v % 256 ^ (n + 1) / 256 = v / 256 % 256 ^ n := by
        rw [pow_succ', Nat.mod_mul_right_div_self]
      rw [toLeBytes, toLeBytes, hlow, hhigh, ih]

/-- A list of bytes has the value of a number in base `256`. -/
theorem fromLeBytes_eq_sum (bs : List U8) :
    fromLeBytes bs = ∑ i ∈ Finset.range bs.length, (bs.getD i 0).toNat * 256 ^ i := by
  induction bs with
  | nil => simp [fromLeBytes]
  | cons b bs ih =>
      rw [fromLeBytes, ih, List.length_cons, Finset.sum_range_succ', Finset.mul_sum, add_comm]
      simp [pow_succ', mul_left_comm]

theorem fromLeBytes_lt (bs : List U8) : fromLeBytes bs < 256 ^ bs.length := by
  induction bs with
  | nil => simp [fromLeBytes]
  | cons b bs ih =>
      have := b.isLt
      simp only [fromLeBytes, List.length_cons, pow_succ]
      omega

/-! ### The specification -/

/-- The widths of the scalar accesses. -/
inductive Width where
  | one | two | four | eight
  deriving DecidableEq

def Width.bytes : Width → ℕ
  | one => 1
  | two => 2
  | four => 4
  | eight => 8

/-- An operation on a linear memory. A scalar access is at the guest address
`base + offset`. -/
inductive MemoryOp where
  | load (w : Width) (base offset : U32)
  | store (w : Width) (base offset : U32) (v : U64)
  | loadBlock (addr len : ℕ)
  | storeBlock (addr : ℕ) (data : List U8)
  | size
  | grow (n : U32)

inductive MemoryAnswer where
  | unit
  | value (v : ℕ)
  | bytes (data : List U8)
  | pages (n : ℕ)

/-- `bytes'` is `bytes` with `data i` at the `n` addresses `a + i`. -/
def Overwritten (bytes : List U8) (a n : ℕ) (data : ℕ → U8) (bytes' : List U8) : Prop :=
  ∀ i, bytes'[i]? = if a ≤ i ∧ i < a + n then some (data (i - a)) else bytes[i]?

/-- What an operation on a byte array may answer, and the bytes it leaves, for
pages of `page` bytes. Only a growth may fail for no reason. -/
def ArrayStep (page : ℕ) (bytes : List U8) :
    MemoryOp → Except MemoryError MemoryAnswer → List U8 → Prop
  | .load w base offset, answer, bytes' =>
      let a := base.toNat + offset.toNat
      bytes' = bytes ∧
        if a + w.bytes ≤ bytes.length then
          answer = .ok (.value (∑ i ∈ Finset.range w.bytes, (bytes.getD (a + i) 0).toNat * 256 ^ i))
        else answer = .error .outOfBounds
  | .store w base offset v, answer, bytes' =>
      let a := base.toNat + offset.toNat
      if a + w.bytes ≤ bytes.length then
        answer = .ok .unit ∧ Overwritten bytes a w.bytes (leByte v.toNat) bytes'
      else answer = .error .outOfBounds ∧ bytes' = bytes
  | .loadBlock a len, answer, bytes' =>
      bytes' = bytes ∧
        if a + len ≤ bytes.length then
          ∃ data, answer = .ok (.bytes data) ∧ data.length = len ∧
            ∀ i < len, data[i]? = bytes[a + i]?
        else answer = .error .outOfBounds
  | .storeBlock a data, answer, bytes' =>
      if a + data.length ≤ bytes.length then
        answer = .ok .unit ∧ Overwritten bytes a data.length (fun i => data.getD i 0) bytes'
      else answer = .error .outOfBounds ∧ bytes' = bytes
  | .size, answer, bytes' => bytes' = bytes ∧ answer = .ok (.pages (bytes.length / page))
  | .grow n, answer, bytes' =>
      answer = .ok (.pages (bytes.length / page)) ∧
          bytes' = bytes ++ List.replicate (n.toNat * page) 0 ∨
        (∃ e, answer = .error e) ∧ bytes' = bytes

/-- A run of the specification: the operations with their answers. -/
inductive ArrayRun (page : ℕ) :
    List U8 → List (MemoryOp × Except MemoryError MemoryAnswer) → List U8 → Prop
  | nil (bytes : List U8) : ArrayRun page bytes [] bytes
  | cons {bytes bytes' bytes'' : List U8} {op : MemoryOp}
      {answer : Except MemoryError MemoryAnswer}
      {trace : List (MemoryOp × Except MemoryError MemoryAnswer)} :
      ArrayStep page bytes op answer bytes' → ArrayRun page bytes' trace bytes'' →
        ArrayRun page bytes ((op, answer) :: trace) bytes''

/-- The limits a declared type puts on the bytes of its memory. -/
structure MemType.Fits (ty : MemType) (bytes : List U8) : Prop where
  pages : ∃ pages, bytes.length = pages * ty.pageSize.size ∧ ty.initialPages ≤ pages ∧
    ∀ max, ty.maxPages = some max → pages ≤ max
  length_le : bytes.length ≤ 2 ^ 32

/-! ### The operations of the code -/

namespace RawMemory

variable {α : Type}

/-- The scalar load of a width. -/
def loadWidth : Width → ℕ → RawM α ℕ
  | .one, addr => BitVec.toNat <$> loadU8 addr
  | .two, addr => BitVec.toNat <$> loadU16 addr
  | .four, addr => BitVec.toNat <$> loadU32 addr
  | .eight, addr => BitVec.toNat <$> loadU64 addr

/-- The scalar store of a width, of the low bits of a value. -/
def storeWidth : Width → ℕ → U64 → RawM α Unit
  | .one, addr, v => storeU8 addr (v.setWidth 8)
  | .two, addr, v => storeU16 addr (v.setWidth 16)
  | .four, addr, v => storeU32 addr (v.setWidth 32)
  | .eight, addr, v => storeU64 addr v

/-- One operation, by the function of `Memory` that does it. -/
def perform (A : WasmMemoryAllocator α) : MemoryOp → RawM α MemoryAnswer
  | .load w base offset => do
      let addr ← ofExcept (Memory.effectiveAddress base offset)
      MemoryAnswer.value <$> loadWidth w addr
  | .store w base offset v => do
      let addr ← ofExcept (Memory.effectiveAddress base offset)
      storeWidth w addr v
      pure .unit
  | .loadBlock addr len => MemoryAnswer.bytes <$> load addr len
  | .storeBlock addr data => do
      store addr data
      pure .unit
  | .size => do
      let n ← pages
      pure (.pages n.toNat)
  | .grow n => do
      let old ← grow A n
      pure (.pages old.toNat)

/-- A sequence of operations with their answers; it goes on after an error.
`none` when an operation panics or does not return. -/
def performAll (A : WasmMemoryAllocator α) : List MemoryOp → MemoryWorld α →
    Option (List (MemoryOp × Except MemoryError MemoryAnswer) × MemoryWorld α)
  | [], s => some ([], s)
  | op :: ops, s => do
      let (answer, s') ← (perform A op s).result
      let (trace, s'') ← performAll A ops s'
      pure ((op, answer) :: trace, s'')

end RawMemory

/-! ### Refinement -/

/-- The world holds the memory `m` behind its pointer. -/
structure MemoryWorld.Represents {α : Type} (s : MemoryWorld α) (m : Memory) : Prop where
  ty_eq : s.memory.ty = m.ty
  allocator_eq : s.memory.allocator = m.allocator
  size_eq : s.memory.size = m.bytes.length
  null_iff : s.memory.ptr = none ↔ m.bytes = []
  block : ∀ p, s.memory.ptr = some p → s.heap.blocks p = some m.bytes

/-- What every operation keeps. -/
structure Memory.Valid (m : Memory) : Prop where
  ty_valid : m.ty.Valid
  fits : m.ty.Fits m.bytes
  pages_lt : m.len / m.ty.pageSize.size < 2 ^ 32

namespace Memory

variable {m : Memory}

theorem checkInBounds_eq (m : Memory) (addr n : ℕ) :
    m.checkInBounds addr n = if addr + n ≤ m.len then .ok () else .error .outOfBounds := by
  unfold checkInBounds
  by_cases h : addr + n ≤ m.len
  · rw [if_pos h, if_neg (by omega)]
  · rw [if_neg h, if_pos (by omega)]

theorem store_eq (m : Memory) (a : ℕ) (data : List U8) :
    m.store a data = if a + data.length ≤ m.len then
      .ok { m with bytes := m.bytes.take a ++ data ++ m.bytes.drop (a + data.length) }
    else .error .outOfBounds := by
  rw [store, m.checkInBounds_eq]
  by_cases h : a + data.length ≤ m.len
  · simp only [if_pos h]
  · simp only [if_neg h]

theorem load_eq (m : Memory) (a n : ℕ) :
    m.load a n = if a + n ≤ m.len then .ok ((m.bytes.drop a).take n)
      else .error .outOfBounds := by
  rw [load, m.checkInBounds_eq]
  by_cases h : a + n ≤ m.len
  · simp only [if_pos h]
  · simp only [if_neg h]

theorem effectiveAddress_eq (base offset : U32) :
    effectiveAddress base offset = .ok (base.toNat + offset.toNat) := by
  have hle : base.toNat + offset.toNat ≤ usizeMax := by
    have h₁ := base.isLt
    have h₂ := offset.isLt
    rw [usizeMax]
    omega
  simp [effectiveAddress, hle]

theorem Valid.size_toNat (h : m.Valid) : m.size.toNat = m.len / m.ty.pageSize.size := by
  rw [size, BitVec.toNat_ofNat, Nat.mod_eq_of_lt h.pages_lt]

theorem Valid.size_mul (h : m.Valid) : m.size.toNat * m.ty.pageSize.size = m.bytes.length := by
  obtain ⟨pages, hlen, -, -⟩ := h.fits.pages
  rw [h.size_toNat, len, hlen, Nat.mul_div_cancel _ m.ty.pageSize.size_pos]

end Memory

section Refinement

variable {α : Type} {s : MemoryWorld α} {m : Memory}

namespace RawMemory

theorem onHeap_of_ok {β : Type} {x : Fallible MemoryError (RawHeap α) β} {b : β} {heap : RawHeap α}
    (h : x s.heap = .ok b heap) : onHeap x s = .ok b { s with heap := heap } :=
  zoom_of_ok h

theorem onHeap_of_error {β : Type} {x : Fallible MemoryError (RawHeap α) β} {e : MemoryError}
    {heap : RawHeap α} (h : x s.heap = .error e heap) :
    onHeap x s = .error e { s with heap := heap } := by
  rw [onHeap, zoom, h]

theorem checkInBounds_apply (h : s.Represents m) (addr n : ℕ) :
    checkInBounds addr n s =
      if addr + n ≤ m.len then .ok () s else .error .outOfBounds s := by
  have hsize : s.memory.size = m.len := h.size_eq
  simp only [checkInBounds, bind_apply, get_apply, hsize]
  by_cases hin : addr + n ≤ m.len
  · rw [if_pos hin, if_neg (by omega), pure_apply]
  · rw [if_neg hin, if_pos (by omega), throw_apply]

/-- In bounds, the pointer is not null and its block holds the bytes. -/
theorem exists_block (h : s.Represents m) {addr n : ℕ} (hn : 0 < n) (hin : addr + n ≤ m.len) :
    ∃ p, s.memory.ptr = some p ∧ s.heap.blocks p = some m.bytes := by
  cases hp : s.memory.ptr with
  | none =>
      rw [Memory.len, h.null_iff.1 hp, List.length_nil] at hin
      omega
  | some p => exact ⟨p, rfl, h.block p hp⟩

theorem read_apply (h : s.Represents m) {addr n : ℕ} (hn : 0 < n) (hin : addr + n ≤ m.len) :
    onHeap (RawHeap.read s.memory.ptr addr n) s = .ok ((m.bytes.drop addr).take n) s := by
  obtain ⟨p, hp, hblock⟩ := exists_block h hn hin
  rw [hp]
  exact onHeap_of_ok (RawHeap.read_of_block hblock hin)

/-- A write in bounds represents the memory with these bytes replaced. -/
theorem write_apply (h : s.Represents m) {addr : ℕ} {data : List U8} (hn : 0 < data.length)
    (hin : addr + data.length ≤ m.len) :
    ∃ s', onHeap (RawHeap.write s.memory.ptr addr data) s = .ok () s' ∧
      s'.Represents { m with
        bytes := m.bytes.take addr ++ data ++ m.bytes.drop (addr + data.length) } := by
  obtain ⟨p, hp, hblock⟩ := exists_block h hn hin
  rw [hp]
  refine ⟨_, onHeap_of_ok (RawHeap.write_of_block hblock hin),
    ⟨h.ty_eq, h.allocator_eq, ?_, ?_, ?_⟩⟩
  · have := h.size_eq
    simp only [Memory.len] at hin
    simp
    omega
  · have hne : data ≠ [] := List.ne_nil_of_length_pos hn
    simp [hp, hne]
  · intro q hq
    obtain rfl : p = q := by simpa [hp] using hq
    simp

/-- A scalar load is the one of the represented memory. -/
theorem loadLe_apply (h : s.Represents m) {n : ℕ} (hn : 0 < n) (addr : ℕ) :
    loadLe n addr s = ofExcept (m.loadLe n addr) s := by
  rw [loadLe, bind_apply, checkInBounds_apply h, Memory.loadLe, Memory.load_eq]
  by_cases hin : addr + n ≤ m.len
  · simp only [if_pos hin, ofExcept_ok, pure_apply]
    rw [bind_of_ok (get_apply s), bind_of_ok (read_apply h hn hin)]
    rfl
  · simp only [if_neg hin, ofExcept_error, throw_apply]

theorem load_apply (h : s.Represents m) (addr n : ℕ) :
    load addr n s = ofExcept (m.load addr n) s := by
  rw [load, bind_apply, checkInBounds_apply h, Memory.load_eq]
  by_cases hin : addr + n ≤ m.len
  · simp only [if_pos hin, ofExcept_ok, pure_apply]
    rcases Nat.eq_zero_or_pos n with hn | hn
    · simp [hn]
    · rw [if_neg hn.ne', bind_of_ok (get_apply s), read_apply h hn hin]
  · simp only [if_neg hin, ofExcept_error, throw_apply]

/-- A store is the one of the represented memory; a failing one changes nothing. -/
theorem store_apply (h : s.Represents m) (addr : ℕ) (data : List U8) :
    match m.store addr data with
    | .ok m' => ∃ s', store addr data s = .ok () s' ∧ s'.Represents m'
    | .error e => store addr data s = .error e s := by
  rw [store, bind_apply, checkInBounds_apply h, Memory.store_eq]
  by_cases hin : addr + data.length ≤ m.len
  · simp only [if_pos hin]
    cases data with
    | nil => exact ⟨s, rfl, by simpa using h⟩
    | cons b data =>
        rw [if_neg (by simp), bind_of_ok (get_apply s)]
        exact write_apply h (by simp) hin
  · simp only [if_neg hin]

theorem storeLe_apply (h : s.Represents m) {n : ℕ} (hn : 0 < n) (addr v : ℕ) :
    match m.storeLe n addr v with
    | .ok m' => ∃ s', storeLe n addr v s = .ok () s' ∧ s'.Represents m'
    | .error e => storeLe n addr v s = .error e s := by
  rw [storeLe, bind_apply, checkInBounds_apply h, Memory.storeLe, Memory.store_eq,
    toLeBytes_length]
  by_cases hin : addr + n ≤ m.len
  · simp only [if_pos hin]
    rw [bind_of_ok (get_apply s)]
    have hlen : (toLeBytes n v).length = n := toLeBytes_length n v
    have := write_apply h (hlen.symm ▸ hn) (hlen.symm ▸ hin)
    rwa [hlen] at this
  · simp only [if_neg hin]

theorem pages_apply (h : s.Represents m) : pages s = .ok m.size s := by
  simp [pages, bind_apply, Memory.size, Memory.len, h.size_eq, h.ty_eq]

/-- The allocator's answer: a block that starts with the old bytes, or an error
that leaves the memory as it is. -/
theorem enlarge_apply {A : WasmMemoryAllocator α} (hA : A.Honours) (h : s.Represents m)
    {new : Layout} (hle : m.bytes.length ≤ new.size) :
    (∃ p s' tail, enlarge A s.memory new s = .ok p s' ∧
      s'.heap.blocks p = some (m.bytes ++ tail) ∧ (m.bytes ++ tail).length = new.size) ∨
    ∃ e s', enlarge A s.memory new s = .error e s' ∧ s'.Represents m := by
  unfold enlarge
  rw [h.size_eq]
  cases hp : s.memory.ptr with
  | none =>
      have hnil : m.bytes = [] := h.null_iff.1 hp
      rw [if_pos (by simp [hnil])]
      have ht := hA.allocate new s.heap trivial
      cases hr : A.allocate new s.heap with
      | ok p heap =>
          rw [hr] at ht
          obtain ⟨bytes, hbytes, hlen⟩ := ht
          refine Or.inl ⟨p, _, bytes, onHeap_of_ok (mapError_eq_ok.2 hr), ?_⟩
          rw [hnil]
          exact ⟨hbytes, hlen⟩
      | error e heap =>
          refine Or.inr ⟨_, _, onHeap_of_error (mapError_of_error hr), h.ty_eq, h.allocator_eq,
            h.size_eq, h.null_iff, ?_⟩
          simp [hp]
      | panic => rw [hr] at ht; exact (ht trivial).elim
      | diverge => rw [hr] at ht; exact ht.elim
  | some p =>
      have hne : m.bytes.length ≠ 0 := by
        intro hnil
        rw [h.null_iff.2 (List.length_eq_zero_iff.1 hnil)] at hp
        cases hp
      rw [if_neg hne, okOr_some, pure_bind]
      cases hold : Layout.fromSizeAlign m.bytes.length s.memory.ty.pageSize.alignment with
      | none => exact Or.inr ⟨_, s, rfl, h⟩
      | some old =>
          have hlen := (Layout.fromSizeAlign_eq_some hold).1
          rw [okOr_some, pure_bind]
          have ht := hA.reallocate p old new m.bytes hlen.symm (hlen ▸ hle) s.heap (h.block p hp)
          cases hr : A.reallocate p old new s.heap with
          | ok q heap =>
              rw [hr] at ht
              obtain ⟨tail, htail⟩ := ht
              exact Or.inl ⟨q, _, tail, onHeap_of_ok (mapError_eq_ok.2 hr), htail⟩
          | error e heap =>
              rw [hr] at ht
              refine Or.inr ⟨_, _, onHeap_of_error (mapError_of_error hr), h.ty_eq,
                h.allocator_eq, h.size_eq, h.null_iff, ?_⟩
              intro q hq
              obtain rfl : p = q := by simpa [hp] using hq
              exact ht
          | panic => rw [hr] at ht; exact (ht trivial).elim
          | diverge => rw [hr] at ht; exact ht.elim

/-- After an allocation that holds the old bytes, the growth is committed. -/
theorem commit_apply {r : RawMemory} {p newSize : ℕ} {tail : List U8} (hty : r.ty = m.ty)
    (hallocator : r.allocator = m.allocator) (hsize : r.size = m.bytes.length)
    (hblock : s.heap.blocks p = some (m.bytes ++ tail))
    (hlen : (m.bytes ++ tail).length = newSize) (hpos : m.bytes.length < newSize) :
    ∃ s', commit r p newSize s = .ok () s' ∧ s'.Represents
      { m with bytes := m.bytes ++ List.replicate (newSize - m.bytes.length) 0 } := by
  have hadd : m.bytes.length + (newSize - m.bytes.length) = newSize := by omega
  have hroom : m.bytes.length + (List.replicate (newSize - m.bytes.length) (0 : U8)).length ≤
      (m.bytes ++ tail).length := by
    rw [List.length_replicate, hadd, hlen]
  have hwrite := @RawHeap.write_of_block _ MemoryError _ _ _ _ _ hblock hroom
  rw [List.length_replicate, hadd, ← hlen, List.drop_length, List.append_nil, hlen,
    List.take_left] at hwrite
  rw [commit, hsize]
  refine ⟨⟨⟨some p, newSize, r.ty, r.allocator⟩, _⟩,
    bind_of_ok (onHeap_of_ok hwrite), ⟨hty, hallocator, ?_, ?_, ?_⟩⟩
  · simp [hadd]
  · have hne : newSize - m.bytes.length ≠ 0 := by omega
    simp [hne]
  · rintro q ⟨⟩
    simp

/-- `grow` is the one of the represented memory, for some answer of the
allocator; a failing growth changes nothing. -/
theorem grow_apply {A : WasmMemoryAllocator α} (hA : A.Honours) (h : s.Represents m)
    (hm : m.Valid) (n : U32) :
    ∃ allocated, match m.grow n allocated with
      | .ok (old, m') => ∃ s', grow A n s = .ok old s' ∧ s'.Represents m'
      | .error _ => ∃ e s', grow A n s = .error e s' ∧ s'.Represents m := by
  rw [grow, bind_of_ok (pages_apply h), bind_of_ok (get_apply s)]
  simp only [h.ty_eq, h.allocator_eq, Memory.grow]
  by_cases hover : 2 ^ 32 ≤ m.size.toNat + n.toNat
  · refine ⟨false, ?_⟩
    rw [if_pos hover, if_pos hover]
    exact ⟨_, s, rfl, h⟩
  by_cases hhold : m.ty.canHold (m.size.toNat + n.toNat) = false
  · refine ⟨false, ?_⟩
    rw [if_neg hover, if_neg hover, if_pos hhold, if_pos hhold]
    exact ⟨_, s, rfl, h⟩
  by_cases hallocator : m.allocator = false
  · refine ⟨false, ?_⟩
    rw [if_neg hover, if_neg hover, if_neg hhold, if_neg hhold, if_pos hallocator,
      if_pos hallocator]
    exact ⟨_, s, rfl, h⟩
  by_cases hn : n = 0
  · refine ⟨false, ?_⟩
    rw [if_neg hover, if_neg hover, if_neg hhold, if_neg hhold, if_neg hallocator,
      if_neg hallocator, if_pos hn, if_pos hn]
    exact ⟨s, rfl, h⟩
  simp only [if_neg hover, if_neg hhold, if_neg hallocator, if_neg hn]
  have hlt : m.bytes.length < (m.size.toNat + n.toNat) * m.ty.pageSize.size := by
    have hpos : 0 < n.toNat := by
      rw [Nat.pos_iff_ne_zero]
      exact fun h0 => hn (BitVec.eq_of_toNat_eq h0)
    rw [Nat.add_mul, hm.size_mul]
    exact Nat.lt_add_of_pos_right (Nat.mul_pos hpos m.ty.pageSize.size_pos)
  by_cases husize : usizeMax < (m.size.toNat + n.toNat) * m.ty.pageSize.size
  · refine ⟨false, ?_⟩
    rw [if_pos husize]
    exact ⟨_, s, rfl, h⟩
  rw [if_neg husize]
  cases hnew : Layout.fromSizeAlign ((m.size.toNat + n.toNat) * m.ty.pageSize.size)
      m.ty.pageSize.alignment with
  | none => exact ⟨false, _, s, rfl, h⟩
  | some new =>
      have hsize := (Layout.fromSizeAlign_eq_some hnew).1
      rw [okOr_some, pure_bind]
      obtain ⟨p, t, tail, ht, hblock, hlen⟩ | ⟨e, t, ht, hrep⟩ :=
        enlarge_apply hA h (hsize ▸ hlt.le)
      · refine ⟨true, ?_⟩
        obtain ⟨s', hs', hrep⟩ := commit_apply h.ty_eq h.allocator_eq h.size_eq hblock
          (hlen.trans hsize) hlt
        exact ⟨s', by rw [bind_of_ok ht, bind_of_ok hs']; rfl, hrep⟩
      · exact ⟨false, e, t, bind_of_error ht, hrep⟩

theorem new_represents {A : WasmMemoryAllocator α} (hA : A.Honours) {ty : MemType}
    {heap heap' : RawHeap α} {r : RawMemory} (h : new A ty heap = .ok r heap') :
    MemoryWorld.Represents ⟨r, heap'⟩ (Memory.ofType ty) := by
  unfold new at h
  simp only [ite_apply'] at h
  by_cases husize : usizeMax < ty.initialPages * ty.pageSize.size
  · rw [if_pos husize] at h
    cases h
  rw [if_neg husize] at h
  by_cases hzero : ty.initialPages * ty.pageSize.size = 0
  · rw [if_pos hzero, pure_eq_ok] at h
    obtain ⟨rfl, rfl⟩ := h
    have hnil : (Memory.ofType ty).bytes = [] := by
      simp [Memory.ofType, Memory.initialSize, hzero]
    exact ⟨rfl, rfl, by simp [hnil], by simp [hnil], by simp⟩
  · rw [if_neg hzero] at h
    obtain ⟨layout, t, hok, h⟩ := bind_eq_ok.1 h
    obtain ⟨hlayout, rfl⟩ := okOr_eq_ok.1 hok
    obtain ⟨p, t, hp, h⟩ := bind_eq_ok.1 h
    obtain ⟨bytes, hbytes, hlen⟩ := (hA.allocate layout).ok trivial hp
    rw [(Layout.fromSizeAlign_eq_some hlayout).1] at hlen
    obtain ⟨⟨⟩, t', hw, h⟩ := bind_eq_ok.1 h
    obtain ⟨rfl, rfl⟩ := pure_eq_ok.1 h
    rw [RawHeap.write_of_block hbytes (by simp [hlen])] at hw
    cases hw
    refine ⟨rfl, rfl, ?_, ?_, ?_⟩
    · simp [Memory.ofType, Memory.initialSize]
    · simp [Memory.ofType, Memory.initialSize, hzero]
    · rintro q ⟨⟩
      simp [Memory.ofType, Memory.initialSize, ← hlen]

end RawMemory

/-! ### One step of the specification -/

theorem overwritten_splice {bytes data : List U8} {a : ℕ}
    (h : a + data.length ≤ bytes.length) (f : ℕ → U8)
    (hf : ∀ i < data.length, data[i]? = some (f i)) :
    Overwritten bytes a data.length f
      (bytes.take a ++ data ++ bytes.drop (a + data.length)) := by
  intro i
  have hlen : (bytes.take a).length = a := by
    rw [List.length_take]
    omega
  by_cases hlow : i < a
  · rw [if_neg (by omega), List.append_assoc, List.getElem?_append_left (by omega),
      List.getElem?_take_of_lt hlow]
  by_cases hmid : i < a + data.length
  · rw [if_pos ⟨by omega, hmid⟩, List.append_assoc, List.getElem?_append_right (by omega), hlen,
      List.getElem?_append_left (by omega), hf _ (by omega)]
  · rw [if_neg (by omega), List.getElem?_append_right (by rw [List.length_append]; omega),
      List.length_append, hlen, List.getElem?_drop]
    congr 1
    omega

theorem MemType.Fits.of_length {ty : MemType} {bytes bytes' : List U8} (h : ty.Fits bytes)
    (hlen : bytes'.length = bytes.length) : ty.Fits bytes' :=
  ⟨hlen ▸ h.pages, hlen ▸ h.length_le⟩

theorem Memory.Valid.of_length {bytes : List U8} (h : m.Valid)
    (hlen : bytes.length = m.bytes.length) : Memory.Valid { m with bytes := bytes } :=
  ⟨h.ty_valid, h.fits.of_length hlen, by
    have := h.pages_lt
    simpa [Memory.len, hlen] using this⟩

theorem Memory.loadLe_eq (m : Memory) (n a : ℕ) :
    m.loadLe n a = if a + n ≤ m.len then
      .ok (∑ i ∈ Finset.range n, (m.bytes.getD (a + i) 0).toNat * 256 ^ i)
    else .error .outOfBounds := by
  rw [Memory.loadLe, Memory.load_eq]
  by_cases hin : a + n ≤ m.len
  · have hlen : ((m.bytes.drop a).take n).length = n := by
      rw [Memory.len] at hin
      rw [List.length_take, List.length_drop]
      omega
    simp only [if_pos hin]
    rw [fromLeBytes_eq_sum, hlen]
    congr 1
    refine Finset.sum_congr rfl fun i hi => ?_
    rw [List.getD_eq_getElem?_getD, List.getElem?_take_of_lt (Finset.mem_range.1 hi),
      List.getElem?_drop, ← List.getD_eq_getElem?_getD]
  · simp only [if_neg hin]

theorem Memory.loadLe_lt {n a v : ℕ} (h : m.loadLe n a = .ok v) : v < 256 ^ n := by
  rw [Memory.loadLe, Memory.load_eq] at h
  by_cases hin : a + n ≤ m.len
  · rw [if_pos hin] at h
    cases h
    have hlen : ((m.bytes.drop a).take n).length = n := by
      rw [Memory.len] at hin
      rw [List.length_take, List.length_drop]
      omega
    simpa [hlen] using fromLeBytes_lt ((m.bytes.drop a).take n)
  · rw [if_neg hin] at h
    cases h

namespace RawMemory

/-- A scalar load of any width reads the bytes of the represented memory. -/
theorem loadWidth_apply (h : s.Represents m) (w : Width) (addr : ℕ) :
    loadWidth w addr s = ofExcept (m.loadLe w.bytes addr) s := by
  have key : ∀ n k, 256 ^ n = 2 ^ k → 0 < n →
      (BitVec.toNat <$> BitVec.ofNat k <$> loadLe n addr : RawM α ℕ) s =
        ofExcept (m.loadLe n addr) s := by
    intro n k hk hn
    rw [map_eq_pure_bind, map_eq_pure_bind, bind_assoc, bind_apply, loadLe_apply h hn]
    cases hv : m.loadLe n addr with
    | error e => rfl
    | ok v =>
        have hlt := Memory.loadLe_lt hv
        simp [Nat.mod_eq_of_lt (hk ▸ hlt)]
  cases w
  · exact key 1 8 rfl (by decide)
  · exact key 2 16 rfl (by decide)
  · exact key 4 32 rfl (by decide)
  · exact key 8 64 rfl (by decide)

theorem storeWidth_eq (w : Width) (addr : ℕ) (v : U64) :
    (storeWidth w addr v : RawM α Unit) = storeLe w.bytes addr v.toNat := by
  have key : ∀ n v, (storeLe n addr (v % 256 ^ n) : RawM α Unit) = storeLe n addr v := by
    intro n v
    simp only [storeLe, toLeBytes_mod]
  cases w
  · simpa [storeWidth, storeU8, Width.bytes] using key 1 v.toNat
  · simpa [storeWidth, storeU16, Width.bytes] using key 2 v.toNat
  · simpa [storeWidth, storeU32, Width.bytes] using key 4 v.toNat
  · rfl

end RawMemory

theorem splice_length {bytes data : List U8} {a : ℕ} (h : a + data.length ≤ bytes.length) :
    (bytes.take a ++ data ++ bytes.drop (a + data.length)).length = bytes.length := by
  simp
  omega

namespace Memory

/-- What `store` leaves is the specification of a block store. -/
theorem store_ok {m' : Memory} {a : ℕ} {data : List U8} (h : m.store a data = .ok m')
    (f : ℕ → U8) (hf : ∀ i < data.length, data[i]? = some (f i)) :
    a + data.length ≤ m.bytes.length ∧ Overwritten m.bytes a data.length f m'.bytes ∧
      m'.ty = m.ty ∧ (m.Valid → m'.Valid) := by
  rw [store_eq] at h
  by_cases hin : a + data.length ≤ m.len
  · rw [if_pos hin] at h
    cases h
    exact ⟨hin, overwritten_splice hin f hf, rfl, fun hm => hm.of_length (splice_length hin)⟩
  · rw [if_neg hin] at h
    cases h

theorem store_error {e : MemoryError} {a : ℕ} {data : List U8}
    (h : m.store a data = .error e) :
    e = .outOfBounds ∧ ¬a + data.length ≤ m.bytes.length := by
  rw [store_eq] at h
  by_cases hin : a + data.length ≤ m.len
  · rw [if_pos hin] at h
    cases h
  · rw [if_neg hin] at h
    cases h
    exact ⟨rfl, hin⟩

/-- A granted growth appends zero pages, within the limits. -/
theorem grow_ok {n old : U32} {allocated : Bool} {m' : Memory} (hm : m.Valid)
    (h : m.grow n allocated = .ok (old, m')) :
    old = m.size ∧ m'.ty = m.ty ∧ m'.Valid ∧
      m'.bytes = m.bytes ++ List.replicate (n.toNat * m.ty.pageSize.size) 0 := by
  simp only [grow] at h
  by_cases hover : 2 ^ 32 ≤ m.size.toNat + n.toNat
  · rw [if_pos hover] at h
    cases h
  by_cases hhold : m.ty.canHold (m.size.toNat + n.toNat) = false
  · rw [if_neg hover, if_pos hhold] at h
    cases h
  by_cases hallocator : m.allocator = false
  · rw [if_neg hover, if_neg hhold, if_pos hallocator] at h
    cases h
  rw [if_neg hover, if_neg hhold, if_neg hallocator] at h
  by_cases hn : n = 0
  · rw [if_pos hn] at h
    cases h
    exact ⟨rfl, rfl, hm, by simp [hn]⟩
  by_cases hallocated : allocated = false
  · rw [if_neg hn, if_pos hallocated] at h
    cases h
  rw [if_neg hn, if_neg hallocated] at h
  cases h
  have hsub : (m.size.toNat + n.toNat) * m.ty.pageSize.size - m.len =
      n.toNat * m.ty.pageSize.size := by
    rw [Nat.add_mul, hm.size_mul, len, Nat.add_sub_cancel_left]
  have hlen : (m.bytes ++ List.replicate
      ((m.size.toNat + n.toNat) * m.ty.pageSize.size - m.len) (0 : U8)).length =
      (m.size.toNat + n.toNat) * m.ty.pageSize.size := by
    rw [hsub, List.length_append, List.length_replicate, ← hm.size_mul, Nat.add_mul]
  obtain ⟨hmin, hmax, hbytes⟩ := MemType.le_of_canHold hm.ty_valid (by simpa using hhold)
  refine ⟨rfl, rfl, ⟨hm.ty_valid, ⟨⟨_, hlen, hmin, hmax⟩, hlen.trans_le hbytes⟩, ?_⟩, by rw [hsub]⟩
  rw [len, hlen, Nat.mul_div_cancel _ m.ty.pageSize.size_pos]
  exact not_le.1 hover

theorem ofType_valid {ty : MemType} (h : ty.Valid) : (ofType ty).Valid := by
  have hlen : (ofType ty).bytes.length = ty.initialPages * ty.pageSize.size := by
    simp [ofType, initialSize]
  refine ⟨h, ⟨⟨_, hlen, le_rfl, h.le_max⟩, hlen ▸ h.initial_le⟩, ?_⟩
  rw [len, hlen, ofType, Nat.mul_div_cancel _ ty.pageSize.size_pos]
  exact h.initial_lt

end Memory

namespace RawMemory

variable {A : WasmMemoryAllocator α}

/-- `perform` does one step of the specification on what `s` and `m` hold, and
keeps what the next one needs. -/
def Steps (A : WasmMemoryAllocator α) (s : MemoryWorld α) (m : Memory) (op : MemoryOp) : Prop :=
  ∃ answer s' m', (perform A op s).result = some (answer, s') ∧
    ArrayStep m.ty.pageSize.size m.bytes op answer m'.bytes ∧
    s'.Represents m' ∧ m'.Valid ∧ m'.ty = m.ty

theorem steps_load (h : s.Represents m) (hm : m.Valid) (w : Width) (base offset : U32) :
    Steps A s m (.load w base offset) := by
  refine ⟨(m.loadLe w.bytes (base.toNat + offset.toNat)).map .value, s, m, ?_, ⟨rfl, ?_⟩,
    h, hm, rfl⟩
  · rw [perform, Memory.effectiveAddress_eq, ofExcept_ok, pure_bind, map_eq_pure_bind,
      bind_apply, loadWidth_apply h]
    cases m.loadLe w.bytes (base.toNat + offset.toNat) <;> rfl
  · rw [Memory.loadLe_eq, Memory.len]
    split <;> rfl

theorem steps_loadBlock (h : s.Represents m) (hm : m.Valid) (a n : ℕ) :
    Steps A s m (.loadBlock a n) := by
  refine ⟨(m.load a n).map .bytes, s, m, ?_, ⟨rfl, ?_⟩, h, hm, rfl⟩
  · rw [perform, map_eq_pure_bind, bind_apply, load_apply h]
    cases m.load a n <;> rfl
  · rw [Memory.load_eq, Memory.len]
    split
    · refine ⟨_, rfl, ?_, ?_⟩
      · rw [List.length_take, List.length_drop]
        omega
      · intro i hi
        rw [List.getElem?_take_of_lt hi, List.getElem?_drop]
    · rfl

theorem steps_store (h : s.Represents m) (hm : m.Valid) (w : Width) (base offset : U32)
    (v : U64) : Steps A s m (.store w base offset v) := by
  have hw : 0 < w.bytes := by cases w <;> decide
  have hstore := storeLe_apply h hw (base.toNat + offset.toNat) v.toNat
  have hbyte : ∀ i < (toLeBytes w.bytes v.toNat).length,
      (toLeBytes w.bytes v.toNat)[i]? = some (leByte v.toNat i) := by
    intro i hi
    rw [toLeBytes_length] at hi
    rw [getElem?_toLeBytes, if_pos hi]
  cases hm' : m.storeLe w.bytes (base.toNat + offset.toNat) v.toNat with
  | ok m' =>
      rw [hm'] at hstore
      obtain ⟨s', hs', hrep⟩ := hstore
      obtain ⟨hin, hover, hty, hvalid⟩ := Memory.store_ok hm' _ hbyte
      rw [toLeBytes_length] at hin hover
      refine ⟨.ok .unit, s', m', ?_, ?_, hrep, hvalid hm, hty⟩
      · rw [perform, Memory.effectiveAddress_eq, ofExcept_ok, pure_bind, storeWidth_eq,
          bind_of_ok hs']
        rfl
      · simp only [ArrayStep]
        rw [if_pos hin]
        exact ⟨trivial, hover⟩
  | error e =>
      rw [hm'] at hstore
      obtain ⟨rfl, hin⟩ := Memory.store_error hm'
      rw [toLeBytes_length] at hin
      refine ⟨.error .outOfBounds, s, m, ?_, ?_, h, hm, rfl⟩
      · rw [perform, Memory.effectiveAddress_eq, ofExcept_ok, pure_bind, storeWidth_eq,
          bind_of_error hstore]
        rfl
      · simp [ArrayStep, hin]

theorem steps_storeBlock (h : s.Represents m) (hm : m.Valid) (a : ℕ) (data : List U8) :
    Steps A s m (.storeBlock a data) := by
  have hstore := store_apply h a data
  have hbyte : ∀ i < data.length, data[i]? = some (data.getD i 0) := by
    intro i hi
    simp [List.getD_eq_getElem?_getD, hi]
  cases hm' : m.store a data with
  | ok m' =>
      rw [hm'] at hstore
      obtain ⟨s', hs', hrep⟩ := hstore
      obtain ⟨hin, hover, hty, hvalid⟩ := Memory.store_ok hm' _ hbyte
      refine ⟨.ok .unit, s', m', ?_, ?_, hrep, hvalid hm, hty⟩
      · rw [perform, bind_of_ok hs']
        rfl
      · simp only [ArrayStep]
        rw [if_pos hin]
        exact ⟨trivial, hover⟩
  | error e =>
      rw [hm'] at hstore
      obtain ⟨rfl, hin⟩ := Memory.store_error hm'
      refine ⟨.error .outOfBounds, s, m, ?_, ?_, h, hm, rfl⟩
      · rw [perform, bind_of_error hstore]
        rfl
      · simp [ArrayStep, hin]

theorem steps_size (h : s.Represents m) (hm : m.Valid) : Steps A s m .size := by
  refine ⟨.ok (.pages m.size.toNat), s, m, ?_, ⟨rfl, ?_⟩, h, hm, rfl⟩
  · rw [perform, bind_of_ok (pages_apply h)]
    rfl
  · rw [hm.size_toNat, Memory.len]

theorem steps_grow (hA : A.Honours) (h : s.Represents m) (hm : m.Valid) (n : U32) :
    Steps A s m (.grow n) := by
  obtain ⟨allocated, hgrow⟩ := grow_apply hA h hm n
  cases hm' : m.grow n allocated with
  | ok result =>
      obtain ⟨old, m'⟩ := result
      rw [hm'] at hgrow
      obtain ⟨s', hs', hrep⟩ := hgrow
      obtain ⟨rfl, hty, hvalid, hbytes⟩ := Memory.grow_ok hm hm'
      refine ⟨.ok (.pages m.size.toNat), s', m', ?_, Or.inl ⟨?_, hbytes⟩, hrep, hvalid, hty⟩
      · rw [perform, bind_of_ok hs']
        rfl
      · rw [hm.size_toNat, Memory.len]
  | error e =>
      rw [hm'] at hgrow
      obtain ⟨e', s', hs', hrep⟩ := hgrow
      refine ⟨.error e', s', m, ?_, Or.inr ⟨⟨e', rfl⟩, rfl⟩, hrep, hm, rfl⟩
      rw [perform, bind_of_error hs']
      rfl

theorem perform_steps (hA : A.Honours) (h : s.Represents m) (hm : m.Valid) (op : MemoryOp) :
    Steps A s m op := by
  cases op with
  | load w base offset => exact steps_load h hm w base offset
  | store w base offset v => exact steps_store h hm w base offset v
  | loadBlock a n => exact steps_loadBlock h hm a n
  | storeBlock a data => exact steps_storeBlock h hm a data
  | size => exact steps_size h hm
  | grow n => exact steps_grow hA h hm n

theorem performAll_run (hA : A.Honours) (h : s.Represents m) (hm : m.Valid)
    (ops : List MemoryOp) :
    ∃ trace s' m', performAll A ops s = some (trace, s') ∧ trace.map Prod.fst = ops ∧
      ArrayRun m.ty.pageSize.size m.bytes trace m'.bytes ∧ s'.Represents m' ∧ m'.Valid ∧
      m'.ty = m.ty := by
  induction ops generalizing s m with
  | nil => exact ⟨[], s, m, rfl, rfl, ArrayRun.nil _, h, hm, rfl⟩
  | cons op ops ih =>
      obtain ⟨answer, s', m', hop, hstep, hrep, hvalid, hty⟩ := perform_steps hA h hm op
      obtain ⟨trace, s'', m'', hrun, hops, harray, hrep', hvalid', hty'⟩ := ih hrep hvalid
      refine ⟨(op, answer) :: trace, s'', m'', ?_, ?_, ?_, hrep', hvalid', hty'.trans hty⟩
      · simp [performAll, hop, hrun]
      · rw [List.map_cons, hops]
      · exact ArrayRun.cons hstep (hty ▸ harray)

theorem getSlice_apply (h : s.Represents m) : getSlice s = .ok m.bytes s := by
  rw [getSlice, bind_of_ok (get_apply s)]
  cases hp : s.memory.ptr with
  | none => simp [h.null_iff.1 hp]
  | some p =>
      rw [h.size_eq]
      have hread := @RawHeap.read_of_block _ MemoryError _ _ _ _ _ (h.block p hp)
        (Nat.le_of_eq (Nat.zero_add m.bytes.length))
      rw [List.drop_zero, List.take_length] at hread
      exact onHeap_of_ok hread

end RawMemory

end Refinement

/-- A memory of any type the decoder accepts is a little-endian byte array of
zeros at first, whose length stays a number of pages within the limits of its
type, over any sequence of operations. -/
theorem memory_refines_byteArray {α : Type} {A : WasmMemoryAllocator α} (hA : A.Honours)
    {r r' : Reader} {ty : MemType} (hty : MemType.read r = .ok ty r') {heap heap' : RawHeap α}
    {memory : RawMemory} (hnew : RawMemory.new A ty heap = .ok memory heap')
    (ops : List MemoryOp) :
    ∃ trace s bytes, RawMemory.performAll A ops ⟨memory, heap'⟩ = some (trace, s) ∧
      trace.map Prod.fst = ops ∧
      ArrayRun ty.pageSize.size (List.replicate (ty.initialPages * ty.pageSize.size) 0) trace
        bytes ∧
      RawMemory.getSlice s = .ok bytes s ∧ ty.Fits bytes := by
  have hvalid := Memory.ofType_valid (MemType.returns_valid r ty r' hty)
  obtain ⟨trace, s, m, hrun, hops, harray, hrep, hm, hmty⟩ :=
    RawMemory.performAll_run hA (RawMemory.new_represents hA hnew) hvalid ops
  obtain rfl : m.ty = ty := hmty
  exact ⟨trace, s, m.bytes, hrun, hops, harray, RawMemory.getSlice_apply hrep, hm.fits⟩

/-! ### An allocator that honours the contract -/

/-- Every block is new; a larger one takes the bytes of the old. -/
def freshAllocator : WasmMemoryAllocator ℕ where
  allocate l := do
    let heap ← get
    let p := heap.allocator
    set ⟨Function.update heap.blocks p (some (List.replicate l.size 0)), p + 1⟩
    pure p
  reallocate p old new := do
    let heap ← get
    let bytes ← unwrap (heap.blocks p)
    let q := heap.allocator
    let bytes' := bytes ++ List.replicate (new.size - old.size) 0
    set ⟨Function.update heap.blocks q (some bytes'), q + 1⟩
    pure q

theorem freshAllocator_honours : freshAllocator.Honours where
  allocate l heap _ := by
    refine ⟨List.replicate l.size 0, ?_, List.length_replicate⟩
    simp
  reallocate p old new bytes hlen hle heap hblock := by
    simp only [freshAllocator, bind_apply, get_apply, hblock, unwrap_some, pure_apply, set_apply]
    refine ⟨List.replicate (new.size - old.size) 0, by simp, ?_⟩
    rw [List.length_append, List.length_replicate, hlen, Nat.add_sub_cancel' hle]

/-- The type of a memory of four pages of one byte, at most eight. -/
def smallMemType : List U8 := [0x09, 0x04, 0x08, 0x00]

def smallMemoryOps : List MemoryOp :=
  [.store .two 1 2 0x1234, .grow 3, .load .four 1 2, .load .eight 0 0, .grow 2]

theorem smallMemory_refines_byteArray : ∃ memory heap',
    RawMemory.new freshAllocator ⟨4, some 8, .one⟩ ⟨fun _ => none, 0⟩ = .ok memory heap' ∧
    ∃ trace s bytes,
      RawMemory.performAll freshAllocator smallMemoryOps ⟨memory, heap'⟩ = some (trace, s) ∧
      trace.map Prod.fst = smallMemoryOps ∧
      ArrayRun 1 (List.replicate (4 * 1) 0) trace bytes ∧
      RawMemory.getSlice s = .ok bytes s ∧ MemType.Fits ⟨4, some 8, .one⟩ bytes := by
  obtain ⟨r, hty⟩ := Outcome.value?_eq_some.1
    (show (MemType.read (Reader.new (.ofBytes smallMemType))).value? = some ⟨4, some 8, .one⟩ by
      decide +kernel)
  obtain ⟨memory, heap', hnew⟩ := Outcome.isOk_iff.1
    (show (RawMemory.new freshAllocator ⟨4, some 8, .one⟩ ⟨fun _ => none, 0⟩).isOk = true by
      decide +kernel)
  exact ⟨memory, heap', hnew,
    memory_refines_byteArray freshAllocator_honours hty hnew smallMemoryOps⟩

end SpaceWasm
