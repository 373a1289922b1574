import Mathlib.Algebra.Order.Ring.Int
import Mathlib.Data.List.Basic
import Mathlib.Data.Nat.Notation
import Mathlib.Logic.Function.Basic

/-!
# Circular buffers

`CircularBuffer α n` is a queue in an array of `n` slots: `size` live elements,
the oldest of them in the slot `start`, the others after it, wrapping around. A
slot without a live element is uninitialised or stale. The live slots are
initialised, which is part of the type: it is what the reads of the source rely
on.

The queue the buffer stands for is `toList`. A push onto a buffer with a free
slot appends to it, and a pop removes its head.
-/

namespace SpaceWasm

/-- The `i`-th slot from `start` on, in an array of `n` slots. -/
def slotAt {n : ℕ} [NeZero n] (start : Fin n) (i : ℕ) : Fin n := Fin.ofNat n (start + i)

section Slots

variable {n : ℕ} [NeZero n]

theorem slotAt_val (start : Fin n) (i : ℕ) : (slotAt start i).val = (start + i) % n := rfl

@[simp] theorem slotAt_zero (start : Fin n) : slotAt start 0 = start := by
  apply Fin.ext
  rw [slotAt_val, Nat.add_zero, Nat.mod_eq_of_lt start.isLt]

@[simp] theorem slotAt_size (start : Fin n) : slotAt start n = start := by
  apply Fin.ext
  rw [slotAt_val, Nat.add_mod_right, Nat.mod_eq_of_lt start.isLt]

theorem slotAt_slotAt (start : Fin n) (i j : ℕ) :
    slotAt (slotAt start i) j = slotAt start (i + j) := by
  apply Fin.ext
  rw [slotAt_val, slotAt_val, slotAt_val, Nat.mod_add_mod, Nat.add_assoc]

/-- The walk over the slots wraps around at most once. -/
theorem slotAt_val_of_lt {start : Fin n} {i : ℕ} (hi : i < n) :
    (slotAt start i).val = if start + i < n then start + i else start + i - n := by
  have hstart := start.isLt
  rw [slotAt_val]
  split
  · next h => exact Nat.mod_eq_of_lt h
  · next h =>
    rw [Nat.mod_eq_sub_mod (Nat.le_of_not_lt h), Nat.mod_eq_of_lt]
    omega

theorem slotAt_injective {start : Fin n} {i j : ℕ} (hi : i < n) (hj : j < n)
    (h : slotAt start i = slotAt start j) : i = j := by
  have hval := congrArg Fin.val h
  have hstart := start.isLt
  rw [slotAt_val_of_lt hi, slotAt_val_of_lt hj] at hval
  split at hval <;> split at hval <;> omega

end Slots

/-- A queue of at most `n` elements in an array of `n` slots. -/
structure CircularBuffer (α : Type) (n : ℕ) [NeZero n] where
  size : ℕ
  start : Fin n
  items : Fin n → Option α
  size_le : size ≤ n
  init : ∀ i < size, (items (slotAt start i)).isSome

namespace CircularBuffer

variable {α : Type} {n : ℕ} [NeZero n]

def new : CircularBuffer α n := ⟨0, 0, fun _ => none, Nat.zero_le n, fun _ h => by cases h⟩

def isEmpty (b : CircularBuffer α n) : Bool := decide (b.size = 0)

/-- `push`: append an element, over the oldest one when the buffer is full. -/
def push (b : CircularBuffer α n) (value : α) : CircularBuffer α n :=
  if h : b.size < n then
    { b with
      size := b.size + 1
      items := Function.update b.items (slotAt b.start b.size) (some value)
      size_le := h
      init := by
        intro i hi
        by_cases heq : slotAt b.start i = slotAt b.start b.size
        · rw [heq, Function.update_self]
          rfl
        · rw [Function.update_of_ne heq]
          apply b.init
          have hne : i ≠ b.size := fun hi' => heq (hi' ▸ rfl)
          omega }
  else
    { b with
      start := slotAt b.start 1
      items := Function.update b.items b.start (some value)
      init := by
        intro i hi
        by_cases heq : slotAt (slotAt b.start 1) i = b.start
        · rw [heq, Function.update_self]
          rfl
        · rw [Function.update_of_ne heq, slotAt_slotAt]
          apply b.init
          have hsize := b.size_le
          have hne : 1 + i ≠ n := by
            intro hi'
            rw [slotAt_slotAt, hi', slotAt_size] at heq
            exact heq rfl
          omega }

/-- `pop_front`: remove the oldest element. -/
def popFront (b : CircularBuffer α n) : Option α × CircularBuffer α n :=
  if h : b.size = 0 then (none, b)
  else
    (b.items b.start,
      { b with
        size := b.size - 1
        start := slotAt b.start 1
        size_le := Nat.le_trans (Nat.sub_le _ _) b.size_le
        init := by
          intro i hi
          rw [slotAt_slotAt]
          apply b.init
          omega })

/-- `front`: the oldest element. -/
def front (b : CircularBuffer α n) : Option α :=
  if b.size = 0 then none else b.items b.start

/-- Push the elements of a list, in order. -/
def pushAll (b : CircularBuffer α n) (values : List α) : CircularBuffer α n := values.foldl push b

/-! ### The queue -/

/-- The live elements, oldest first. -/
def toList (b : CircularBuffer α n) : List α :=
  (List.range b.size).filterMap fun i => b.items (slotAt b.start i)

@[simp] theorem toList_new : (new : CircularBuffer α n).toList = [] := rfl

theorem toList_eq_nil {b : CircularBuffer α n} : b.toList = [] ↔ b.size = 0 := by
  constructor
  · intro h
    by_contra hsize
    rw [toList, List.filterMap_eq_nil_iff] at h
    have hnone := h 0 (List.mem_range.2 (Nat.pos_of_ne_zero hsize))
    have hsome := b.init 0 (Nat.pos_of_ne_zero hsize)
    rw [hnone] at hsome
    cases hsome
  · intro h
    rw [toList, h]
    rfl

theorem isEmpty_iff {b : CircularBuffer α n} : b.isEmpty = true ↔ b.toList = [] := by
  simp [isEmpty, toList_eq_nil]

/-- A push onto a buffer with a free slot appends an element. -/
theorem toList_push {b : CircularBuffer α n} (h : b.size < n) (value : α) :
    (b.push value).toList = b.toList ++ [value] := by
  have hlive : (List.range b.size).filterMap (fun i =>
      Function.update b.items (slotAt b.start b.size) (some value) (slotAt b.start i)) =
      b.toList := by
    apply List.filterMap_congr
    intro i hi
    have hi := List.mem_range.1 hi
    have hne : slotAt b.start i ≠ slotAt b.start b.size := by
      intro heq
      have := slotAt_injective (by omega) h heq
      omega
    exact Function.update_of_ne hne _ _
  have hpush : (b.push value).toList =
      (List.range (b.size + 1)).filterMap (fun i =>
        Function.update b.items (slotAt b.start b.size) (some value) (slotAt b.start i)) := by
    simp [push, h, toList]
  rw [hpush, List.range_succ, List.filterMap_append, hlive]
  simp

theorem size_push {b : CircularBuffer α n} (h : b.size < n) (value : α) :
    (b.push value).size = b.size + 1 := by
  simp [push, h]

/-- So is a list that fits into the free slots. -/
theorem toList_pushAll {b : CircularBuffer α n} {values : List α}
    (h : b.size + values.length ≤ n) : (b.pushAll values).toList = b.toList ++ values := by
  induction values generalizing b with
  | nil => simp [pushAll]
  | cons value values ih =>
      rw [List.length_cons] at h
      have hfree : b.size < n := by omega
      have hrest : (b.push value).size + values.length ≤ n := by
        rw [size_push hfree]
        omega
      have hpush := ih hrest
      rw [toList_push hfree, List.append_assoc] at hpush
      exact hpush

/-- The live elements of a buffer that is not empty. -/
theorem toList_of_pos {b : CircularBuffer α n} (h : b.size ≠ 0) :
    ∃ a, b.items b.start = some a ∧ b.toList = a :: (b.popFront).2.toList := by
  obtain ⟨k, hk⟩ := Nat.exists_eq_succ_of_ne_zero h
  have hsome := b.init 0 (Nat.pos_of_ne_zero h)
  rw [slotAt_zero] at hsome
  obtain ⟨a, ha⟩ := Option.isSome_iff_exists.1 hsome
  refine ⟨a, ha, ?_⟩
  have hpop : (b.popFront).2.toList =
      (List.range k).filterMap fun i => b.items (slotAt b.start (1 + i)) := by
    simp [popFront, toList, slotAt_slotAt, hk]
  rw [hpop, toList, hk, List.range_succ_eq_map, List.filterMap_cons, slotAt_zero, ha,
    List.filterMap_map]
  simp [Nat.add_comm]

theorem front_eq (b : CircularBuffer α n) : b.front = b.toList.head? := by
  by_cases h : b.size = 0
  · simp [front, h, toList_eq_nil.2 h]
  · obtain ⟨a, ha, hlist⟩ := toList_of_pos h
    simp [front, h, ha, hlist]

theorem toList_popFront (b : CircularBuffer α n) : (b.popFront).2.toList = b.toList.tail := by
  by_cases h : b.size = 0
  · simp [popFront, h, toList_eq_nil.2 h]
  · obtain ⟨a, ha, hlist⟩ := toList_of_pos h
    rw [hlist]
    rfl

end CircularBuffer

end SpaceWasm
