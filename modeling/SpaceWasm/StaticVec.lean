import Mathlib.Algebra.Order.Ring.Int
import Mathlib.Data.List.Basic

/-!
# Vectors with a static capacity

`StaticVec α n` is a list of at most `n` elements, kept with the last pushed
element first, so that `pop` and `truncate` are operations on the head of the
list. The bound is part of the type, as `N` is part of the source's.
-/

namespace SpaceWasm

/-- A vector of capacity `n`, its last element first. -/
structure StaticVec (α : Type) (n : ℕ) where
  toList : List α
  length_le : toList.length ≤ n

namespace StaticVec

variable {α : Type} {n : ℕ}

@[ext] theorem ext {v w : StaticVec α n} (h : v.toList = w.toList) : v = w := by
  cases v
  cases w
  simpa using h

def empty : StaticVec α n := ⟨[], Nat.zero_le _⟩

def len (v : StaticVec α n) : ℕ := v.toList.length

def last? (v : StaticVec α n) : Option α := v.toList.head?

/-- `push`; `none` is the error of a full vector. -/
def push (v : StaticVec α n) (a : α) : Option (StaticVec α n) :=
  if h : v.toList.length < n then some ⟨a :: v.toList, h⟩ else none

def pop (v : StaticVec α n) : Option (α × StaticVec α n) :=
  match v with
  | ⟨[], _⟩ => none
  | ⟨a :: as, h⟩ => some (a, ⟨as, Nat.le_of_succ_le h⟩)

/-- `truncate`: keep the first `k` elements pushed. -/
def truncate (v : StaticVec α n) (k : ℕ) : StaticVec α n :=
  ⟨v.toList.drop (v.toList.length - k), by
    rw [List.length_drop]
    exact Nat.le_trans (Nat.sub_le _ _) v.length_le⟩

/-- Replace the element that is `i` below the last one. -/
def modify (v : StaticVec α n) (i : ℕ) (f : α → α) : StaticVec α n :=
  ⟨v.toList.modify i f, by simpa using v.length_le⟩

@[simp] theorem toList_empty : (empty : StaticVec α n).toList = [] := rfl

@[simp] theorem toList_modify (v : StaticVec α n) (i : ℕ) (f : α → α) :
    (v.modify i f).toList = v.toList.modify i f := rfl

@[simp] theorem toList_truncate (v : StaticVec α n) (k : ℕ) :
    (v.truncate k).toList = v.toList.drop (v.toList.length - k) := rfl

theorem push_eq_some {v w : StaticVec α n} {a : α} :
    v.push a = some w ↔ w.toList = a :: v.toList := by
  unfold push
  constructor
  · intro h
    split at h
    · cases h
      rfl
    · cases h
  · intro h
    have hw := w.length_le
    rw [h, List.length_cons] at hw
    rw [dif_pos (show v.toList.length < n from hw)]
    congr 1
    exact ext h.symm

theorem pop_eq_some {v w : StaticVec α n} {a : α} :
    v.pop = some (a, w) ↔ v.toList = a :: w.toList := by
  obtain ⟨l, hl⟩ := v
  cases l with
  | nil => simp [pop]
  | cons b bs =>
      simp only [pop, Option.some.injEq, Prod.mk.injEq, List.cons.injEq]
      constructor
      · rintro ⟨rfl, rfl⟩
        exact ⟨rfl, rfl⟩
      · rintro ⟨rfl, h⟩
        exact ⟨rfl, ext h⟩

theorem pop_eq_none {v : StaticVec α n} : v.pop = none ↔ v.toList = [] := by
  obtain ⟨l, hl⟩ := v
  cases l <;> simp [pop]

end StaticVec

end SpaceWasm
