import SpaceWasm.Engine

/-!
# Runs of the stack accesses

What an access to the stack answers and leaves, for an engine whose stack pointer and
stack are given: `below ++ above` is a stack cut at some height, and an access at that
height or above it changes nothing of `below`.
-/

namespace SpaceWasm

open Fallible

variable {η : Type}

/-- The engine with another stack. -/
def Engine.withStack (e : Engine η) (sp : ℕ) (words : List U32) (touched : List ℕ) : Engine η :=
  { e with sp := sp, stack := ⟨words, touched⟩ }

/-- The engine without its operand stack. -/
def Engine.besideStack (e : Engine η) : Engine η := { e with sp := 0, stack := ⟨[], []⟩ }

theorem Engine.withStack_self (e : Engine η) :
    e.withStack e.sp e.stack.words e.stack.touched = e := rfl

/-- The word of `i` places above the cut. -/
theorem getElem?_cut {α : Type} (below above : List α) (i : ℕ) :
    (below ++ above)[below.length + i]? = above[i]? := by
  rw [List.getElem?_append_right (Nat.le_add_right _ _), Nat.add_sub_cancel_left]

theorem set_cut {α : Type} (below above : List α) (i : ℕ) (a : α) :
    (below ++ above).set (below.length + i) a = below ++ above.set i a := by
  rw [List.set_append_right _ _ (Nat.le_add_right _ _), Nat.add_sub_cancel_left]

section Accesses

variable (e : Engine η) {s n addr : ℕ} {l : List U32} (touched : List ℕ)

theorem spBelow_withStack (h : n ≤ s) :
    spBelow n (e.withStack s l touched) = .ok (s - n) (e.withStack s l touched) := by
  unfold spBelow
  rw [bind_of_ok (get_apply _), assert_of (show n ≤ (e.withStack s l touched).sp from h)]
  rfl

theorem dropSp_withStack (h : n ≤ s) :
    dropSp n (e.withStack s l touched) = .ok () (e.withStack (s - n) l touched) := by
  unfold dropSp
  rw [bind_of_ok (spBelow_withStack e touched h)]
  rfl

theorem readWord_withStack {w : U32} (h : l[addr]? = some w) :
    readWord addr (e.withStack s l touched) =
      .ok w (e.withStack s l (addr :: touched)) := by
  unfold readWord
  rw [bind_of_ok (get_apply _),
    show (e.withStack s l touched).stack.words[addr]? = some w from h]
  rfl

theorem writeWord_withStack (w : U32) (h : addr < l.length) :
    writeWord addr w (e.withStack s l touched) =
      .ok () (e.withStack s (l.set addr w) (addr :: touched)) := by
  unfold writeWord
  rw [bind_of_ok (get_apply _),
    assert_of (show addr < (e.withStack s l touched).stack.words.length from h)]
  rfl

theorem readDouble_withStack {lo hi : U32} (hlo : l[addr]? = some lo)
    (hhi : l[addr + 1]? = some hi) :
    readDouble addr (e.withStack s l touched) =
      .ok (lo.setWidth 64 ||| (hi.setWidth 64 <<< 32))
        (e.withStack s l ((addr + 1) :: addr :: touched)) := by
  unfold readDouble
  rw [bind_of_ok (readWord_withStack e _ hlo), bind_of_ok (readWord_withStack e _ hhi)]
  rfl

theorem writeDouble_withStack (w : U64) (h : addr + 1 < l.length) :
    writeDouble addr w (e.withStack s l touched) =
      .ok () (e.withStack s ((l.set addr (w.setWidth 32)).set (addr + 1)
        ((w >>> 32).setWidth 32)) ((addr + 1) :: addr :: touched)) := by
  unfold writeDouble
  rw [bind_of_ok (writeWord_withStack e _ _ (by omega)),
    writeWord_withStack e _ _ (by rwa [List.length_set])]

end Accesses

/-! ### Values as words -/

/-- The low word of a double word, and the high one. -/
def lowWord (w : U64) : U32 := w.setWidth 32

def highWord (w : U64) : U32 := (w >>> 32).setWidth 32

@[simp] theorem lowWord_or_highWord (w : U64) :
    (lowWord w).setWidth 64 ||| ((highWord w).setWidth 64 <<< 32) = w := by
  apply BitVec.eq_of_getLsbD_eq
  intro i hi
  simp only [lowWord, highWord, BitVec.getLsbD_or, BitVec.getLsbD_setWidth,
    BitVec.getLsbD_shiftLeft, BitVec.getLsbD_ushiftRight]
  by_cases h : i < 32
  · simp [h, hi]
  · have h32 : i - 32 < 32 := by omega
    have h64 : i - 32 < 64 := by omega
    have hsum : 32 + (i - 32) = i := by omega
    simp [h, hi, h32, h64, hsum]

section Cut

variable (e : Engine η) {sp : ℕ} {below above : List U32} (touched : List ℕ)

theorem spBelow_cut {i n : ℕ} {words : List U32} :
    spBelow n (e.withStack (below.length + (i + n)) words touched) =
      .ok (below.length + i) (e.withStack (below.length + (i + n)) words touched) := by
  rw [spBelow_withStack e touched (by omega), ← Nat.add_assoc, Nat.add_sub_cancel]

theorem dropSp_cut {i n : ℕ} {words : List U32} :
    dropSp n (e.withStack (below.length + (i + n)) words touched) =
      .ok () (e.withStack (below.length + i) words touched) := by
  rw [dropSp_withStack e touched (by omega), ← Nat.add_assoc, Nat.add_sub_cancel]

theorem readWord_cut {i : ℕ} {w : U32} (h : above[i]? = some w) :
    readWord (below.length + i) (e.withStack sp (below ++ above) touched) =
      .ok w (e.withStack sp (below ++ above) ((below.length + i) :: touched)) :=
  readWord_withStack e touched ((getElem?_cut below above i).trans h)

theorem writeWord_cut {i : ℕ} (w : U32) (h : i < above.length) :
    writeWord (below.length + i) w (e.withStack sp (below ++ above) touched) =
      .ok () (e.withStack sp (below ++ above.set i w) ((below.length + i) :: touched)) := by
  rw [writeWord_withStack e touched w (by simpa using h), set_cut]

theorem readDouble_cut {i : ℕ} {w : U64} (hlo : above[i]? = some (lowWord w))
    (hhi : above[i + 1]? = some (highWord w)) :
    readDouble (below.length + i) (e.withStack sp (below ++ above) touched) =
      .ok w (e.withStack sp (below ++ above)
        ((below.length + i + 1) :: (below.length + i) :: touched)) := by
  rw [readDouble_withStack e touched ((getElem?_cut below above i).trans hlo)
    ((getElem?_cut below above (i + 1)).trans hhi), lowWord_or_highWord]

theorem writeDouble_cut {i : ℕ} (w : U64) (h : i + 1 < above.length) :
    writeDouble (below.length + i) w (e.withStack sp (below ++ above) touched) =
      .ok () (e.withStack sp (below ++ (above.set i (lowWord w)).set (i + 1) (highWord w))
        ((below.length + i + 1) :: (below.length + i) :: touched)) := by
  rw [writeDouble_withStack e touched w (by simpa [Nat.add_assoc] using h), set_cut,
    Nat.add_assoc, set_cut]
  rfl

end Cut

end SpaceWasm
