import SpaceWasm.TextBuilder

/-!
# The fields of packed words

What `LabelTarget` and the first word of an instruction give back is what was
packed into them: the arity, the depth and the offset of a branch, the opcode and
the immediate. A 32-bit operand is two words, the low one first.
-/

namespace SpaceWasm

theorem mask22_getLsbD (i : ℕ) : (0x3FFFFF#32).getLsbD i = decide (i < 22) := by
  have hmask : (0x3FFFFF : ℕ) = 2 ^ 22 - 1 := rfl
  rw [BitVec.getLsbD_ofNat, hmask, Nat.testBit_two_pow_sub_one]
  by_cases h : i < 22
  · have h32 : i < 32 := by omega
    simp [h, h32]
  · simp [h]

/-! ### Jump offsets -/

namespace JumpOffset

/-- The offset is the sign extension of its low 22 bits. -/
def Fits (o : JumpOffset) : Prop := o = (o <<< 10).sshiftRight 10

theorem fits_zero : Fits 0 := by
  unfold Fits
  decide

theorem new_sentinel (a : JumpTarget) : new a JumpTarget.sentinel = .ok 0 := if_pos rfl

theorem new_eq_ok {a b : JumpTarget} {o : JumpOffset} (hb : b ≠ JumpTarget.sentinel) :
    new a b = .ok o ↔ o = b - a ∧ o.Fits := by
  unfold new Fits
  rw [if_neg hb]
  dsimp only
  constructor
  · intro h
    split at h
    · rename_i hfits
      cases h
      exact ⟨rfl, hfits⟩
    · cases h
  · rintro ⟨rfl, hfits⟩
    exact if_pos hfits

theorem new_error {a b : JumpTarget} {e : ValidationError} (h : new a b = .error e) :
    e = .labelJumpTooLarge := by
  unfold new at h
  split at h
  · cases h
  · dsimp only at h
    split at h
    · cases h
    · cases h
      rfl

end JumpOffset

/-! ### Branch operands -/

namespace LabelTarget

theorem low_new (r : ResultType) (d : U8) (o : JumpOffset) :
    new r d o &&& 0x3FFFFF#32 = o &&& 0x3FFFFF#32 := by
  apply BitVec.eq_of_getLsbD_eq
  intro i hi
  simp only [new, BitVec.getLsbD_and, BitVec.getLsbD_or, BitVec.getLsbD_shiftLeft, mask22_getLsbD]
  by_cases h : i < 22
  · have h30 : i < 30 := by omega
    simp [h, h30]
  · simp [h]

theorem high_new (r : ResultType) (d : U8) (o : JumpOffset) :
    new r d o &&& 0xFFC00000#32 = (arityBits r <<< 30) ||| (d.setWidth 32 <<< 22) := by
  have hmask : (0xFFC00000#32) = ~~~(0x3FFFFF#32) := by decide
  apply BitVec.eq_of_getLsbD_eq
  intro i hi
  simp only [hmask, new, BitVec.getLsbD_and, BitVec.getLsbD_or, BitVec.getLsbD_shiftLeft,
    BitVec.getLsbD_not, mask22_getLsbD]
  by_cases h : i < 22
  · have h30 : i < 30 := by omega
    simp [h, h30]
  · simp [h, hi]

/-- A patched label keeps its arity and its depth. -/
theorem withJump_new (r : ResultType) (d : U8) (o o' : JumpOffset) :
    withJump (new r d o) o' = new r d o' := by
  rw [withJump, high_new, new]

theorem jump_new {r : ResultType} {d : U8} {o : JumpOffset} (h : o.Fits) :
    jump (new r d o) = o := by
  have hlow : (o &&& 0x3FFFFF#32) <<< 10 = o <<< 10 := by
    apply BitVec.eq_of_getLsbD_eq
    intro i hi
    simp only [BitVec.getLsbD_shiftLeft, BitVec.getLsbD_and, mask22_getLsbD]
    by_cases h10 : i < 10
    · simp [h10]
    · have : i - 10 < 22 := by omega
      simp [this]
  rw [jump, low_new, hlow]
  exact h.symm

theorem isSentinel_new {r : ResultType} {d : U8} {o : JumpOffset} (h : o.Fits) :
    isSentinel (new r d o) = decide (o = 0) := by
  rw [isSentinel, jump_new h]

theorem arityBits_new (r : ResultType) (d : U8) (o : JumpOffset) :
    (new r d o >>> 30) &&& 3#32 = arityBits r := by
  have hmask : (3 : ℕ) = 2 ^ 2 - 1 := rfl
  have hbits : ∀ i, i < 32 → ¬i < 2 → (arityBits r).getLsbD i = false := by
    rcases r with _ | t
    · decide
    · cases t <;> decide
  apply BitVec.eq_of_getLsbD_eq
  intro i hi
  simp only [new, BitVec.getLsbD_and, BitVec.getLsbD_ushiftRight, BitVec.getLsbD_or,
    BitVec.getLsbD_shiftLeft, mask22_getLsbD, BitVec.getLsbD_setWidth]
  rw [BitVec.getLsbD_ofNat, hmask, Nat.testBit_two_pow_sub_one]
  by_cases h2 : i < 2
  · have hd : d.getLsbD (30 + i - 22) = false := BitVec.getLsbD_of_ge _ _ (by omega)
    have h30 : 30 + i < 32 := by omega
    have h22 : ¬30 + i < 22 := by omega
    simp [h2, hd, h30, h22, hi]
  · simp [h2, hbits i hi h2]

/-- The arity of a result type. -/
def arityOf : ResultType → LabelArity
  | none => .none
  | some .i32 => .i32
  | some .f32 => .i32
  | some .i64 => .i64
  | some .f64 => .i64

@[simp] theorem arityOf_words (r : ResultType) : (arityOf r).words = r.words := by
  rcases r with _ | t
  · rfl
  · cases t <;> rfl

@[simp] theorem arity_new (r : ResultType) (d : U8) (o : JumpOffset) :
    arity (new r d o) = some (arityOf r) := by
  rw [arity, arityBits_new]
  rcases r with _ | t
  · rfl
  · cases t <;> rfl

@[simp] theorem depth_new (r : ResultType) (d : U8) (o : JumpOffset) :
    depth (new r d o) = d := by
  have hmask : (0xFF : ℕ) = 2 ^ 8 - 1 := rfl
  apply BitVec.eq_of_getLsbD_eq
  intro i hi
  simp only [depth, new, BitVec.getLsbD_setWidth, BitVec.getLsbD_and, BitVec.getLsbD_ushiftRight,
    BitVec.getLsbD_or, BitVec.getLsbD_shiftLeft, mask22_getLsbD]
  rw [BitVec.getLsbD_ofNat, hmask, Nat.testBit_two_pow_sub_one]
  have h32 : 22 + i < 32 := by omega
  have h30 : 22 + i < 30 := by omega
  have h22 : ¬22 + i < 22 := by omega
  have hi32 : i < 32 := by omega
  simp [hi, h32, h30, h22, hi32]

end LabelTarget

/-! ### Words -/

/-- The two words of a 32-bit operand. -/
def words32 (v : U32) : List U16 := [v.setWidth 16, (v >>> 16).setWidth 16]

/-- The four words of a 64-bit operand. -/
def words64 (v : U64) : List U16 :=
  [v.setWidth 16, (v >>> 16).setWidth 16, (v >>> 32).setWidth 16, (v >>> 48).setWidth 16]

/-- The 32-bit operand of two words. -/
def join32 (lo hi : U16) : U32 := lo.setWidth 32 ||| (hi.setWidth 32 <<< 16)

@[simp] theorem join32_words (v : U32) :
    join32 (v.setWidth 16) ((v >>> 16).setWidth 16) = v := by
  apply BitVec.eq_of_getLsbD_eq
  intro i hi
  simp only [join32, BitVec.getLsbD_or, BitVec.getLsbD_setWidth, BitVec.getLsbD_shiftLeft,
    BitVec.getLsbD_ushiftRight]
  by_cases h : i < 16
  · simp [h, hi]
  · have h16 : i - 16 < 16 := by omega
    have h32 : i - 16 < 32 := by omega
    have hsum : 16 + (i - 16) = i := by omega
    simp [h, hi, h16, h32, hsum]

theorem join64_words (v : U64) :
    (v.setWidth 16).setWidth 64 ||| (((v >>> 16).setWidth 16).setWidth 64 <<< 16) |||
      (((v >>> 32).setWidth 16).setWidth 64 <<< 32) |||
      (((v >>> 48).setWidth 16).setWidth 64 <<< 48) = v := by
  apply BitVec.eq_of_getLsbD_eq
  intro i hi
  simp only [BitVec.getLsbD_or, BitVec.getLsbD_setWidth, BitVec.getLsbD_shiftLeft,
    BitVec.getLsbD_ushiftRight]
  by_cases h1 : i < 16
  · have h2 : i < 32 := by omega
    have h3 : i < 48 := by omega
    simp [h1, h2, h3, hi]
  · by_cases h2 : i < 32
    · have h3 : i < 48 := by omega
      have ha : i - 16 < 16 := by omega
      have hb : i - 16 < 64 := by omega
      have hsum : 16 + (i - 16) = i := by omega
      simp [h1, h2, h3, hi, ha, hb, hsum]
    · by_cases h3 : i < 48
      · have ha : i - 32 < 16 := by omega
        have hb : i - 32 < 64 := by omega
        have hc : ¬i - 16 < 16 := by omega
        have hsum : 32 + (i - 32) = i := by omega
        simp [h1, h2, h3, hi, ha, hb, hc, hsum]
      · have ha : i - 48 < 16 := by omega
        have hb : i - 48 < 64 := by omega
        have hc : ¬i - 16 < 16 := by omega
        have hd : ¬i - 32 < 16 := by omega
        have hsum : 48 + (i - 48) = i := by omega
        simp [h1, h2, h3, hi, ha, hb, hc, hd, hsum]

namespace TextBuilder

@[simp] theorem opWord_opcode (op imm : U8) : (opWord op imm >>> 8).setWidth 8 = op := by
  apply BitVec.eq_of_getLsbD_eq
  intro i hi
  simp only [opWord, BitVec.getLsbD_setWidth, BitVec.getLsbD_ushiftRight, BitVec.getLsbD_or,
    BitVec.getLsbD_shiftLeft]
  have h16 : 8 + i < 16 := by omega
  have h8 : ¬8 + i < 8 := by omega
  have hi16 : i < 16 := by omega
  simp [hi, h16, h8, hi16]

@[simp] theorem opWord_imm (op imm : U8) : (opWord op imm).setWidth 8 = imm := by
  apply BitVec.eq_of_getLsbD_eq
  intro i hi
  simp only [opWord, BitVec.getLsbD_setWidth, BitVec.getLsbD_or, BitVec.getLsbD_shiftLeft]
  have hi16 : i < 16 := by omega
  simp [hi, hi16]

theorem opWord_zero (op : U8) : opWord op 0 = op.setWidth 16 <<< 8 := by
  simp [opWord]

end TextBuilder

end SpaceWasm
