import SpaceWasm.Locals

/-!
# The layout of a frame

The frame pointer points to the two link words of an activation. Its parameters lie
below them, its local variables and its operands above. The first link word packs what
a return needs to find the frame of the caller, and a local index that the compiler
resolves stays within the parameters or the local variables.
-/

namespace SpaceWasm

/-- The fields of the first link word can be read back. -/
@[simp] theorem CallFrame.fromBits_intoBits (c : CallFrame) : fromBits c.intoBits = c := by
  obtain ⟨l, d, p⟩ := c
  simp only [fromBits, intoBits, mk.injEq]
  refine ⟨?_, ?_, ?_⟩ <;> ext i hi
  · simp
  · have h₁ : 16 + i < 32 := by omega
    have h₂ : 16 + i < 24 := by omega
    have h₃ : i < 32 := by omega
    simp [h₁, h₂, h₃, BitVec.getLsbD_eq_getElem hi]
  · have h₁ : 24 + i < 32 := by omega
    have h₂ : ¬24 + i < 16 := by omega
    have h₃ : i < 32 := by omega
    have hl : l.getLsbD (24 + i) = false := BitVec.getLsbD_of_ge _ _ (by omega)
    have hd : d.getLsbD (24 + i - 16) = false := BitVec.getLsbD_of_ge _ _ (by omega)
    simp [h₁, h₃, hl, hd, BitVec.getLsbD_eq_getElem hi]

/-- Sizes in bytes and in words. -/
theorem sum_size_eq (ts : List ValType) : (ts.map ValType.size).sum = 4 * wordsOf ts := by
  induction ts with
  | nil => rfl
  | cons t ts ih => rw [List.map_cons, List.sum_cons, ih, t.size_eq, wordsOf_cons, Nat.mul_add]

/-! ### Local variables -/

/-- The words of a local variable lie within the parameters or the local variables of
a frame with so many words of each. -/
def LocalVariable.Fits (l : LocalVariable) (params locals : ℕ) : Prop :=
  -(params : ℤ) ≤ l.frameOffset.toInt ∧ l.frameOffset.toInt + l.ty.words ≤ 0 ∨
    2 ≤ l.frameOffset.toInt ∧ l.frameOffset.toInt + l.ty.words ≤ 2 + locals

/-- The address of a local variable, in a stack that a 32-bit sum does not leave. -/
theorem LocalVariable.addr_eq {l : LocalVariable} {fp a : ℕ} (hfp : fp < 2 ^ 31)
    (ha : a < 2 ^ 31) (h : (fp : ℤ) + l.frameOffset.toInt = a) : l.addr fp = a := by
  have hfp' : (BitVec.ofNat 32 fp).toInt = fp := by
    rw [BitVec.toInt_ofNat']
    exact Int.bmod_eq_of_le (by omega) (by omega)
  have hoffset : (l.frameOffset.signExtend 32).toInt = l.frameOffset.toInt :=
    BitVec.toInt_signExtend_of_le (by decide)
  have hsum : (BitVec.ofNat 32 fp + l.frameOffset.signExtend 32).toInt = a := by
    rw [BitVec.toInt_add, hfp', hoffset, h]
    exact Int.bmod_eq_of_le (by omega) (by omega)
  have hwide : ((BitVec.ofNat 32 fp + l.frameOffset.signExtend 32).signExtend 64).toInt = a := by
    rw [BitVec.toInt_signExtend_of_le (by decide), hsum]
  rw [LocalVariable.addr]
  rw [BitVec.toInt_eq_toNat_cond] at hwide
  split at hwide <;> omega

namespace TextBuilder

theorem findParam_fits {ts : List ValType} {x i : U16} {w : ℕ} {p : ValType × ℕ}
    (h : findParam ts x i (4 * w) = .inl p) :
    ∃ v, p.2 = 4 * v ∧ w ≤ v ∧ v + p.1.words ≤ w + wordsOf ts := by
  induction ts generalizing i w with
  | nil => cases h
  | cons t ts ih =>
      rw [findParam] at h
      split at h
      · cases h
        exact ⟨w, rfl, Nat.le_refl _, by simp⟩
      · rw [t.size_eq, ← Nat.mul_add] at h
        obtain ⟨v, hv, hle, hlt⟩ := ih h
        exact ⟨v, hv, by omega, by simp; omega⟩

theorem findParam_inr {ts : List ValType} {x i current : U16} {offset c : ℕ}
    (hi : i = BitVec.ofNat 16 c) (hc : c ≤ x.toNat) (hroom : c + ts.length < 2 ^ 16)
    (h : findParam ts x i offset = .inr current) :
    current = BitVec.ofNat 16 (c + ts.length) ∧ c + ts.length ≤ x.toNat := by
  induction ts generalizing i offset c with
  | nil =>
      cases h
      exact ⟨by simpa using hi, hc⟩
  | cons t ts ih =>
      rw [findParam] at h
      split at h
      · cases h
      · next hne =>
        rw [List.length_cons] at hroom ⊢
        have hlt : c < x.toNat := by
          refine Nat.lt_of_le_of_ne hc fun heq => hne ?_
          rw [hi]
          apply BitVec.eq_of_toNat_eq
          rw [BitVec.toNat_ofNat, Nat.mod_eq_of_lt (by omega), heq]
        have := ih (c := c + 1) (by rw [hi, BitVec.ofNat_add]; rfl) hlt (by omega) h
        rwa [Nat.add_assoc, Nat.add_comm 1] at this

/-- Whatever the walk over the groups finds lies within the local variables: when its
counter has wrapped around, its offset is out of the range of a frame offset. -/
theorem findLocal_fits {groups : List (ℕ × ValType)} {x : U16} {w c : ℕ} {l : LocalVariable}
    (hgroups : ∀ g ∈ groups, g.1 ≤ 0xFFFF) (hw : c ≤ w + 255) (hc : c < 2 ^ 16 → c ≤ x.toNat)
    (h : findLocal groups x (BitVec.ofNat 16 c) (4 * w) = .ok l) :
    2 + (w : ℤ) ≤ l.frameOffset.toInt ∧
      l.frameOffset.toInt + l.ty.words ≤ 2 + w + wordsOf (expandLocals groups) := by
  induction groups generalizing w c with
  | nil => cases h
  | cons g groups ih =>
      obtain ⟨n, ty⟩ := g
      have hn : n ≤ 0xFFFF := hgroups _ List.mem_cons_self
      have hpos := ty.words_pos
      have hcount : n ≤ n * ty.words := Nat.le_mul_of_pos_right n hpos
      have hx := x.isLt
      rw [findLocal, ← BitVec.ofNat_add] at h
      dsimp only at h
      split at h
      · next hlt =>
        rw [ty.size_eq, Nat.mul_assoc, ← Nat.mul_add, Nat.mul_div_cancel_left _ (by decide)] at h
        split at h
        · cases h
        · next hnear =>
          cases h
          -- The counter has not wrapped around: the offset is too small for that.
          have hsmall : c < 2 ^ 16 := by
            have := Nat.le_of_not_lt hnear
            omega
          have hcx := hc hsmall
          rw [BitVec.lt_def, BitVec.toNat_ofNat] at hlt
          have hsum : c + n < 2 ^ 16 := by omega
          have hsub : (x - BitVec.ofNat 16 c).toNat = x.toNat - c := by
            rw [BitVec.toNat_sub, BitVec.toNat_ofNat]
            omega
          rw [hsub] at hnear ⊢
          rw [Nat.mod_eq_of_lt hsum] at hlt
          have hindex : ty.words * (x.toNat - c) + ty.words ≤ n * ty.words := by
            rw [← Nat.mul_succ, Nat.mul_comm]
            exact Nat.mul_le_mul_right _ (by omega)
          rw [toInt_word (Nat.le_of_not_lt hnear), expandLocals_cons, wordsOf_append,
            wordsOf_replicate]
          push_cast
          omega
      · next hge =>
        rw [ty.size_eq, Nat.mul_left_comm, ← Nat.mul_add] at h
        have hstep := ih (fun g hg => hgroups g (List.mem_cons_of_mem _ hg)) (by omega) ?_ h
        · rw [expandLocals_cons, wordsOf_append, wordsOf_replicate]
          push_cast at hstep ⊢
          omega
        · intro hsmall
          rw [BitVec.lt_def, BitVec.toNat_ofNat, Nat.mod_eq_of_lt hsmall] at hge
          omega

/-- A local index that is resolved leads to a word of the frame. -/
theorem findVariable_fits {signature : FuncType} {func : Func} {x : ℕ} {l : LocalVariable}
    (hsize : func.parameterSize = wordsOf signature.params)
    (hparams : wordsOf signature.params ≤ 255) (hgroups : ∀ g ∈ func.locals, g.1 ≤ 0xFFFF)
    (h : findVariable signature func x = .ok l) :
    l.Fits func.parameterSize (wordsOf (expandLocals func.locals)) := by
  have hlength := length_le_wordsOf signature.params
  unfold findVariable at h
  dsimp only at h
  cases hparam : findParam signature.params (BitVec.ofNat 16 x) 0 0 with
  | inl p =>
      rw [hparam] at h
      cases h
      obtain ⟨v, hv, -, hle⟩ := findParam_fits (w := 0) hparam
      left
      dsimp only
      rw [hv, Nat.mul_div_cancel_left _ (by decide), hsize, toInt_below (by omega) hparams]
      omega
  | inr current =>
      rw [hparam] at h
      obtain ⟨rfl, hle⟩ := findParam_inr (c := 0) rfl (Nat.zero_le _) (by omega) hparam
      obtain ⟨hlow, hhigh⟩ := findLocal_fits (w := 0) hgroups (by omega) (fun _ => hle) h
      exact Or.inr ⟨by simpa using hlow, by simpa using hhigh⟩

end TextBuilder

end SpaceWasm
