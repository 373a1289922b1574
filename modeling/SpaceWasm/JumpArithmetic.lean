import Mathlib.Algebra.Order.Ring.Int
import SpaceWasm.Installed

/-!
# The arithmetic of code addresses

A code address is an unsigned 32-bit word, but offsets are differences of such
words cast to `i32`, and an address moves by an addition of `i32`. With wrapping
arithmetic the results are right for all addresses. `newChecked`, `addChecked` and
`advanceChecked` are the same operations in a build with overflow checks, where
`none` is the panic: they go wrong on addresses on different sides of word
2 ^ 31, except for some that are very far apart.
-/

namespace SpaceWasm

open Fallible

/-- The value of an `i32` operation that does not overflow. -/
def checkedI32 (exact : ℤ) (v : U32) : Option U32 :=
  if -2 ^ 31 ≤ exact ∧ exact < 2 ^ 31 then some v else none

/-- `JumpOffset::new` with checked arithmetic. -/
def JumpOffset.newChecked (current «to» : JumpTarget) :
    Option (Except ValidationError JumpOffset) :=
  if «to» = JumpTarget.sentinel then some (.ok sentinel)
  else do
    let offset ← checkedI32 («to».toInt - current.toInt) («to» - current)
    let fits := offset = (offset <<< 10).sshiftRight 10
    if fits then some (.ok offset) else some (.error .labelJumpTooLarge)

namespace JumpTarget

/-- `self + offset` with checked arithmetic. -/
def addChecked (a : JumpTarget) (offset : JumpOffset) : Option JumpTarget :=
  checkedI32 (a.toInt + offset.toInt) (a + offset)

/-- `advance(1)`, `n` times, with checked arithmetic and the debug assertion. -/
def advanceChecked : ℕ → JumpTarget → Option JumpTarget
  | 0, a => some a
  | n + 1, a =>
      if a.toNat + 1 < 2 ^ 32 then do
        let a ← checkedI32 (a.toInt + 1) (a + 1)
        advanceChecked n a
      else none

end JumpTarget

theorem toInt_addrOf {i : ℕ} (h : i < 2 ^ 32) :
    (addrOf i).toInt = if i < 2 ^ 31 then (i : ℤ) else i - 2 ^ 32 := by
  rw [BitVec.toInt_eq_toNat_cond, BitVec.toNat_ofNat, Nat.mod_eq_of_lt h]
  split <;> split <;> omega

/-! ### Jumps -/

/-- The operands of an offset that does not overflow: on the same side of word
2 ^ 31, or at least so many words apart that the difference wraps. -/
def JumpReach (i j : ℕ) : Prop :=
  ¬(i < 2 ^ 31 ∧ 2 ^ 31 ≤ j ∧ j < i + 2 ^ 31) ∧ ¬(j < 2 ^ 31 ∧ 2 ^ 31 ≤ i ∧ i ≤ j + 2 ^ 31)

instance (i j : ℕ) : Decidable (JumpReach i j) :=
  inferInstanceAs (Decidable (¬_ ∧ ¬_))

/-- A label to `b`, packed at `a` and taken apart again, leads back to `b`. -/
def LabelTarget.LeadsTo (add : JumpTarget → JumpOffset → Option JumpTarget) (a b : JumpTarget)
    (offset : JumpOffset) : Prop :=
  ∀ (resultType : ResultType) (depth : U8),
    let label := LabelTarget.new resultType depth offset
    add a label.jump = some b ∧ label.arity = some (arityOf resultType) ∧ label.depth = depth

section Jump

variable {i j : ℕ}

theorem checkedI32_isSome {exact : ℤ} {v : U32} :
    checkedI32 exact v = some v ↔ -2 ^ 31 ≤ exact ∧ exact < 2 ^ 31 := by
  unfold checkedI32
  split
  · exact iff_of_true rfl ‹_›
  · exact iff_of_false nofun ‹_›

theorem toInt_sub_addrOf (hi : i < 2 ^ 32) (hj : j < 2 ^ 32) :
    (-2 ^ 31 ≤ (addrOf j).toInt - (addrOf i).toInt ∧ (addrOf j).toInt - (addrOf i).toInt < 2 ^ 31) ↔
      JumpReach i j := by
  rw [toInt_addrOf hi, toInt_addrOf hj]
  unfold JumpReach
  split <;> split <;> omega

/-- A rejected offset is too large, and an accepted one is the difference. -/
theorem JumpOffset.new_cases (hj : j < 2 ^ 32 - 1) :
    JumpOffset.new (addrOf i) (addrOf j) = .error .labelJumpTooLarge ∨
      JumpOffset.new (addrOf i) (addrOf j) = .ok (addrOf j - addrOf i) ∧
        JumpOffset.Fits (addrOf j - addrOf i) := by
  cases hnew : JumpOffset.new (addrOf i) (addrOf j) with
  | ok offset =>
      obtain ⟨rfl, hfits⟩ := (JumpOffset.new_eq_ok (addrOf_ne_sentinel hj)).1 hnew
      exact Or.inr ⟨rfl, hfits⟩
  | error e =>
      rw [JumpOffset.new, if_neg (addrOf_ne_sentinel hj)] at hnew
      dsimp only at hnew
      split at hnew
      · cases hnew
      · exact Or.inl hnew.symm

theorem leadsTo_of_add {add : JumpTarget → JumpOffset → Option JumpTarget}
    (hfits : JumpOffset.Fits (addrOf j - addrOf i))
    (hadd : add (addrOf i) (addrOf j - addrOf i) = some (addrOf j)) :
    LabelTarget.LeadsTo add (addrOf i) (addrOf j) (addrOf j - addrOf i) := by
  intro resultType depth
  refine ⟨?_, LabelTarget.arity_new _ _ _, LabelTarget.depth_new _ _ _⟩
  rw [LabelTarget.jump_new hfits, hadd]

theorem JumpOffset.newChecked_of_reach (hi : i < 2 ^ 32) (hj : j < 2 ^ 32 - 1) (h : JumpReach i j) :
    JumpOffset.newChecked (addrOf i) (addrOf j) = some (JumpOffset.new (addrOf i) (addrOf j)) := by
  unfold JumpOffset.newChecked JumpOffset.new
  split
  · rfl
  · rw [checkedI32_isSome.2 ((toInt_sub_addrOf hi (by omega)).2 h)]
    simp only [Option.bind_eq_bind, Option.bind_some]
    split <;> rfl

theorem JumpOffset.newChecked_overflow (hi : i < 2 ^ 32) (hj : j < 2 ^ 32 - 1)
    (h : ¬JumpReach i j) : JumpOffset.newChecked (addrOf i) (addrOf j) = none := by
  unfold JumpOffset.newChecked
  rw [if_neg (addrOf_ne_sentinel hj), checkedI32,
    if_neg fun hfits => h ((toInt_sub_addrOf hi (by omega)).1 hfits)]
  rfl

/-- An offset that did not overflow is added back without an overflow. -/
theorem addChecked_of_reach (hi : i < 2 ^ 32) (hj : j < 2 ^ 32) (h : JumpReach i j) :
    (addrOf i).addChecked (addrOf j - addrOf i) = some (addrOf j) := by
  have hreach := (toInt_sub_addrOf hi hj).2 h
  have hsub : (addrOf j - addrOf i).toInt = (addrOf j).toInt - (addrOf i).toInt := by
    rw [BitVec.toInt_sub]
    exact Int.bmod_eq_of_le (by omega) (by omega)
  have hlo := BitVec.le_toInt (addrOf j)
  have hhi := (addrOf j).toInt_lt
  have hadd : addrOf i + (addrOf j - addrOf i) = addrOf j := by
    rw [BitVec.add_comm, BitVec.sub_add_cancel]
  unfold JumpTarget.addChecked
  rw [hsub, hadd]
  exact checkedI32_isSome.2 (by omega)

/-- The offset from `a` to `b` is rejected as too large, or its label leads to
`b`; `new` and `add` are the operations on offsets, which may panic. -/
def LabelTarget.Exact (new : JumpTarget → JumpTarget → Option (Except ValidationError JumpOffset))
    (add : JumpTarget → JumpOffset → Option JumpTarget) (a b : JumpTarget) : Prop :=
  new a b = some (.error .labelJumpTooLarge) ∨
    ∃ offset, new a b = some (.ok offset) ∧ LabelTarget.LeadsTo add a b offset

/-- With wrapping arithmetic every label is right. -/
theorem LabelTarget.exact_wrapping (hj : j < 2 ^ 32 - 1) :
    LabelTarget.Exact (fun a b => some (JumpOffset.new a b)) (fun a o => some (a + o))
      (addrOf i) (addrOf j) := by
  rcases JumpOffset.new_cases (i := i) hj with herror | ⟨hok, hfits⟩
  · exact Or.inl (congrArg some herror)
  · refine Or.inr ⟨_, congrArg some hok, leadsTo_of_add hfits (congrArg some ?_)⟩
    rw [BitVec.add_comm, BitVec.sub_add_cancel]

/-- With checked arithmetic a label is right unless the difference overflows. -/
theorem LabelTarget.exact_checked (hi : i < 2 ^ 32) (hj : j < 2 ^ 32 - 1) :
    LabelTarget.Exact JumpOffset.newChecked JumpTarget.addChecked (addrOf i) (addrOf j) ↔
      JumpReach i j := by
  constructor
  · intro hexact
    by_contra hreach
    have hnone := JumpOffset.newChecked_overflow hi hj hreach
    rcases hexact with herror | ⟨offset, hok, -⟩
    · rw [hnone] at herror
      cases herror
    · rw [hnone] at hok
      cases hok
  · intro hreach
    have hnew := JumpOffset.newChecked_of_reach hi hj hreach
    rcases JumpOffset.new_cases (i := i) hj with herror | ⟨hok, hfits⟩
    · exact Or.inl (by rw [hnew, herror])
    · exact Or.inr ⟨_, by rw [hnew, hok],
        leadsTo_of_add hfits (addChecked_of_reach hi (by omega) hreach)⟩

end Jump

/-! ### Advancing -/

/-- The words from `i` on cross word 2 ^ 31, read `n` words further. -/
def Crosses (i n : ℕ) : Prop := i < 2 ^ 31 ∧ 2 ^ 31 ≤ i + n

theorem advanceChecked_succ {i : ℕ} (n : ℕ) (h : i + 1 < 2 ^ 32) :
    (addrOf i).advanceChecked (n + 1) =
      if i + 1 = 2 ^ 31 then none else (addrOf (i + 1)).advanceChecked n := by
  have hnat : (addrOf i).toNat = i := by rw [BitVec.toNat_ofNat, Nat.mod_eq_of_lt (by omega)]
  have hint := toInt_addrOf (Nat.lt_of_succ_lt h)
  rw [JumpTarget.advanceChecked, hnat, if_pos h, addrOf_add_one, checkedI32]
  by_cases hcross : i + 1 = 2 ^ 31
  · rw [if_pos hcross, if_neg (by split at hint <;> omega)]
    rfl
  · rw [if_neg hcross, if_pos (by split at hint <;> omega)]
    rfl

/-- An address moves on word by word, and only the step onto word 2 ^ 31 overflows. -/
theorem advanceChecked_eq {i n : ℕ} (h : i + n < 2 ^ 32) :
    (addrOf i).advanceChecked n = some (addrOf (i + n)) ↔ ¬Crosses i n := by
  induction n generalizing i with
  | zero =>
      have hcross : ¬Crosses i 0 := by
        rintro ⟨hlt, hle⟩
        omega
      exact iff_of_true rfl hcross
  | succ n ih =>
      rw [advanceChecked_succ n (by omega)]
      have hnext := ih (i := i + 1) (by omega)
      rw [show i + 1 + n = i + (n + 1) by omega] at hnext
      unfold Crosses at hnext ⊢
      by_cases hcross : i + 1 = 2 ^ 31
      · rw [if_pos hcross]
        exact iff_of_false nofun fun hnot => hnot ⟨by omega, by omega⟩
      · rw [if_neg hcross, hnext]
        omega

/-! ### The words of an instruction -/

namespace IrReader

/-- The operand words of an instruction, which follow the word of its opcode and
immediate. -/
def operandWords (opcode imm : U8) : ℕ :=
  if opcode = Opcode.if_ then 2
  else if opcode = Opcode.br then 2
  else if opcode = Opcode.brIf then 2
  else if opcode = Opcode.brTable then if imm = 0xFF then 1 else 0
  else if opcode = Opcode.call then 1
  else if opcode = Opcode.callHost then 1
  else if opcode = Opcode.callExtern then 1
  else if opcode = Opcode.callIndirect then 1
  else if opcode = Opcode.localGet then 1
  else if opcode = Opcode.localSet then 1
  else if opcode = Opcode.localTee then 1
  else if opcode = Opcode.globalGet then if imm = 0xFF then 1 else 0
  else if opcode = Opcode.globalSet then if imm = 0xFF then 1 else 0
  else if opcode = Opcode.globalGetHost then 1
  else if opcode = Opcode.globalSetHost then 1
  else if opcode = Opcode.globalGetExtern then 1
  else if opcode = Opcode.globalSetExtern then 1
  else if opcode = Opcode.i32Const then if imm = 0xFF then 2 else 0
  else if opcode = Opcode.i64Const then if imm = 0xFF then 4 else 0
  else if opcode = Opcode.f32Const then 2
  else if opcode = Opcode.f64Const then 4
  else if (LoadOp.ofOpcode opcode).isSome then 2
  else if (StoreOp.ofOpcode opcode).isSome then 2
  else 0

/-- The opcode of the instruction at the `i`-th word. -/
def opcodeAt (code : List TextPage) (i : ℕ) : U8 := (pageWord code i >>> 8).setWidth 8

/-- The immediate of the instruction at the `i`-th word. -/
def immAt (code : List TextPage) (i : ℕ) : U8 := (pageWord code i).setWidth 8

/-- The cases of the `br_table` at the `i`-th word: its immediate, or the next word
after `0xFF`. -/
def brTableCount (code : List TextPage) (i : ℕ) : U16 :=
  if immAt code i = 0xFF then pageWord code (i + 1) else (immAt code i).setWidth 16

/-- The words of the instruction at the `i`-th word. A `br_table` has a label of two
words for each case, and one for the default. -/
def instrWords (code : List TextPage) (i : ℕ) : ℕ :=
  1 + operandWords (opcodeAt code i) (immAt code i) +
    if opcodeAt code i = Opcode.brTable then 2 * ((brTableCount code i).toNat + 1) else 0

/-- `x` reads `k` words, from any address that has so many before the end. -/
def ReadsWords (code : List TextPage) (k : ℕ) {α : Type} (x : FetchM α) : Prop :=
  ∀ i, i + k ≤ 256 * code.length → ∃ a, x (addrOf i) = .ok a (addrOf (i + k))

variable {code : List TextPage} {k l : ℕ} {α β : Type}

namespace ReadsWords

theorem pure (a : α) : ReadsWords code 0 (Pure.pure a : FetchM α) :=
  fun _ _ => ⟨a, rfl⟩

theorem bind {x : FetchM α} {f : α → FetchM β} (hx : ReadsWords code k x)
    (hf : ∀ a, ReadsWords code l (f a)) : ReadsWords code (k + l) (x >>= f) := by
  intro i hi
  obtain ⟨a, ha⟩ := hx i (by omega)
  obtain ⟨b, hb⟩ := hf a (i + k) (by omega)
  rw [bind_of_ok ha, hb, Nat.add_assoc]
  exact ⟨b, rfl⟩

theorem map {x : FetchM α} (f : α → β) (hx : ReadsWords code k x) :
    ReadsWords code k (f <$> x) := by
  rw [map_eq_pure_bind]
  exact hx.bind (l := 0) fun _ => ReadsWords.pure _

theorem ite {p : Prop} [Decidable p] {x y : FetchM α} (hx : p → ReadsWords code k x)
    (hy : ¬p → ReadsWords code l y) :
    ReadsWords code (if p then k else l) (if p then x else y) := by
  split
  · exact hx ‹_›
  · exact hy ‹_›

end ReadsWords

theorem read_word (hcode : code.length < 2 ^ 24) {i : ℕ} (hi : i + 1 ≤ 256 * code.length) :
    read code (addrOf i) = .ok (pageWord code i) (addrOf (i + 1)) := by
  have hlt : i < 2 ^ 32 := by omega
  have hinside : i / 256 < code.length := by omega
  unfold read pageWord
  rw [addrOf_page hlt, List.getElem?_eq_getElem hinside]
  simp only [addrOf_offset hlt, Nat.mod_lt i (by decide : 0 < 256), dif_pos, addrOf_add_one]

/-- Of the other opcodes, the loads and stores have an offset. -/
theorem operandWords_of_not_named {opcode : U8} (imm : U8) (h : opcode ∉ named) :
    operandWords opcode imm =
      if (LoadOp.ofOpcode opcode).isSome then 2
      else if (StoreOp.ofOpcode opcode).isSome then 2
      else 0 := by
  simp only [named, List.mem_cons, List.not_mem_nil, or_false, not_or] at h
  simp only [operandWords, h, if_false]

section Reads

variable (hcode : code.length < 2 ^ 24)
include hcode

theorem readsWords_read : ReadsWords code 1 (read code) :=
  fun _ hi => ⟨_, read_word hcode hi⟩

theorem read_wordU32 : ReadsWords code 2 (readU32 code) :=
  (readsWords_read hcode).bind fun _ => (readsWords_read hcode).map _

theorem read_wordU64 : ReadsWords code 4 (readU64 code) :=
  (readsWords_read hcode).bind (l := 3) fun _ => (readsWords_read hcode).bind (l := 2) fun _ =>
    (readsWords_read hcode).bind fun _ => (readsWords_read hcode).map _

theorem read_wordIndex (imm : U8) :
    ReadsWords code (if imm = 0xFF then 1 else 0) (readIndex code imm) :=
  ReadsWords.ite (fun _ => readsWords_read hcode) fun _ => ReadsWords.pure _

/-- The decoder reads the operand words of every opcode. -/
theorem readsWords_decodeRest (opcode imm : U8) :
    ReadsWords code (operandWords opcode imm) (decodeRest code opcode imm) := by
  have hread := readsWords_read hcode
  have hread32 := read_wordU32 hcode
  have hread64 := read_wordU64 hcode
  have hindex := read_wordIndex hcode imm
  have hconst32 : ReadsWords code (if imm = 0xFF then 2 else 0)
      (if imm = 0xFF then readU32 code else Pure.pure (imm.setWidth 32)) :=
    ReadsWords.ite (fun _ => hread32) fun _ => ReadsWords.pure _
  have hconst64 : ReadsWords code (if imm = 0xFF then 4 else 0)
      (if imm = 0xFF then readU64 code else Pure.pure (imm.setWidth 64)) :=
    ReadsWords.ite (fun _ => hread64) fun _ => ReadsWords.pure _
  have hsat : ReadsWords code 0 (decodeRest code Opcode.extendedFc imm) := by
    rw [decodeRest_extendedFc]
    split <;> exact ReadsWords.pure _
  by_cases hnamed : opcode ∈ named
  · simp only [named, List.mem_cons, List.not_mem_nil, or_false] at hnamed
    rcases hnamed with rfl | rfl | rfl | rfl | rfl | rfl | rfl | rfl | rfl | rfl | rfl | rfl | rfl |
      rfl | rfl | rfl | rfl | rfl | rfl | rfl | rfl | rfl | rfl | rfl | rfl | rfl | rfl | rfl
    all_goals first
      | exact ReadsWords.pure _
      | exact hread.map _
      | exact hread32.map _
      | exact hread64.map _
      | exact hindex.map _
      | exact hconst32.map _
      | exact hconst64.map _
      | exact hsat
  · rw [decodeRest_of_not_named hnamed, operandWords_of_not_named imm hnamed]
    cases LoadOp.ofOpcode opcode with
    | some i => exact hread32.map _
    | none =>
        cases StoreOp.ofOpcode opcode with
        | some i => exact hread32.map _
        | none => cases NumOp.ofOpcode opcode <;> exact ReadsWords.pure _

theorem readsWords_dropLabels (n : ℕ) : ReadsWords code (2 * n) (dropLabels code n) := by
  induction n with
  | zero => exact ReadsWords.pure ()
  | succ n ih =>
      rw [Nat.mul_succ, Nat.add_comm, dropLabels, iterate_succ, bind_assoc]
      exact (read_wordU32 hcode).bind fun _ => ih

/-- The closure of a `br_table` reads all labels, whatever the selector. -/
theorem readsWords_brTableCase (n v : U32) :
    ReadsWords code (2 * (n.toNat + 1)) (brTableCase code n v) := by
  have hread := read_wordU32 hcode
  unfold brTableCase
  split
  case isTrue hlt =>
    have hv : v.toNat < n.toNat := BitVec.lt_def.1 hlt
    have hcase := (readsWords_dropLabels hcode v.toNat).bind fun _ => hread.bind fun l =>
      (readsWords_dropLabels hcode (n.toNat - (v.toNat + 1))).bind fun _ => hread.map fun _ => l
    rw [show 2 * v.toNat + (2 + (2 * (n.toNat - (v.toNat + 1)) + 2)) = 2 * (n.toNat + 1) by omega]
      at hcase
    exact hcase
  case isFalse => exact (readsWords_dropLabels hcode n.toNat).bind fun _ => hread

end Reads

theorem withValType_ne_brTable {imm : U8} {f : ValType → IrInstr}
    (hf : ∀ ty n, f ty ≠ .brTable n) (n : U32) : withValType imm f ≠ .brTable n := by
  unfold withValType
  split
  · exact hf _ n
  · intro h
    cases h

/-- Only the opcode of a `br_table` decodes to one. -/
theorem decodeRest_ne_brTable {opcode : U8} (h : opcode ≠ Opcode.brTable) (imm : U8) :
    Returns (fun i => ∀ n, i ≠ .brTable n) (decodeRest code opcode imm) := by
  unfold decodeRest
  rw [if_neg h]
  repeat' first
    | refine Returns.ite ?_ ?_
    | exact Returns.map fun _ _ h => by cases h
    | exact Returns.pure fun _ h => by cases h
    | exact Returns.bind fun _ => Returns.pure fun _ h => by cases h
    | exact Returns.pure (withValType_ne_brTable fun _ _ h => by cases h)
    | exact Returns.bind fun _ => Returns.pure (withValType_ne_brTable fun _ _ h => by cases h)
    | split

theorem decode_of_word (hcode : code.length < 2 ^ 24) {i : ℕ} (hi : i + 1 ≤ 256 * code.length) :
    decode code (addrOf i) =
      decodeRest code (opcodeAt code i) (immAt code i) (addrOf (i + 1)) :=
  bind_of_ok (read_word hcode hi)

/-- A `br_table` is decoded with its number of cases. -/
theorem decode_brTable (hcode : code.length < 2 ^ 24) {i : ℕ}
    (hop : opcodeAt code i = Opcode.brTable)
    (hi : i + 1 + operandWords Opcode.brTable (immAt code i) ≤ 256 * code.length) :
    decode code (addrOf i) = .ok (.brTable ((brTableCount code i).setWidth 32))
      (addrOf (i + 1 + operandWords Opcode.brTable (immAt code i))) := by
  have hwords : ∀ imm, operandWords Opcode.brTable imm = if imm = 0xFF then 1 else 0 := fun _ => rfl
  have hrest : ∀ imm, decodeRest code Opcode.brTable imm =
      (do let n ← readIndex code imm; Pure.pure (.brTable (n.setWidth 32))) := fun _ => rfl
  rw [hwords] at hi ⊢
  rw [decode_of_word hcode (by omega), hop, hrest]
  unfold readIndex brTableCount
  by_cases himm : immAt code i = 0xFF
  · rw [if_pos himm] at hi
    simp only [if_pos himm]
    rw [bind_of_ok (read_word hcode hi)]
    rfl
  · simp only [if_neg himm]
    rfl

/-- The decoder reads the words of any instruction other than a `br_table`. -/
theorem decode_words (hcode : code.length < 2 ^ 24) {i : ℕ}
    (hop : opcodeAt code i ≠ Opcode.brTable)
    (hi : i + instrWords code i ≤ 256 * code.length) :
    ∃ instr, decode code (addrOf i) = .ok instr (addrOf (i + instrWords code i)) ∧
      ∀ n, instr ≠ .brTable n := by
  have hwords : instrWords code i =
      1 + operandWords (opcodeAt code i) (immAt code i) := by
    unfold instrWords
    rw [if_neg hop, Nat.add_zero]
  rw [hwords] at hi ⊢
  rw [decode_of_word hcode (by omega), ← Nat.add_assoc]
  obtain ⟨instr, hrest⟩ := readsWords_decodeRest hcode _ _ (i + 1) (by rwa [Nat.add_assoc])
  exact ⟨instr, hrest, decodeRest_ne_brTable hop _ _ _ _ hrest⟩

/-- Visiting an instruction reads its words, and no others. -/
theorem visitInstruction_words (hcode : code.length < 2 ^ 24) {i : ℕ}
    (hi : i + instrWords code i ≤ 256 * code.length) (v : U32) :
    ∃ visited, visitInstruction code v (addrOf i) =
      .ok visited (addrOf (i + instrWords code i)) := by
  by_cases hop : opcodeAt code i = Opcode.brTable
  · have hcount : ((brTableCount code i).setWidth 32).toNat = (brTableCount code i).toNat := by
      rw [BitVec.toNat_setWidth, Nat.mod_eq_of_lt (Nat.lt_of_lt_of_le (BitVec.isLt _) (by decide))]
    have hwords : i + instrWords code i =
        i + 1 + operandWords Opcode.brTable (immAt code i) +
          2 * ((brTableCount code i).toNat + 1) := by
      unfold instrWords
      rw [if_pos hop, hop, Nat.add_assoc, Nat.add_assoc, Nat.add_assoc]
    rw [hwords] at hi ⊢
    obtain ⟨l, hlabel⟩ := readsWords_brTableCase hcode ((brTableCount code i).setWidth 32) v _
      (hcount.symm ▸ hi)
    rw [hcount] at hlabel
    unfold visitInstruction
    rw [bind_of_ok (decode_brTable hcode hop (by omega))]
    dsimp only
    rw [bind_of_ok hlabel]
    exact ⟨_, rfl⟩
  · obtain ⟨instr, hdecode, hne⟩ := decode_words hcode hop hi
    exact ⟨_, Listing.visitInstruction_of_decode hdecode hne⟩

end IrReader

/-! ### The code space -/

/-- An instruction inside the pages ends after its words, whatever the selector of a
`br_table`, and `advance` finds this address without a panic exactly if the
instruction does not cross word 2 ^ 31. -/
def AdvancesExactly (code : List TextPage) (i : ℕ) : Prop :=
  let n := IrReader.instrWords code i
  i + n ≤ 256 * code.length →
    (∀ v, ∃ visited,
        IrReader.visitInstruction code v (addrOf i) = .ok visited (addrOf (i + n))) ∧
      ((addrOf i).advanceChecked n = some (addrOf (i + n)) ↔ ¬Crosses i n)

/-- For all code pages the builder accepts: labels are right in wrapping
arithmetic; in checked arithmetic they are right exactly if the addresses are in
reach; and instructions end after their words, at the address that checked arithmetic
finds unless they cross word 2 ^ 31. -/
theorem CodeBuilder.addresses_exact {options : CompilerOptions} {heap : Heap} {c : CodeBuilder}
    (h : CodeBuilder.new options heap = .ok c) :
    (∀ i j, i ≤ 256 * options.maxCodePages → j ≤ 256 * options.maxCodePages →
      LabelTarget.Exact (fun a b => some (JumpOffset.new a b)) (fun a o => some (a + o))
          (addrOf i) (addrOf j) ∧
        (LabelTarget.Exact JumpOffset.newChecked JumpTarget.addChecked (addrOf i) (addrOf j) ↔
          JumpReach i j)) ∧
      ∀ code, code.length ≤ options.maxCodePages → ∀ i, AdvancesExactly code i := by
  have hmax : options.maxCodePages < 2 ^ 24 := by
    unfold CodeBuilder.new at h
    split at h
    · assumption
    · cases h
  refine ⟨fun i j hi hj => ⟨?_, ?_⟩, fun code hcode i hinside => ⟨fun v => ?_, ?_⟩⟩
  · exact LabelTarget.exact_wrapping (by omega)
  · exact LabelTarget.exact_checked (by omega) (by omega)
  · exact IrReader.visitInstruction_words (Nat.lt_of_le_of_lt hcode hmax) hinside v
  · exact advanceChecked_eq (by omega)

/-- The largest code space the builder accepts. -/
def wideOptions : CompilerOptions := ⟨true, none, 2 ^ 24 - 1⟩

/-- A page with a `br_table` of one case at its start. -/
def brTablePage : TextPage := TextPage.default.set 0 (TextBuilder.opWord Opcode.brTable 1)

theorem CodeBuilder.addresses_exact_wide :
    LabelTarget.Exact JumpOffset.newChecked JumpTarget.addChecked (addrOf 1) (addrOf 3) ∧
      (∀ v, ∃ visited,
        IrReader.visitInstruction [brTablePage] v (addrOf 0) = .ok visited (addrOf 5)) ∧
      (addrOf 0).advanceChecked 5 = some (addrOf 5) := by
  have hexact := @CodeBuilder.addresses_exact wideOptions ⟨fun _ _ => none, 0⟩ _ rfl
  have hlabel := (hexact.1 1 3 (by decide) (by decide)).2.2 (by decide)
  have hinstr := hexact.2 [brTablePage] (by decide) 0 (by decide)
  exact ⟨hlabel, hinstr.1, hinstr.2.2 fun hcross => absurd hcross.2 (by decide)⟩

/-- A label two words before word 2 ^ 31, and a target at it. -/
theorem CodeBuilder.addresses_overflow :
    (∃ c, CodeBuilder.new wideOptions ⟨fun _ _ => none, 0⟩ = .ok c) ∧
      0x80000000 ≤ 256 * wideOptions.maxCodePages ∧
      ¬LabelTarget.Exact JumpOffset.newChecked JumpTarget.addChecked
        (addrOf 0x7FFFFFFE) (addrOf 0x80000000) ∧
      JumpOffset.newChecked (addrOf 0x7FFFFFFE) (addrOf 0x80000000) = none ∧
      (addrOf 0x7FFFFFFF).advanceChecked 1 = none := by
  have hreach : ¬JumpReach 0x7FFFFFFE 0x80000000 := by decide
  refine ⟨⟨_, rfl⟩, by decide, ?_, ?_, by decide⟩
  · rwa [LabelTarget.exact_checked (by decide) (by decide)]
  · exact JumpOffset.newChecked_overflow (by decide) (by decide) hreach

end SpaceWasm
