import Mathlib.Tactic.Ring
import SpaceWasm.FunctionCode

/-!
# Local variables

A local index names an entry of the parameters followed by the local variables.
The parameters lie below the two link words that the frame pointer points to, the
local variables above them. `get_local` finds the entry by walking the run-length
groups with 16-bit counters.

`findVariableChecked` is the same walk with every addition and subtraction
checked, as in a build with overflow checks: `none` is an overflow. The counter
of the walk has room for 65535 entries, and that is what decides whether the walk
is right.
-/

namespace SpaceWasm

open Fallible

/-! ### What a local index stands for -/

/-- The types of the local variables, one after the other. -/
def expandLocals (groups : List (ℕ × ValType)) : List ValType :=
  groups.flatMap fun g => List.replicate g.1 g.2

@[simp] theorem expandLocals_nil : expandLocals [] = [] := rfl

@[simp] theorem expandLocals_cons (n : ℕ) (t : ValType) (groups : List (ℕ × ValType)) :
    expandLocals ((n, t) :: groups) = List.replicate n t ++ expandLocals groups := rfl

/-- The offset of entry `x` from the frame pointer, in words. -/
def localSlot (params locals : List ValType) (x : ℕ) : ℤ :=
  if x < params.length then wordsOf (params.take x) - wordsOf params
  else 2 + wordsOf (locals.take (x - params.length))

/-- The type of entry `x` and its offset, if the offset is in the range of a
local operand. -/
def resolveLocal (params locals : List ValType) (x : ℕ) : Except ValidationError (ValType × ℤ) :=
  match (params ++ locals)[x]? with
  | none => .error .localIdxOutOfRange
  | some t =>
      if params.length ≤ x ∧ 32765 < wordsOf (locals.take (x - params.length)) then
        .error .localIdxOutOfRange
      else .ok (t, localSlot params locals x)

/-- The words of the frame that a variable takes. -/
def LocalVariable.Covers (l : LocalVariable) (i : ℤ) : Prop :=
  l.frameOffset.toInt ≤ i ∧ i < l.frameOffset.toInt + l.ty.words

theorem wordsOf_take_succ {ts : List ValType} {t : ValType} {x : ℕ} (h : ts[x]? = some t) :
    wordsOf (ts.take (x + 1)) = wordsOf (ts.take x) + t.words := by
  rw [List.take_add_one, wordsOf_append, h]
  simp

theorem wordsOf_take_mono (ts : List ValType) {x y : ℕ} (h : x ≤ y) :
    wordsOf (ts.take x) ≤ wordsOf (ts.take y) := by
  have happend := congrArg wordsOf (List.take_append_drop x (ts.take y))
  rw [wordsOf_append, List.take_take, Nat.min_eq_left h] at happend
  omega

/-- A slot ends where the next one starts, or before the link words. -/
theorem localSlot_add_le {params locals : List ValType} {t : ValType} {x y : ℕ} (hxy : x < y)
    (h : (params ++ locals)[x]? = some t) :
    localSlot params locals x + t.words ≤ localSlot params locals y := by
  unfold localSlot
  by_cases hx : x < params.length
  · rw [List.getElem?_append_left hx] at h
    have hsucc := wordsOf_take_succ h
    rw [if_pos hx]
    by_cases hy : y < params.length
    · have hmono := wordsOf_take_mono params (show x + 1 ≤ y from hxy)
      rw [if_pos hy]
      omega
    · have hmono := wordsOf_take_mono params (show x + 1 ≤ params.length from hx)
      rw [List.take_length] at hmono
      rw [if_neg hy]
      omega
  · rw [List.getElem?_append_right (Nat.le_of_not_lt hx)] at h
    have hsucc := wordsOf_take_succ h
    have hmono := wordsOf_take_mono locals
      (show x - params.length + 1 ≤ y - params.length by omega)
    rw [if_neg hx, if_neg (by omega)]
    omega

/-! ### The walk with checked arithmetic -/

/-- The result of an operation that must fit. -/
def checked {α : Type} (fits : Prop) [Decidable fits] (a : α) : Option α :=
  if fits then some a else none

theorem checked_of {α : Type} {fits : Prop} [Decidable fits] (h : fits) (a : α) :
    checked fits a = some a :=
  if_pos h

namespace TextBuilder

def findParamChecked : List ValType → (x i : U16) → ℕ → Option ((ValType × ℕ) ⊕ U16)
  | [], _, i, _ => some (.inr i)
  | t :: ts, x, i, offset =>
      if x = i then some (.inl (t, offset))
      else do
        let next ← checked (i.toNat + 1 < 2 ^ 16) (i + 1)
        let offset ← checked (offset + t.size ≤ usizeMax) (offset + t.size)
        findParamChecked ts x next offset

def findLocalChecked : List (ℕ × ValType) → (x current : U16) → ℕ →
    Option (Except ValidationError LocalVariable)
  | [], _, _, _ => some (.error .localIdxOutOfRange)
  | (n, ty) :: rest, x, current, offset => do
      let next ← checked (current.toNat + n < 2 ^ 16) (current + BitVec.ofNat 16 n)
      if x < next then do
        let index ← checked (current ≤ x) (x - current)
        let size ← checked (ty.size * index.toNat ≤ usizeMax) (ty.size * index.toNat)
        let offset ← checked (offset + size ≤ usizeMax) (offset + size)
        let wordOffset := offset / 4
        if 32767 - 2 < wordOffset then some (.error .localIdxOutOfRange)
        else do
          let frameOffset ← checked (wordOffset + 2 ≤ 32767) (BitVec.ofNat 16 wordOffset + 2)
          some (.ok ⟨frameOffset, ty⟩)
      else do
        let size ← checked (n * ty.size ≤ usizeMax) (n * ty.size)
        let offset ← checked (offset + size ≤ usizeMax) (offset + size)
        findLocalChecked rest x next offset

def findVariableChecked (signature : FuncType) (func : Func) (x : Idx) :
    Option (Except ValidationError LocalVariable) := do
  let x := BitVec.ofNat 16 x
  match ← findParamChecked signature.params x 0 0 with
  | .inl (ty, offset) =>
      -- A difference of two `i32`, which the cast to `i16` narrows.
      let frameOffset ← checked (offset / 4 < 2 ^ 31 ∧ func.parameterSize < 2 ^ 31)
        (BitVec.ofNat 16 (offset / 4) - BitVec.ofNat 16 func.parameterSize)
      some (.ok ⟨frameOffset, ty⟩)
  | .inr current => findLocalChecked func.locals x current 0

/-! ### The walk over the parameters -/

theorem findParam_eq {ts : List ValType} {x i : U16} {offset : ℕ} (hi : i.toNat ≤ x.toNat)
    (hroom : i.toNat + ts.length < 2 ^ 16) (hsize : offset + 4 * wordsOf ts ≤ usizeMax) :
    findParamChecked ts x i offset = some (findParam ts x i offset) ∧
      findParam ts x i offset = match ts[x.toNat - i.toNat]? with
        | some t => .inl (t, offset + 4 * wordsOf (ts.take (x.toNat - i.toNat)))
        | none => .inr (i + BitVec.ofNat 16 ts.length) := by
  induction ts generalizing i offset with
  | nil => simp [findParamChecked, findParam]
  | cons t ts ih =>
      rw [List.length_cons] at hroom
      rw [wordsOf_cons] at hsize
      unfold findParamChecked findParam
      by_cases hx : x = i
      · subst hx
        simp
      · have hne : x.toNat ≠ i.toNat := fun h => hx (BitVec.eq_of_toNat_eq h)
        have hnext : (i + 1).toNat = i.toNat + 1 := by
          rw [BitVec.toNat_add]
          exact Nat.mod_eq_of_lt (by simp; omega)
        have hsub : x.toNat - i.toNat = x.toNat - (i + 1).toNat + 1 := by omega
        rw [if_neg hx, if_neg hx, checked_of (by omega), checked_of (by rw [t.size_eq]; omega)]
        have hrest := ih (show (i + 1).toNat ≤ x.toNat by omega) (by omega)
          (show offset + t.size + 4 * wordsOf ts ≤ usizeMax by rw [t.size_eq]; omega)
        refine ⟨hrest.1, hrest.2.trans ?_⟩
        rw [hsub, List.getElem?_cons_succ, List.take_succ_cons, wordsOf_cons, t.size_eq]
        cases ts[x.toNat - (i + 1).toNat]? with
        | some u => simp only [Nat.mul_add, Nat.add_assoc]
        | none =>
            simp only [List.length_cons, Sum.inr.injEq]
            rw [BitVec.ofNat_add, BitVec.add_assoc, BitVec.add_comm 1]
            rfl

/-! ### The walk over the groups -/

theorem wordsOf_replicate (n : ℕ) (t : ValType) : wordsOf (List.replicate n t) = n * t.words := by
  simp [wordsOf]

theorem length_le_wordsOf (ts : List ValType) : ts.length ≤ wordsOf ts := by
  induction ts with
  | nil => rfl
  | cons t ts ih =>
      have := t.words_pos
      rw [List.length_cons, wordsOf_cons]
      omega

theorem wordsOf_take_le (ts : List ValType) (n : ℕ) : wordsOf (ts.take n) ≤ wordsOf ts := by
  have h := congrArg wordsOf (List.take_append_drop n ts)
  rw [wordsOf_append] at h
  omega

/-- As long as the counter does not overflow, the walk finds the entry. -/
theorem findLocal_eq {groups : List (ℕ × ValType)} {x current : U16} {w : ℕ}
    (hcurrent : current.toNat ≤ x.toNat)
    (hroom : current.toNat + (expandLocals groups).length < 2 ^ 16)
    (hsize : 4 * (w + wordsOf (expandLocals groups)) ≤ usizeMax) :
    findLocalChecked groups x current (4 * w) = some (findLocal groups x current (4 * w)) ∧
      findLocal groups x current (4 * w) =
        match (expandLocals groups)[x.toNat - current.toNat]? with
        | some t =>
            let offset := w + wordsOf ((expandLocals groups).take (x.toNat - current.toNat))
            if 32765 < offset then .error .localIdxOutOfRange
            else .ok ⟨BitVec.ofNat 16 offset + 2, t⟩
        | none => .error .localIdxOutOfRange := by
  induction groups generalizing current w with
  | nil => simp [findLocalChecked, findLocal]
  | cons group groups ih =>
      obtain ⟨n, t⟩ := group
      rw [expandLocals_cons, List.length_append, List.length_replicate] at hroom
      rw [expandLocals_cons, wordsOf_append, wordsOf_replicate] at hsize
      have hn : (BitVec.ofNat 16 n).toNat = n := Nat.mod_eq_of_lt (by omega)
      have hnext : (current + BitVec.ofNat 16 n).toNat = current.toNat + n := by
        rw [BitVec.toNat_add, hn]
        exact Nat.mod_eq_of_lt (by omega)
      unfold findLocalChecked findLocal
      rw [expandLocals_cons, checked_of (by omega)]
      by_cases hx : x.toNat < current.toNat + n
      · have hlt : x < current + BitVec.ofNat 16 n := by rwa [BitVec.lt_def, hnext]
        have hindex : (x - current).toNat = x.toNat - current.toNat :=
          BitVec.toNat_sub_of_le (BitVec.le_def.2 hcurrent)
        have hk : x.toNat - current.toNat < n := by omega
        have hle : (x.toNat - current.toNat) * t.words ≤ n * t.words :=
          Nat.mul_le_mul_right _ (Nat.le_of_lt hk)
        have hoffset : 4 * w + t.size * (x.toNat - current.toNat) =
            4 * (w + (x.toNat - current.toNat) * t.words) := by
          rw [t.size_eq]
          ring
        have hwords : (4 * (w + (x.toNat - current.toNat) * t.words)) / 4 =
            w + (x.toNat - current.toNat) * t.words := Nat.mul_div_cancel_left _ (by decide)
        rw [List.getElem?_append_left (by simpa using hk), List.getElem?_replicate_of_lt hk,
          List.take_append_of_le_length (by simpa using Nat.le_of_lt hk), List.take_replicate,
          Nat.min_eq_left (Nat.le_of_lt hk), wordsOf_replicate]
        simp only [Option.bind_eq_bind, Option.bind_some]
        rw [if_pos hlt, if_pos hlt, checked_of (BitVec.le_def.2 hcurrent)]
        simp only [Option.bind_some, hindex]
        rw [checked_of (by omega)]
        simp only [Option.bind_some]
        rw [checked_of (by omega), hoffset]
        simp only [Option.bind_some, hwords]
        by_cases hfar : 32767 - 2 < w + (x.toNat - current.toNat) * t.words
        · rw [if_pos hfar, if_pos hfar]
          exact ⟨rfl, trivial⟩
        · rw [if_neg hfar, if_neg hfar, checked_of (by omega)]
          exact ⟨rfl, trivial⟩
      · have hlt : ¬x < current + BitVec.ofNat 16 n := by rwa [BitVec.lt_def, hnext]
        have hk : n ≤ x.toNat - current.toNat := by omega
        have hbytes : n * t.size = 4 * (n * t.words) := by
          rw [t.size_eq]
          ring
        have hoffset : 4 * w + n * t.size = 4 * (w + n * t.words) := by
          rw [hbytes, Nat.mul_add]
        have hrest := ih (show (current + BitVec.ofNat 16 n).toNat ≤ x.toNat by omega) (by omega)
          (show 4 * (w + n * t.words + wordsOf (expandLocals groups)) ≤ usizeMax by omega)
        have hsub :
            x.toNat - (current + BitVec.ofNat 16 n).toNat = x.toNat - current.toNat - n := by
          omega
        simp only [Option.bind_eq_bind, Option.bind_some]
        rw [if_neg hlt, if_neg hlt, checked_of (by omega)]
        simp only [Option.bind_some]
        rw [checked_of (by omega), hoffset]
        refine ⟨hrest.1, hrest.2.trans ?_⟩
        have htake : (List.replicate n t).take (x.toNat - current.toNat) = List.replicate n t :=
          List.take_of_length_le (by simpa using hk)
        rw [List.getElem?_append_right (by simpa using hk), List.length_replicate, hsub,
          List.take_append, List.length_replicate, htake, wordsOf_append, wordsOf_replicate]
        simp only [Nat.add_assoc]

/-- When the entries are more than the counter holds, the walk to the last index
overflows. -/
theorem findLocalChecked_overflow {groups : List (ℕ × ValType)} {x current : U16} {offset : ℕ}
    (hx : x.toNat = 65535) (hroom : 65535 < current.toNat + (expandLocals groups).length) :
    findLocalChecked groups x current offset = none := by
  induction groups generalizing current offset with
  | nil =>
      rw [expandLocals_nil, List.length_nil] at hroom
      have := current.isLt
      omega
  | cons group groups ih =>
      obtain ⟨n, t⟩ := group
      rw [expandLocals_cons, List.length_append, List.length_replicate] at hroom
      unfold findLocalChecked
      by_cases hfits : current.toNat + n < 2 ^ 16
      · have hnext : (current + BitVec.ofNat 16 n).toNat = current.toNat + n := by
          rw [BitVec.toNat_add, BitVec.toNat_ofNat, Nat.add_mod_mod]
          exact Nat.mod_eq_of_lt hfits
        have hlt : ¬x < current + BitVec.ofNat 16 n := by
          rw [BitVec.lt_def, hnext]
          omega
        rw [checked_of hfits]
        simp only [Option.bind_eq_bind, Option.bind_some]
        rw [if_neg hlt]
        unfold checked
        split
        · simp only [Option.bind_some]
          split
          · exact ih (by omega)
          · rfl
        · rfl
      · rw [checked, if_neg hfits]
        rfl

/-! ### The variable -/

section Variable

variable {signature : FuncType} {func : Func} {x : ℕ}

theorem toInt_word {n : ℕ} (h : n ≤ 32765) : (BitVec.ofNat 16 n + 2).toInt = 2 + n := by
  have htwo : (2 : U16).toNat = 2 := rfl
  rw [BitVec.toInt_eq_toNat_cond, BitVec.toNat_add, BitVec.toNat_ofNat, htwo, if_pos (by omega)]
  omega

theorem toInt_below {n m : ℕ} (hn : n ≤ m) (hm : m ≤ 255) :
    (BitVec.ofNat 16 n - BitVec.ofNat 16 m).toInt = (n : ℤ) - m := by
  have hn' : (BitVec.ofNat 16 n).toInt = n := by
    rw [BitVec.toInt_ofNat']
    exact Int.bmod_eq_of_le (by omega) (by omega)
  have hm' : (BitVec.ofNat 16 m).toInt = m := by
    rw [BitVec.toInt_ofNat']
    exact Int.bmod_eq_of_le (by omega) (by omega)
  rw [BitVec.toInt_sub, hn', hm']
  exact Int.bmod_eq_of_le (by omega) (by omega)

/-- The walk is right if the counter has room for all entries. -/
theorem findVariable_eq (hsize : func.parameterSize = wordsOf signature.params)
    (hparams : wordsOf signature.params ≤ 255)
    (hlocals : wordsOf (expandLocals func.locals) ≤ 65535)
    (hroom : signature.params.length + (expandLocals func.locals).length ≤ 65535)
    (hx : x ≤ 0xFFFF) :
    findVariableChecked signature func x = some (findVariable signature func x) ∧
      (∀ t offset, resolveLocal signature.params (expandLocals func.locals) x = .ok (t, offset) →
        ∃ l, findVariable signature func x = .ok l ∧ l.ty = t ∧ l.frameOffset.toInt = offset) ∧
      ∀ e, resolveLocal signature.params (expandLocals func.locals) x = .error e →
        findVariable signature func x = .error e := by
  have hword : (BitVec.ofNat 16 x).toNat = x := Nat.mod_eq_of_lt (by omega)
  have hmax : 65535 * 16 ≤ usizeMax := by decide
  have hlength := length_le_wordsOf signature.params
  obtain ⟨hchecked, hfind⟩ := @findParam_eq signature.params (BitVec.ofNat 16 x) 0 0
    (Nat.zero_le _) (by simp; omega) (by omega)
  have hzero : (0 : U16).toNat = 0 := rfl
  rw [hword, hzero, Nat.sub_zero] at hfind
  unfold findVariableChecked findVariable resolveLocal
  simp only [Option.bind_eq_bind]
  rw [hchecked, hfind]
  by_cases hlt : x < signature.params.length
  · -- a parameter
    have htake := wordsOf_take_le signature.params x
    have hwords : (0 + 4 * wordsOf (signature.params.take x)) / 4 =
        wordsOf (signature.params.take x) := by
      omega
    rw [List.getElem?_append_left hlt, List.getElem?_eq_getElem hlt]
    simp only [Option.bind_some]
    rw [hwords, checked_of (by omega), if_neg (fun h => Nat.not_le_of_lt hlt h.1)]
    refine ⟨rfl, ?_, fun _ h => by cases h⟩
    rintro t offset h
    cases h
    refine ⟨_, rfl, rfl, ?_⟩
    rw [hsize, localSlot, if_pos hlt]
    exact toInt_below htake hparams
  · -- a local variable
    have hle := Nat.le_of_not_lt hlt
    have hcount : (0 + BitVec.ofNat 16 signature.params.length).toNat =
        signature.params.length := by
      rw [BitVec.toNat_add, BitVec.toNat_ofNat, hzero, Nat.zero_add, Nat.mod_mod]
      exact Nat.mod_eq_of_lt (by omega)
    obtain ⟨hchecked', hfind'⟩ := @findLocal_eq func.locals (BitVec.ofNat 16 x)
      (0 + BitVec.ofNat 16 signature.params.length) 0 (by omega) (by omega) (by omega)
    rw [hword, hcount, Nat.mul_zero] at hfind'
    rw [Nat.mul_zero] at hchecked'
    rw [List.getElem?_append_right hle, List.getElem?_eq_none hle]
    simp only [Option.bind_some]
    rw [hchecked', hfind']
    refine ⟨rfl, ?_, ?_⟩
    · rintro t offset h
      cases hget : (expandLocals func.locals)[x - signature.params.length]? with
      | none =>
          rw [hget] at h
          cases h
      | some u =>
          rw [hget] at h
          simp only [hle, true_and] at h
          simp only [Nat.zero_add]
          split at h
          · cases h
          · next hnear =>
            cases h
            rw [if_neg hnear]
            refine ⟨_, rfl, rfl, ?_⟩
            rw [localSlot, if_neg hlt]
            exact toInt_word (Nat.le_of_not_lt hnear)
    · rintro e h
      cases hget : (expandLocals func.locals)[x - signature.params.length]? with
      | none =>
          rw [hget] at h
          exact congrArg Except.error (Except.error.inj h)
      | some u =>
          rw [hget] at h
          simp only [hle, true_and] at h
          simp only [Nat.zero_add]
          split at h
          · next hfar =>
            rw [if_pos hfar]
            exact congrArg Except.error (Except.error.inj h)
          · cases h

/-- Otherwise the walk to the last index overflows. -/
theorem findVariableChecked_overflow (hparams : wordsOf signature.params ≤ 255)
    (hroom : 65535 < signature.params.length + (expandLocals func.locals).length) :
    findVariableChecked signature func 65535 = none := by
  have hmax : 65535 * 16 ≤ usizeMax := by decide
  have hlength := length_le_wordsOf signature.params
  obtain ⟨hchecked, hfind⟩ := @findParam_eq signature.params (BitVec.ofNat 16 65535) 0 0
    (Nat.zero_le _) (by simp; omega) (by omega)
  have hzero : (0 : U16).toNat = 0 := rfl
  have hle : signature.params.length ≤ (BitVec.ofNat 16 65535).toNat - (0 : U16).toNat := by
    simp
    omega
  have hcount : (0 + BitVec.ofNat 16 signature.params.length).toNat = signature.params.length := by
    rw [BitVec.toNat_add, BitVec.toNat_ofNat, hzero, Nat.zero_add, Nat.mod_mod]
    exact Nat.mod_eq_of_lt (by omega)
  unfold findVariableChecked
  simp only [Option.bind_eq_bind]
  rw [hchecked, hfind, List.getElem?_eq_none hle]
  simp only [Option.bind_some]
  exact findLocalChecked_overflow rfl (by omega)

end Variable

/-! ### Local indices -/

variable {F D : ℕ}

/-- Every index resolves as it is meant to, without an overflow on the way, and
distinct ones to distinct words of the frame. -/
structure ResolvesLocals (s : TextBuilder F D) (signature : FuncType) : Prop where
  fits : ∀ x ≤ 0xFFFF, findVariableChecked signature s.func x =
    some (findVariable signature s.func x)
  found : ∀ (x : ℕ) t offset,
    resolveLocal signature.params (expandLocals s.func.locals) x = .ok (t, offset) →
      ∃ l, getLocal x s = .ok l s ∧ l.ty = t ∧ l.frameOffset.toInt = offset
  missing : ∀ (x : ℕ) e,
    resolveLocal signature.params (expandLocals s.func.locals) x = .error e →
      getLocal x s = .error e s
  disjoint : ∀ (x y : ℕ) l k, x ≠ y → getLocal x s = .ok l s → getLocal y s = .ok k s →
    ∀ i, l.Covers i → ¬k.Covers i

section Exact

variable {s : TextBuilder F D} {signature : FuncType}

theorem getLocal_apply (hty : s.module.types[s.func.ty]? = some signature) {x : ℕ}
    (hx : x ≤ 0xFFFF) : getLocal x s = ofExcept (findVariable signature s.func x) s := by
  unfold getLocal
  rw [bind_of_ok (get_apply s), if_neg (Nat.not_lt_of_le hx), hty]
  rfl

theorem getLocal_large {x : ℕ} (hx : 0xFFFF < x) :
    getLocal x s = .error .localIdxOutOfRange s := by
  unfold getLocal
  rw [bind_of_ok (get_apply s), if_pos hx]
  rfl

/-- Every local index is resolved as it is meant to be exactly when the function has
no more than 65535 parameters and local variables. -/
theorem getLocal_exact (s : TextBuilder F D) (signature : FuncType)
    (hty : s.module.types[s.func.ty]? = some signature)
    (hsize : s.func.parameterSize = wordsOf signature.params)
    (hparams : wordsOf signature.params ≤ 255)
    (hlocals : wordsOf (expandLocals s.func.locals) ≤ 65535) :
    s.ResolvesLocals signature ↔
      signature.params.length + (expandLocals s.func.locals).length ≤ 65535 := by
  constructor
  · intro h
    by_contra hroom
    have hfits := h.fits 65535 (Nat.le_refl _)
    rw [findVariableChecked_overflow hparams (Nat.lt_of_not_le hroom)] at hfits
    cases hfits
  · intro hroom
    have hfind := fun x hx => @findVariable_eq signature s.func x hsize hparams hlocals hroom hx
    have hfound : ∀ (x : ℕ) t offset,
        resolveLocal signature.params (expandLocals s.func.locals) x = .ok (t, offset) →
          ∃ l, getLocal x s = .ok l s ∧ l.ty = t ∧ l.frameOffset.toInt = offset := by
      intro x t offset h
      have hx : x ≤ 0xFFFF := by
        unfold resolveLocal at h
        cases hget : (signature.params ++ expandLocals s.func.locals)[x]? with
        | none =>
            rw [hget] at h
            cases h
        | some u =>
            have hlt := (List.getElem?_eq_some_iff.1 hget).1
            rw [List.length_append] at hlt
            omega
      obtain ⟨l, hl, hl'⟩ := (hfind x hx).2.1 t offset h
      exact ⟨l, by rw [getLocal_apply hty hx, hl]; rfl, hl'⟩
    have hmissing : ∀ (x : ℕ) e,
        resolveLocal signature.params (expandLocals s.func.locals) x = .error e →
          getLocal x s = .error e s := by
      intro x e h
      by_cases hx : x ≤ 0xFFFF
      · rw [getLocal_apply hty hx, (hfind x hx).2.2 e h]
        rfl
      · have hnone : (signature.params ++ expandLocals s.func.locals)[x]? = none := by
          rw [List.getElem?_eq_none_iff, List.length_append]
          omega
        unfold resolveLocal at h
        rw [hnone] at h
        cases h
        exact getLocal_large (Nat.lt_of_not_le hx)
    -- what is found is an entry at its slot
    have hslot : ∀ (x : ℕ) l, getLocal x s = .ok l s →
        (signature.params ++ expandLocals s.func.locals)[x]? = some l.ty ∧
          l.frameOffset.toInt = localSlot signature.params (expandLocals s.func.locals) x := by
      intro x l hl
      cases h : resolveLocal signature.params (expandLocals s.func.locals) x with
      | error e =>
          rw [hmissing x e h] at hl
          cases hl
      | ok p =>
          obtain ⟨l', hl', hty', hoffset⟩ := hfound x p.1 p.2 h
          obtain rfl : l = l' := (Outcome.ok.inj (hl.symm.trans hl')).1
          unfold resolveLocal at h
          cases hget : (signature.params ++ expandLocals s.func.locals)[x]? with
          | none =>
              rw [hget] at h
              cases h
          | some u =>
              rw [hget] at h
              simp only at h
              split at h
              · cases h
              · cases h
                exact ⟨congrArg some hty'.symm, hoffset⟩
    refine ⟨fun x hx => (hfind x hx).1, hfound, hmissing, ?_⟩
    intro x y l k hne hl hk i hli hki
    obtain ⟨hx, hlx⟩ := hslot x l hl
    obtain ⟨hy, hky⟩ := hslot y k hk
    unfold LocalVariable.Covers at hli hki
    rcases Nat.lt_or_gt_of_ne hne with hlt | hlt
    · have := localSlot_add_le hlt hx
      omega
    · have := localSlot_add_le hlt hy
      omega

end Exact

/-- A function with one parameter and `n` local variables, all of type `i32`. -/
def withLocals (n : ℕ) : TextBuilder simpleEnv.maxControlFrames simpleEnv.maxStackDepth :=
  TextBuilder.new emptyBuilder emptyStore { Module.empty [] with types := [⟨[.i32], []⟩] }
    { thunk with parameterSize := 1, locals := [(n, .i32)] }

theorem expandLocals_withLocals (n : ℕ) :
    expandLocals (withLocals n).func.locals = List.replicate n .i32 := by
  have hlocals : (withLocals n).func.locals = [(n, .i32)] := rfl
  rw [hlocals, expandLocals_cons, expandLocals_nil, List.append_nil]

theorem wordsOf_withLocals (n : ℕ) : wordsOf (expandLocals (withLocals n).func.locals) = n := by
  rw [expandLocals_withLocals, wordsOf_replicate]
  exact Nat.mul_one n

theorem resolveLocal_withLocals {n : ℕ} (hn : 0 < n) :
    resolveLocal [.i32] (expandLocals (withLocals n).func.locals) 1 = .ok (.i32, 2) := by
  have hget : ([.i32] ++ List.replicate n .i32 : List ValType)[1]? = some .i32 := by
    rw [List.getElem?_append_right (Nat.le_refl 1)]
    exact List.getElem?_replicate_of_lt hn
  rw [expandLocals_withLocals]
  unfold resolveLocal
  rw [hget]
  simp [localSlot]

/-- With 65535 local variables the first one is not found. -/
theorem getLocal_crowded :
    wordsOf (expandLocals (withLocals 65535).func.locals) ≤ 65535 ∧
      resolveLocal [.i32] (expandLocals (withLocals 65535).func.locals) 1 = .ok (.i32, 2) ∧
      getLocal 1 (withLocals 65535) = .error .localIdxOutOfRange (withLocals 65535) ∧
      findVariableChecked ⟨[.i32], []⟩ (withLocals 65535).func 1 = none ∧
      ¬(withLocals 65535).ResolvesLocals ⟨[.i32], []⟩ := by
  have hresolve := resolveLocal_withLocals (show 0 < 65535 by decide)
  have hget : getLocal 1 (withLocals 65535) = .error .localIdxOutOfRange (withLocals 65535) := rfl
  have hchecked : (findVariableChecked ⟨[.i32], []⟩ (withLocals 65535).func 1).isNone = true := by
    decide +kernel
  refine ⟨Nat.le_of_eq (wordsOf_withLocals 65535), hresolve, hget,
    Option.isNone_iff_eq_none.1 hchecked, fun h => ?_⟩
  obtain ⟨l, hl, -⟩ := h.found 1 .i32 2 hresolve
  rw [hget] at hl
  cases hl

theorem getLocal_exact_three : (withLocals 3).ResolvesLocals ⟨[.i32], []⟩ :=
  (getLocal_exact (withLocals 3) ⟨[.i32], []⟩ rfl rfl (by decide) (by decide)).2 (by decide)

end TextBuilder

end SpaceWasm
