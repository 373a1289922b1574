import SpaceWasm.Interpreter
import SpaceWasm.Lib.ModularInteger
import SpaceWasm.StackAccess

/-!
# The integer instructions

The integer instructions as the specification has them, on integers modulo a power of
two, and the handlers of the interpreter, which compute the same values in place.
-/

namespace SpaceWasm

open Fallible ModularInteger

/-- An integer instruction: the widths of its operands and of its result, in bits, and
its value, if it does not trap. -/
inductive IntInstr where
  | unop (n m : ℕ) (f : ℕ → Option ℕ)
  | binop (n m : ℕ) (f : ℕ → ℕ → Option ℕ)

namespace IntInstr

def operands : IntInstr → List ℕ
  | unop n _ _ => [n]
  | binop n _ _ => [n, n]

def result : IntInstr → ℕ
  | unop _ m _ => m
  | binop _ m _ => m

def eval : IntInstr → List ℕ → Option ℕ
  | unop _ _ f, [a] => f a
  | binop _ _ f, [a, b] => f a b
  | _, _ => none

/-- A test of one operand. -/
def test (n : ℕ) (p : ℕ → Bool) : IntInstr := .unop n 32 fun a => some (bool (p a))

def compare (n : ℕ) (p : ℕ → ℕ → Bool) : IntInstr := .binop n 32 fun a b => some (bool (p a b))

/-- A comparison of numbers in two's complement. -/
def compareS (n : ℕ) (p : ℤ → ℤ → Bool) : IntInstr :=
  compare n fun a b => p (signed n a) (signed n b)

/-- An operation that is defined everywhere. -/
def unary (n : ℕ) (f : ℕ → ℕ) : IntInstr := .unop n n fun a => some (f a)

def binary (n : ℕ) (f : ℕ → ℕ → ℕ) : IntInstr := .binop n n fun a b => some (f a b)

end IntInstr

open IntInstr in
/-- The integer instructions of the specification. -/
def NumOp.intInstr? : NumOp → Option IntInstr
  | i32Eqz => test 32 (· == 0)
  | i32Eq => compare 32 (· == ·)
  | i32Ne => compare 32 (· != ·)
  | i32LtS => compareS 32 (· < ·)
  | i32LtU => compare 32 (· < ·)
  | i32GtS => compareS 32 (· > ·)
  | i32GtU => compare 32 (· > ·)
  | i32LeS => compareS 32 (· ≤ ·)
  | i32LeU => compare 32 (· ≤ ·)
  | i32GeS => compareS 32 (· ≥ ·)
  | i32GeU => compare 32 (· ≥ ·)
  | i64Eqz => test 64 (· == 0)
  | i64Eq => compare 64 (· == ·)
  | i64Ne => compare 64 (· != ·)
  | i64LtS => compareS 64 (· < ·)
  | i64LtU => compare 64 (· < ·)
  | i64GtS => compareS 64 (· > ·)
  | i64GtU => compare 64 (· > ·)
  | i64LeS => compareS 64 (· ≤ ·)
  | i64LeU => compare 64 (· ≤ ·)
  | i64GeS => compareS 64 (· ≥ ·)
  | i64GeU => compare 64 (· ≥ ·)
  | i32Clz => unary 32 (clz 32)
  | i32Ctz => unary 32 (ctz 32)
  | i32Popcnt => unary 32 (popcnt 32)
  | i32Add => binary 32 (add 32)
  | i32Sub => binary 32 (sub 32)
  | i32Mul => binary 32 (mul 32)
  | i32DivS => IntInstr.binop 32 32 (divS 32)
  | i32DivU => IntInstr.binop 32 32 divU
  | i32RemS => IntInstr.binop 32 32 (remS 32)
  | i32RemU => IntInstr.binop 32 32 remU
  | i32And => binary 32 (· &&& ·)
  | i32Or => binary 32 (· ||| ·)
  | i32Xor => binary 32 (· ^^^ ·)
  | i32Shl => binary 32 (shl 32)
  | i32ShrS => binary 32 (shrS 32)
  | i32ShrU => binary 32 (shrU 32)
  | i32Rotl => binary 32 (rotl 32)
  | i32Rotr => binary 32 (rotr 32)
  | i64Clz => unary 64 (clz 64)
  | i64Ctz => unary 64 (ctz 64)
  | i64Popcnt => unary 64 (popcnt 64)
  | i64Add => binary 64 (add 64)
  | i64Sub => binary 64 (sub 64)
  | i64Mul => binary 64 (mul 64)
  | i64DivS => IntInstr.binop 64 64 (divS 64)
  | i64DivU => IntInstr.binop 64 64 divU
  | i64RemS => IntInstr.binop 64 64 (remS 64)
  | i64RemU => IntInstr.binop 64 64 remU
  | i64And => binary 64 (· &&& ·)
  | i64Or => binary 64 (· ||| ·)
  | i64Xor => binary 64 (· ^^^ ·)
  | i64Shl => binary 64 (shl 64)
  | i64ShrS => binary 64 (shrS 64)
  | i64ShrU => binary 64 (shrU 64)
  | i64Rotl => binary 64 (rotl 64)
  | i64Rotr => binary 64 (rotr 64)
  | i32WrapI64 => IntInstr.unop 64 32 fun a => some (a % 2 ^ 32)
  | i64ExtendI32S => IntInstr.unop 32 64 fun a => some (extendS 32 a 64)
  | i64ExtendI32U => IntInstr.unop 32 64 some
  | i32Extend8S => unary 32 fun a => extendS 8 (a % 2 ^ 8) 32
  | i32Extend16S => unary 32 fun a => extendS 16 (a % 2 ^ 16) 32
  | i64Extend8S => unary 64 fun a => extendS 8 (a % 2 ^ 8) 64
  | i64Extend16S => unary 64 fun a => extendS 16 (a % 2 ^ 16) 64
  | i64Extend32S => unary 64 fun a => extendS 32 (a % 2 ^ 32) 64
  | _ => none

/-- Where the division of the host that a handler comes to panics: the signed division
at zero and at an overflow, the others at zero. -/
def NumOp.divisionPanics : NumOp → List ℕ → Bool
  | i32DivS, [a, b] => b == 0 || a == 2 ^ 31 && b == 2 ^ 32 - 1
  | i64DivS, [a, b] => b == 0 || a == 2 ^ 63 && b == 2 ^ 64 - 1
  | i32DivU, [_, b] | i32RemS, [_, b] | i32RemU, [_, b] => b == 0
  | i64DivU, [_, b] | i64RemS, [_, b] | i64RemU, [_, b] => b == 0
  | _, _ => false

/-- The stack words of an integer. -/
def intWords (n v : ℕ) : List U32 :=
  if n = 64 then [lowWord (.ofNat 64 v), highWord (.ofNat 64 v)] else [.ofNat 32 v]

/-- The stack words of operands, the first one lowest. -/
def operandWords (ns vs : List ℕ) : List U32 := (ns.zipWith intWords vs).flatten

/-! ### The handlers' functions -/

/-- A function on words computes a partial function on integers. -/
def Computes1 {v w : ℕ} (f : BitVec v → NumResult (BitVec w)) (g : ℕ → Option ℕ) : Prop :=
  ∀ a, (f a).toOption.map BitVec.toNat = g a.toNat

def Computes2 {v w : ℕ} (f : BitVec v → BitVec v → NumResult (BitVec w))
    (g : ℕ → ℕ → Option ℕ) : Prop :=
  ∀ a b, (f a b).toOption.map BitVec.toNat = g a.toNat b.toNat

/-- A handler implements an instruction: the shape of its operands and its function. -/
inductive NumSem.Implements : NumSem → IntInstr → Prop where
  | unary32 {f g} : Computes1 f g → Implements (.unary32 f) (.unop 32 32 g)
  | unary64 {f g} : Computes1 f g → Implements (.unary64 f) (.unop 64 64 g)
  | binary32 {f g} : Computes2 f g → Implements (.binary32 f) (.binop 32 32 g)
  | binary64 {f g} : Computes2 f g → Implements (.binary64 f) (.binop 64 64 g)
  | compare64 {f g} : Computes2 f g → Implements (.compare64 f) (.binop 64 32 g)
  | narrow {f g} : Computes1 f g → Implements (.narrow f) (.unop 64 32 g)
  | wrap {f g} : Computes1 f g → Implements (.wrap f) (.unop 64 32 g)
  | widen {f g} : Computes1 f g → Implements (.widen f) (.unop 32 64 g)

section Values

variable {w : ℕ}

theorem computes_bool1 {p : BitVec w → Bool} {q : ℕ → Bool} (h : ∀ a, p a = q a.toNat) :
    Computes1 (fun a => bool32 (p a)) fun a => some (bool (q a)) := by
  intro a
  dsimp only
  rw [← h a]
  cases p a <;> rfl

theorem computes_bool2 {p : BitVec w → BitVec w → Bool} {q : ℕ → ℕ → Bool}
    (h : ∀ a b, p a b = q a.toNat b.toNat) :
    Computes2 (fun a b => bool32 (p a b)) fun a b => some (bool (q a b)) := by
  intro a b
  dsimp only
  rw [← h a b]
  cases p a b <;> rfl

theorem computes_total1 {v : ℕ} {f : BitVec w → BitVec v} {g : ℕ → ℕ}
    (h : ∀ a, (f a).toNat = g a.toNat) : Computes1 (fun a => .ok (f a)) fun a => some (g a) :=
  fun a => congrArg some (h a)

theorem computes_total2 {v : ℕ} {f : BitVec w → BitVec w → BitVec v} {g : ℕ → ℕ → ℕ}
    (h : ∀ a b, (f a b).toNat = g a.toNat b.toNat) :
    Computes2 (fun a b => .ok (f a b)) fun a b => some (g a b) :=
  fun a b => congrArg some (h a b)

theorem toNat_eq_zero_iff (b : BitVec w) : b.toNat = 0 ↔ b = 0 := by
  rw [← BitVec.toNat_inj]
  rfl

theorem computes_intDivU : Computes2 (intDivU (w := w)) divU := by
  intro a b
  unfold intDivU divU
  by_cases hb : b = 0
  · rw [if_pos hb, if_pos ((toNat_eq_zero_iff b).2 hb)]
    rfl
  · rw [if_neg hb, if_neg fun h => hb ((toNat_eq_zero_iff b).1 h)]
    rfl

theorem computes_intRemU : Computes2 (intRemU (w := w)) remU := by
  intro a b
  unfold intRemU remU
  by_cases hb : b = 0
  · rw [if_pos hb, if_pos ((toNat_eq_zero_iff b).2 hb)]
    rfl
  · rw [if_neg hb, if_neg fun h => hb ((toNat_eq_zero_iff b).1 h)]
    exact congrArg some (toNat_umod a b)

theorem computes_intRemS : Computes2 (intRemS (w := w)) (remS w) := by
  intro a b
  unfold intRemS remS
  by_cases hb : b = 0
  · rw [if_pos hb, if_pos ((toNat_eq_zero_iff b).2 hb)]
    rfl
  · rw [if_neg hb, if_neg fun h => hb ((toNat_eq_zero_iff b).1 h)]
    exact congrArg some (toNat_srem a b)

theorem computes_intDivS (hw : 0 < w) : Computes2 (intDivS (w := w)) (divS w) := by
  intro a b
  unfold intDivS divS
  by_cases hb : b = 0
  · rw [if_pos hb, if_pos ((toNat_eq_zero_iff b).2 hb)]
    rfl
  · rw [if_neg hb, if_neg fun h => hb ((toNat_eq_zero_iff b).1 h)]
    by_cases hover : a = BitVec.intMin w ∧ b = -1
    · rw [if_pos hover, if_pos ((tdiv_eq_two_pow hw a b).2 hover)]
      rfl
    · rw [if_neg hover, if_neg fun h => hover ((tdiv_eq_two_pow hw a b).1 h)]
      exact congrArg some (toNat_sdiv a b)

/-- A shift count is reduced first to 32 bits and then modulo the width. -/
theorem count_mod (hw : w ∣ 2 ^ 32) (k : ℕ) : k % 2 ^ 32 % w = k % w := Nat.mod_mod_of_dvd k hw

theorem toNat_intShl (hw : w ∣ 2 ^ 32) (a b : BitVec w) :
    (intShl a b).toNat = shl w a.toNat b.toNat := by
  rw [intShl, count_mod hw, toNat_shl]

theorem toNat_intShrS (hw : w ∣ 2 ^ 32) (a b : BitVec w) :
    (intShrS a b).toNat = shrS w a.toNat b.toNat := by
  rw [intShrS, count_mod hw, toNat_shrS]

theorem toNat_intShrU (hw : w ∣ 2 ^ 32) (a b : BitVec w) :
    (intShrU a b).toNat = shrU w a.toNat b.toNat := by
  rw [intShrU, count_mod hw, toNat_shrU]

theorem toNat_intRotl (hw : w ∣ 2 ^ 32) (hpos : 0 < w) (a b : BitVec w) :
    (intRotl a b).toNat = rotl w a.toNat b.toNat := by
  rw [intRotl, toNat_rotl hpos, rotl, rotl, count_mod hw]

theorem toNat_intRotr (hw : w ∣ 2 ^ 32) (hpos : 0 < w) (a b : BitVec w) :
    (intRotr a b).toNat = rotr w a.toNat b.toNat := by
  rw [intRotr, toNat_rotr hpos, rotr, rotr, count_mod hw]

theorem toNat_intExtend {k : ℕ} (hk : k ≤ w) (a : BitVec w) :
    (intExtend k a).toNat = extendS k (a.toNat % 2 ^ k) w := by
  rw [intExtend, toNat_signExtend _ hk, BitVec.toNat_setWidth]

theorem slt_eq (a b : BitVec w) :
    a.slt b = decide (signed w a.toNat < signed w b.toNat) := by
  rw [signed_toNat, signed_toNat]
  rfl

theorem sle_eq (a b : BitVec w) :
    a.sle b = decide (signed w a.toNat ≤ signed w b.toNat) := by
  rw [signed_toNat, signed_toNat]
  rfl

theorem decide_eq_zero (a : BitVec w) : decide (a = 0) = (a.toNat == 0) := by
  rw [Bool.beq_eq_decide_eq]
  exact decide_eq_decide.2 (toNat_eq_zero_iff a).symm

theorem decide_eq (a b : BitVec w) : decide (a = b) = (a.toNat == b.toNat) := by
  rw [Bool.beq_eq_decide_eq]
  exact decide_eq_decide.2 BitVec.toNat_inj.symm

theorem decide_ne (a b : BitVec w) : decide (a ≠ b) = (a.toNat != b.toNat) := by
  rw [decide_not, decide_eq, bne]

end Values

/-- Every integer instruction is implemented. -/
theorem NumOp.implements {op : NumOp} {s : IntInstr} (ops : FloatOps)
    (h : op.intInstr? = some s) : (op.sem ops).Implements s := by
  cases op with
  | i32Eqz | i64Eqz => cases h; constructor; exact computes_bool1 decide_eq_zero
  | i32Eq | i64Eq => cases h; constructor; exact computes_bool2 decide_eq
  | i32Ne | i64Ne => cases h; constructor; exact computes_bool2 decide_ne
  | i32LtS | i64LtS => cases h; constructor; exact computes_bool2 slt_eq
  | i32GtS | i64GtS => cases h; constructor; exact computes_bool2 fun a b => slt_eq b a
  | i32LeS | i64LeS => cases h; constructor; exact computes_bool2 sle_eq
  | i32GeS | i64GeS => cases h; constructor; exact computes_bool2 fun a b => sle_eq b a
  | i32LtU | i64LtU | i32GtU | i64GtU | i32LeU | i64LeU | i32GeU | i64GeU =>
      cases h; constructor; exact computes_bool2 fun _ _ => rfl
  | i32Clz | i64Clz => cases h; constructor; exact computes_total1 toNat_clz
  | i32Ctz | i64Ctz => cases h; constructor; exact computes_total1 toNat_ctz
  | i32Popcnt | i64Popcnt => cases h; constructor; exact computes_total1 toNat_popcnt
  | i32Add | i64Add => cases h; constructor; exact computes_total2 toNat_add
  | i32Sub | i64Sub => cases h; constructor; exact computes_total2 toNat_sub
  | i32Mul | i64Mul => cases h; constructor; exact computes_total2 toNat_mul
  | i32DivS | i64DivS => cases h; constructor; exact computes_intDivS (by decide)
  | i32DivU | i64DivU => cases h; constructor; exact computes_intDivU
  | i32RemS | i64RemS => cases h; constructor; exact computes_intRemS
  | i32RemU | i64RemU => cases h; constructor; exact computes_intRemU
  | i32And | i64And => cases h; constructor; exact computes_total2 BitVec.toNat_and
  | i32Or | i64Or => cases h; constructor; exact computes_total2 BitVec.toNat_or
  | i32Xor | i64Xor => cases h; constructor; exact computes_total2 BitVec.toNat_xor
  | i32Shl | i64Shl =>
      cases h; constructor; exact computes_total2 (toNat_intShl (by decide))
  | i32ShrS | i64ShrS =>
      cases h; constructor; exact computes_total2 (toNat_intShrS (by decide))
  | i32ShrU | i64ShrU =>
      cases h; constructor; exact computes_total2 (toNat_intShrU (by decide))
  | i32Rotl | i64Rotl =>
      cases h; constructor; exact computes_total2 (toNat_intRotl (by decide) (by decide))
  | i32Rotr | i64Rotr =>
      cases h; constructor; exact computes_total2 (toNat_intRotr (by decide) (by decide))
  | i32WrapI64 =>
      cases h; exact .wrap (computes_total1 fun a => BitVec.toNat_setWidth 32 a)
  | i64ExtendI32S =>
      cases h; constructor; exact computes_total1 fun a => toNat_signExtend a (by decide)
  | i64ExtendI32U =>
      cases h; constructor; exact computes_total1 (g := id) fun a => by simp; omega
  | i32Extend8S | i32Extend16S | i64Extend8S | i64Extend16S | i64Extend32S =>
      cases h; constructor; exact computes_total1 (toNat_intExtend (by decide))
  | _ => cases h

/-! ### The handlers' runs -/

section Runs

variable {η : Type}

/-- How a handler ends on the words above `below`: the result replaces the lowest of
them, or the handler traps and the stack is as it was. -/
def Replaces (e : Engine η) (below words : List U32) (result : Option (List U32))
    (o : Outcome InterpreterBreak (Engine η) Unit) : Prop :=
  match result with
  | some r => ∃ touched, o = .ok () (e.withStack (below.length + r.length)
      (below ++ (r ++ words.drop r.length)) touched)
  | none => ∃ reason sp touched,
      o = .error (.trap reason) (e.withStack sp (below ++ words) touched)

variable (e : Engine η) (below above : List U32) (touched : List ℕ)

variable {e below} in
/-- A handler goes on after a step that succeeds. -/
theorem Replaces.step {α : Type} {words : List U32} {result : Option (List U32)} {x : ExecM η α}
    {f : α → ExecM η Unit} {s t : Engine η} {a : α} (hx : x s = .ok a t)
    (hf : Replaces e below words result (f a t)) :
    Replaces e below words result ((x >>= f) s) := by
  rwa [bind_of_ok hx]

/-- A result of one word, written over the lowest word. -/
theorem write_result32 (r : NumResult U32) (a : U32) :
    Replaces e below (a :: above) (r.toOption.map fun r => [r])
      ((numResult r >>= fun r => writeWord (below.length + 0) r)
        (e.withStack (below.length + 1) (below ++ a :: above) touched)) := by
  cases r with
  | error reason => exact ⟨reason, _, _, rfl⟩
  | ok r => exact .step rfl ⟨_, writeWord_cut e _ r (Nat.zero_lt_succ _)⟩

/-- A result of two words, written over the two lowest. -/
theorem write_result64 (r : NumResult U64) (a b : U32) :
    Replaces e below (a :: b :: above) (r.toOption.map fun r => [lowWord r, highWord r])
      ((numResult r >>= fun r => writeDouble (below.length + 0) r)
        (e.withStack (below.length + 2) (below ++ a :: b :: above) touched)) := by
  cases r with
  | error reason => exact ⟨reason, _, _, rfl⟩
  | ok r =>
      exact .step rfl ⟨_, writeDouble_cut e _ r (Nat.succ_lt_succ (Nat.zero_lt_succ _))⟩

theorem exec_unary32 (f : U32 → NumResult U32) (a : U32) :
    Replaces e below (a :: above) ((f a).toOption.map fun r => [r])
      ((NumSem.unary32 f).exec (e.withStack (below.length + 1) (below ++ a :: above) touched)) := by
  refine .step (spBelow_cut e _) ?_
  refine .step (readWord_cut e _ rfl) ?_
  exact write_result32 ..

theorem exec_unary64 (f : U64 → NumResult U64) (a : U64) :
    Replaces e below (lowWord a :: highWord a :: above)
      ((f a).toOption.map fun r => [lowWord r, highWord r])
      ((NumSem.unary64 f).exec
        (e.withStack (below.length + 2) (below ++ lowWord a :: highWord a :: above) touched)) := by
  refine .step (spBelow_cut e _) ?_
  refine .step (readDouble_cut e _ rfl rfl) ?_
  exact write_result64 ..

theorem exec_binary32 (f : U32 → U32 → NumResult U32) (a b : U32) :
    Replaces e below (a :: b :: above) ((f a b).toOption.map fun r => [r])
      ((NumSem.binary32 f).exec
        (e.withStack (below.length + 2) (below ++ a :: b :: above) touched)) := by
  refine .step (dropSp_cut e _) (.step (get_apply _) ?_)
  refine .step (readWord_cut e (i := 1) _ rfl) ?_
  refine .step (spBelow_cut e _) ?_
  refine .step (readWord_cut e _ rfl) ?_
  exact write_result32 ..

theorem exec_binary64 (f : U64 → U64 → NumResult U64) (a b : U64) :
    Replaces e below (lowWord a :: highWord a :: lowWord b :: highWord b :: above)
      ((f a b).toOption.map fun r => [lowWord r, highWord r])
      ((NumSem.binary64 f).exec (e.withStack (below.length + 4)
        (below ++ lowWord a :: highWord a :: lowWord b :: highWord b :: above) touched)) := by
  refine .step (dropSp_cut e _) (.step (get_apply _) ?_)
  refine .step (readDouble_cut e (i := 2) _ rfl rfl) ?_
  refine .step (spBelow_cut e _) ?_
  refine .step (readDouble_cut e _ rfl rfl) ?_
  exact write_result64 ..

theorem exec_compare64 (f : U64 → U64 → NumResult U32) (a b : U64) :
    Replaces e below (lowWord a :: highWord a :: lowWord b :: highWord b :: above)
      ((f a b).toOption.map fun r => [r])
      ((NumSem.compare64 f).exec (e.withStack (below.length + 4)
        (below ++ lowWord a :: highWord a :: lowWord b :: highWord b :: above) touched)) := by
  refine .step (dropSp_cut e _) (.step (get_apply _) ?_)
  refine .step (readDouble_cut e (i := 2) _ rfl rfl) ?_
  refine .step (spBelow_cut e _) ?_
  refine .step (readDouble_cut e _ rfl rfl) ?_
  exact write_result32 ..

theorem exec_narrow (f : U64 → NumResult U32) (a : U64) :
    Replaces e below (lowWord a :: highWord a :: above) ((f a).toOption.map fun r => [r])
      ((NumSem.narrow f).exec
        (e.withStack (below.length + 2) (below ++ lowWord a :: highWord a :: above) touched)) := by
  refine .step (dropSp_cut e _) ?_
  refine .step (spBelow_cut e _) ?_
  refine .step (readDouble_cut e _ rfl rfl) ?_
  exact write_result32 ..

theorem exec_wrap (f : U64 → NumResult U32) (a : U64) :
    Replaces e below (lowWord a :: highWord a :: above) ((f a).toOption.map fun r => [r])
      ((NumSem.wrap f).exec
        (e.withStack (below.length + 2) (below ++ lowWord a :: highWord a :: above) touched)) := by
  refine .step (spBelow_cut e _) ?_
  refine .step (readDouble_cut e _ rfl rfl) ?_
  cases f a with
  | error reason => exact ⟨reason, _, _, rfl⟩
  | ok r =>
      refine .step rfl ?_
      refine .step (writeWord_cut e _ r (Nat.zero_lt_succ _)) ?_
      exact ⟨_, dropSp_cut e _⟩

/-- The word above the operand takes the high word of the result. -/
theorem exec_widen (f : U32 → NumResult U64) (a b : U32) :
    Replaces e below (a :: b :: above) ((f a).toOption.map fun r => [lowWord r, highWord r])
      ((NumSem.widen f).exec
        (e.withStack (below.length + 1) (below ++ a :: b :: above) touched)) := by
  refine .step (spBelow_cut e _) ?_
  refine .step (readWord_cut e _ rfl) ?_
  cases f a with
  | error reason => exact ⟨reason, _, _, rfl⟩
  | ok r =>
      refine .step rfl ?_
      refine .step (writeDouble_cut e _ r (Nat.succ_lt_succ (Nat.zero_lt_succ _))) ?_
      exact ⟨_, rfl⟩

/-- What a handler leaves in terms of the integers it computes with. -/
theorem Computes1.words {v w : ℕ} {f : BitVec v → NumResult (BitVec w)} {g : ℕ → Option ℕ}
    (h : Computes1 f g) {a : ℕ} (ha : a < 2 ^ v) (words : BitVec w → List U32) :
    (f (.ofNat v a)).toOption.map words = (g a).map fun r => words (.ofNat w r) := by
  have hfa := h (.ofNat v a)
  rw [BitVec.toNat_ofNat, Nat.mod_eq_of_lt ha] at hfa
  rw [← hfa]
  cases f (.ofNat v a) with
  | error reason => rfl
  | ok r =>
      change some (words r) = some (words (.ofNat w r.toNat))
      rw [BitVec.ofNat_toNat, BitVec.setWidth_eq]

theorem Computes2.words {v w : ℕ} {f : BitVec v → BitVec v → NumResult (BitVec w)}
    {g : ℕ → ℕ → Option ℕ} (h : Computes2 f g) {a b : ℕ} (ha : a < 2 ^ v) (hb : b < 2 ^ v)
    (words : BitVec w → List U32) :
    (f (.ofNat v a) (.ofNat v b)).toOption.map words =
      (g a b).map fun r => words (.ofNat w r) := by
  have hfab := h (.ofNat v a) (.ofNat v b)
  rw [BitVec.toNat_ofNat, BitVec.toNat_ofNat, Nat.mod_eq_of_lt ha, Nat.mod_eq_of_lt hb] at hfab
  rw [← hfab]
  cases f (.ofNat v a) (.ofNat v b) with
  | error reason => rfl
  | ok r =>
      change some (words r) = some (words (.ofNat w r.toNat))
      rw [BitVec.ofNat_toNat, BitVec.setWidth_eq]

/-- A handler that implements an instruction computes its value in place. -/
theorem NumSem.Implements.exec {sem : NumSem} {s : IntInstr} (h : sem.Implements s)
    {args : List ℕ} (hargs : List.Forall₂ (fun n v => v < 2 ^ n) s.operands args)
    (hroom : s.result ≤ 32 * (operandWords s.operands args ++ above).length) :
    Replaces e below (operandWords s.operands args ++ above)
      ((s.eval args).map (intWords s.result))
      (sem.exec (e.withStack (below.length + (operandWords s.operands args).length)
        (below ++ (operandWords s.operands args ++ above)) touched)) := by
  cases h with
  | unary32 h =>
      obtain _ | ⟨ha, _ | _⟩ := hargs
      exact h.words ha (fun r => [r]) ▸ exec_unary32 e below above touched _ _
  | unary64 h =>
      obtain _ | ⟨ha, _ | _⟩ := hargs
      exact h.words ha (fun r => [lowWord r, highWord r]) ▸ exec_unary64 e below above touched _ _
  | binary32 h =>
      obtain _ | ⟨ha, _ | ⟨hb, _ | _⟩⟩ := hargs
      exact h.words ha hb (fun r => [r]) ▸ exec_binary32 e below above touched _ _ _
  | binary64 h =>
      obtain _ | ⟨ha, _ | ⟨hb, _ | _⟩⟩ := hargs
      exact h.words ha hb (fun r => [lowWord r, highWord r]) ▸
        exec_binary64 e below above touched _ _ _
  | compare64 h =>
      obtain _ | ⟨ha, _ | ⟨hb, _ | _⟩⟩ := hargs
      exact h.words ha hb (fun r => [r]) ▸ exec_compare64 e below above touched _ _ _
  | narrow h =>
      obtain _ | ⟨ha, _ | _⟩ := hargs
      exact h.words ha (fun r => [r]) ▸ exec_narrow e below above touched _ _
  | wrap h =>
      obtain _ | ⟨ha, _ | _⟩ := hargs
      exact h.words ha (fun r => [r]) ▸ exec_wrap e below above touched _ _
  | widen h =>
      obtain _ | ⟨ha, _ | _⟩ := hargs
      cases above with
      | nil => simp [IntInstr.result, IntInstr.operands, operandWords, intWords] at hroom
      | cons b above =>
          exact h.words ha (fun r => [lowWord r, highWord r]) ▸
            exec_widen e below above touched _ _ b

end Runs

/-- The handlers come to a division only where the host's does not panic. -/
theorem NumOp.divisionPanics_eq_false {op : NumOp} {s : IntInstr} (h : op.intInstr? = some s)
    {args : List ℕ} {v : ℕ} (hargs : List.Forall₂ (fun n v => v < 2 ^ n) s.operands args)
    (hv : s.eval args = some v) : op.divisionPanics args = false := by
  have zero : ∀ {b : ℕ} {q : Option ℕ}, (if b = 0 then none else q) = some v → (b == 0) = false :=
    fun h => beq_false_of_ne fun hb => by simp [hb] at h
  cases op with
  | i32DivS | i64DivS =>
      cases h
      obtain _ | ⟨_, _ | ⟨_, _ | _⟩⟩ := hargs
      have hb := zero hv
      rw [NumOp.divisionPanics, hb, Bool.false_or, Bool.and_eq_false_iff]
      by_contra! hmin
      simp only [ne_eq, Bool.not_eq_false, beq_iff_eq] at hmin
      rw [hmin.1, hmin.2] at hv
      cases hv
  | i32DivU | i32RemS | i32RemU | i64DivU | i64RemS | i64RemU =>
      cases h
      obtain _ | ⟨_, _ | ⟨_, _ | _⟩⟩ := hargs
      exact zero hv
  | _ => rfl

/-- An integer instruction replaces its operands by the words of the value that the
specification defines, or traps where it defines none; what is below the operands and
the rest of the engine stays as it is. A result wider than its operands has its room:
a call checks that the frame fits. -/
theorem Interpreter.integerInstr_agrees {η : Type} (env : ExecEnv η) (op : NumOp) {s : IntInstr}
    (hop : op.intInstr? = some s) (pc : JumpTarget) (e : Engine η) (below above : List U32)
    (args : List ℕ) (hargs : List.Forall₂ (fun n v => v < 2 ^ n) s.operands args)
    (hstack : e.stack.words = below ++ (operandWords s.operands args ++ above))
    (hsp : e.sp = below.length + (operandWords s.operands args).length)
    (hroom : s.result ≤ 32 * (operandWords s.operands args ++ above).length) :
    match s.eval args with
    | some v => op.divisionPanics args = false ∧ ∃ touched,
        Interpreter.exec env (.num op) pc e = .ok pc
          { e with
            sp := below.length + (intWords s.result v).length
            stack := ⟨below ++ (intWords s.result v ++
              (operandWords s.operands args ++ above).drop (intWords s.result v).length),
              touched⟩ }
    | none => ∃ reason sp touched, Interpreter.exec env (.num op) pc e =
        .error (.trap reason) { e with sp := sp, stack := ⟨e.stack.words, touched⟩ } := by
  have hrun := (op.implements env.floats hop).exec e below above e.stack.touched hargs hroom
  rw [← hstack, ← hsp, e.withStack_self] at hrun
  unfold Interpreter.exec
  cases hv : s.eval args with
  | some v =>
      rw [hv] at hrun
      obtain ⟨touched, hrun⟩ := hrun
      refine ⟨op.divisionPanics_eq_false hop hargs hv, touched, ?_⟩
      exact bind_of_ok hrun
  | none =>
      rw [hv] at hrun
      obtain ⟨reason, sp, touched, hrun⟩ := hrun
      refine ⟨reason, sp, touched, ?_⟩
      rw [hstack]
      exact bind_of_error hrun

/-- An engine that is about to divide -7 by 2, with a word below the operands. -/
def dividing : Engine Unit :=
  (Engine.new 4 ⟨[], 0, [], [], [], 0, 0⟩ ()).withStack 3 [9, -7, 2, 0] []

theorem Interpreter.integerInstr_divides : ∃ touched,
    Interpreter.exec (.quiet []) (.num .i32DivS) 0 dividing =
      .ok 0 { dividing with sp := 2, stack := ⟨[9, -3, 2, 0], touched⟩ } := by
  have h := Interpreter.integerInstr_agrees (.quiet []) .i32DivS rfl 0 dividing [9] [0]
    [2 ^ 32 - 7, 2] (.cons (by decide) (.cons (by decide) .nil)) (by decide) (by decide) (by decide)
  have hvalue : (IntInstr.binop 32 32 (divS 32)).eval [2 ^ 32 - 7, 2] = some (2 ^ 32 - 3) := by
    decide
  rw [hvalue] at h
  exact h.2

end SpaceWasm
