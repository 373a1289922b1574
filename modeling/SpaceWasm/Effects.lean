import SpaceWasm.AsmStep
import SpaceWasm.FrameLayout
import SpaceWasm.Window

/-!
# What the instructions do to the window

An instruction that finds its operands on the stack replaces them by its results, works
inside the window of its activation, and leaves everything beside the stack alone but
for the store and the world of the host. The operands and the results are as many words
as the types say that the compiler has checked.
-/

namespace SpaceWasm

open Fallible

variable {η α : Type} {w : Window} {st st' : Stack} {o : Engine η} {sp k : ℕ} {safe : Prop}

/-! ### Numeric instructions -/

namespace NumSem

/-- The words a numeric instruction pops. -/
def ins : NumSem → ℕ
  | unary32 _ => 1
  | unary64 _ => 2
  | binary32 _ => 2
  | binary64 _ => 4
  | compare64 _ => 4
  | narrow _ => 2
  | wrap _ => 2
  | widen _ => 1

/-- The words it pushes. -/
def outs : NumSem → ℕ
  | unary32 _ => 1
  | unary64 _ => 2
  | binary32 _ => 1
  | binary64 _ => 2
  | compare64 _ => 1
  | narrow _ => 1
  | wrap _ => 1
  | widen _ => 2

/-- Its traps are not those of the decoder. -/
def Regular : NumSem → Prop
  | unary32 f => ∀ a, f a ≠ .error .malformedIr
  | unary64 f => ∀ a, f a ≠ .error .malformedIr
  | binary32 f => ∀ a b, f a b ≠ .error .malformedIr
  | binary64 f => ∀ a b, f a b ≠ .error .malformedIr
  | compare64 f => ∀ a b, f a b ≠ .error .malformedIr
  | narrow f => ∀ a, f a ≠ .error .malformedIr
  | wrap f => ∀ a, f a ≠ .error .malformedIr
  | widen f => ∀ a, f a ≠ .error .malformedIr

end NumSem

section Regular

variable {v : ℕ} (a b : BitVec v)

theorem intDivS_regular : intDivS a b ≠ .error .malformedIr := by
  unfold intDivS
  split
  · simp
  · split <;> simp

theorem intDivU_regular : intDivU a b ≠ .error .malformedIr := by
  unfold intDivU
  split <;> simp

theorem intRemS_regular : intRemS a b ≠ .error .malformedIr := by
  unfold intRemS
  split <;> simp

theorem intRemU_regular : intRemU a b ≠ .error .malformedIr := by
  unfold intRemU
  split <;> simp

theorem truncChecked_regular {u : ℕ} (F : FloatFormat) (hi lo : ℕ) (f : BitVec v → BitVec u) :
    truncChecked F hi lo f a ≠ .error .malformedIr := by
  unfold truncChecked
  split
  · simp
  · split
    · simp
    · split <;> simp

end Regular

theorem NumOp.sem_regular (ops : FloatOps) (op : NumOp) : (op.sem ops).Regular := by
  cases op <;>
    first
    | exact intDivS_regular
    | exact intDivU_regular
    | exact intRemS_regular
    | exact intRemU_regular
    | exact fun a => truncChecked_regular a _ _ _ _
    | (intro _ _ h; cases h)
    | (intro _ h; cases h)

theorem SatOp.sem_regular (op : SatOp) : op.sem.Regular := by
  cases op <;> (intro _ h; cases h)

/-- The words of a numeric instruction are those of its types. -/
theorem NumOp.sem_words (ops : FloatOps) (op : NumOp) :
    (op.sem ops).ins = wordsOf op.params ∧ (op.sem ops).outs = op.result.words := by
  cases op <;> exact ⟨rfl, rfl⟩

theorem SatOp.sem_words (op : SatOp) :
    op.sem.ins = op.operand.words ∧ op.sem.outs = op.result.words := by
  cases op <;> exact ⟨rfl, rfl⟩

theorem Twins.numResult {r : NumResult α} (h : r ≠ .error .malformedIr) :
    Coupled safe (Twins w st st' o sp k) (SpaceWasm.numResult r : ExecM η α)
      (SpaceWasm.numResult r) (fun _ => Twins w st st' o sp k)
        (Traps w st st' o.hostPauseResult) := by
  cases r with
  | ok a => exact .pure fun _ _ => id
  | error reason => exact trap fun heq => h (heq ▸ rfl)

section Instructions

variable (hhigh : w.high ≤ st.words.length) (hlength : st'.words.length = st.words.length)

include hhigh hlength

/-- A numeric instruction works on its operands and leaves its result. -/
theorem NumSem.exec_works {sem : NumSem} (hsem : sem.Regular)
    (h : w.Room sp sem.ins sem.outs) :
    Coupled safe (Twins w st st' o sp sp) sem.exec sem.exec
      (fun _ => Twins w st st' o (sp - sem.ins + sem.outs) (sp - sem.ins + sem.outs))
      (Traps w st st' o.hostPauseResult) := by
  have hbelow := h.below
  cases sem <;> simp only [ins, outs] at h hbelow ⊢
  case unary32 f =>
    rw [show sp - 1 + 1 = sp by omega]
    refine Twins.spBelow_bind (by omega) ?_
    refine .bind (Twins.readWord hhigh hlength (h.covers (by omega) (by omega)) (by omega))
      fun a => ?_
    refine .bind (Twins.numResult (hsem a)) fun r => ?_
    exact Twins.until_ (Twins.writeWord hhigh hlength (h.writable (by omega) (by omega))
      (by omega) r) (by omega)
  case unary64 f =>
    rw [show sp - 2 + 2 = sp by omega]
    refine Twins.spBelow_bind (by omega) ?_
    refine .bind (Twins.readDouble hhigh hlength (h.covers (by omega) (by omega)) (by omega))
      fun a => ?_
    refine .bind (Twins.numResult (hsem a)) fun r => ?_
    exact Twins.until_ (Twins.writeDouble hhigh hlength (h.writable (by omega) (by omega))
      (by omega) r) (by omega)
  case binary32 f =>
    rw [show sp - 2 + 1 = sp - 1 by omega]
    refine .bind (Twins.dropSp (by omega)) fun _ => Twins.get_bind fun e e' he => ?_
    rw [he.left.sp_eq, he.right.sp_eq]
    refine .bind (Twins.readWord hhigh hlength (h.covers (by omega) (by omega)) (by omega))
      fun b => ?_
    refine Twins.spBelow_bind (by omega) ?_
    refine .bind (Twins.readWord hhigh hlength (h.covers (by omega) (by omega)) (by omega))
      fun a => ?_
    refine .bind (Twins.numResult (hsem a b)) fun r => ?_
    exact Twins.until_ (Twins.writeWord hhigh hlength (h.writable (by omega) (by omega))
      (by omega) r) (by omega)
  case binary64 f =>
    rw [show sp - 4 + 2 = sp - 2 by omega]
    refine .bind (Twins.dropSp (by omega)) fun _ => Twins.get_bind fun e e' he => ?_
    rw [he.left.sp_eq, he.right.sp_eq]
    refine .bind (Twins.readDouble hhigh hlength (h.covers (by omega) (by omega)) (by omega))
      fun b => ?_
    refine Twins.spBelow_bind (by omega) ?_
    refine .bind (Twins.readDouble hhigh hlength (h.covers (by omega) (by omega)) (by omega))
      fun a => ?_
    refine .bind (Twins.numResult (hsem a b)) fun r => ?_
    exact Twins.until_ (Twins.writeDouble hhigh hlength (h.writable (by omega) (by omega))
      (by omega) r) (by omega)
  case compare64 f =>
    rw [show sp - 4 + 1 = sp - 3 by omega]
    refine .bind (Twins.dropSp (by omega)) fun _ => Twins.get_bind fun e e' he => ?_
    rw [he.left.sp_eq, he.right.sp_eq]
    refine .bind (Twins.readDouble hhigh hlength (h.covers (by omega) (by omega)) (by omega))
      fun b => ?_
    refine Twins.spBelow_bind (by omega) ?_
    refine .bind (Twins.readDouble hhigh hlength (h.covers (by omega) (by omega)) (by omega))
      fun a => ?_
    refine .bind (Twins.numResult (hsem a b)) fun r => ?_
    exact Twins.until_ (Twins.writeWord hhigh hlength (h.writable (by omega) (by omega))
      (by omega) r) (by omega)
  case narrow f =>
    rw [show sp - 2 + 1 = sp - 1 by omega]
    refine .bind (Twins.dropSp (by omega)) fun _ => Twins.spBelow_bind (by omega) ?_
    refine .bind (Twins.readDouble hhigh hlength (h.covers (by omega) (by omega)) (by omega))
      fun a => ?_
    refine .bind (Twins.numResult (hsem a)) fun r => ?_
    exact Twins.until_ (Twins.writeWord hhigh hlength (h.writable (by omega) (by omega))
      (by omega) r) (by omega)
  case wrap f =>
    rw [show sp - 2 + 1 = sp - 1 by omega]
    refine Twins.spBelow_bind (by omega) ?_
    refine .bind (Twins.readDouble hhigh hlength (h.covers (by omega) (by omega)) (by omega))
      fun a => ?_
    refine .bind (Twins.numResult (hsem a)) fun r => ?_
    exact Twins.until_ (.bind (Twins.writeWord hhigh hlength (h.writable (by omega) (by omega))
      (by omega) r) fun _ => Twins.dropSp (by omega)) (by omega)
  case widen f =>
    rw [show sp - 1 + 2 = sp + 1 by omega]
    refine Twins.spBelow_bind (by omega) ?_
    refine .bind (Twins.readWord hhigh hlength (h.covers (by omega) (by omega)) (by omega))
      fun a => ?_
    refine .bind (Twins.numResult (hsem a)) fun r => ?_
    exact Twins.until_ (.bind (Twins.writeDouble hhigh hlength (h.writable (by omega) (by omega))
      (by omega) r) fun _ => Twins.raiseSp 1) (by omega)

end Instructions

/-! ### Instructions that do not jump -/

/-- What an instruction that does not jump leaves of the control state. -/
structure Engine.SameControl (e e' : Engine η) : Prop where
  pc : e'.pc = e.pc
  jumped : e'.jumped = e.jumped
  fp : e'.fp = e.fp
  module : e'.module = e.module
  pause : e'.hostPauseResult = e.hostPauseResult
  result : e'.result = e.result

theorem Engine.SameControl.refl (e : Engine η) : e.SameControl e := ⟨rfl, rfl, rfl, rfl, rfl, rfl⟩

theorem Engine.SameControl.store (e : Engine η) (s : Store) :
    e.SameControl { e with store := s } :=
  ⟨rfl, rfl, rfl, rfl, rfl, rfl⟩

theorem Engine.SameControl.world (e : Engine η) (world : η) (s : Store) :
    e.SameControl { e with world := world, store := s } :=
  ⟨rfl, rfl, rfl, rfl, rfl, rfl⟩

theorem Engine.SameControl.trans {e f g : Engine η} (h : e.SameControl f) (h' : f.SameControl g) :
    e.SameControl g :=
  ⟨h'.pc.trans h.pc, h'.jumped.trans h.jumped, h'.fp.trans h.fp, h'.module.trans h.module,
    h'.pause.trans h.pause, h'.result.trans h.result⟩

/-- An instruction has worked in the window: its results end at `sp`, and beside the stack
it has changed the store or the world at most. -/
def Worked (w : Window) (st st' : Stack) (o : Engine η) (sp : ℕ) (e e' : Engine η) : Prop :=
  ∃ o', o.SameControl o' ∧ Twins w st st' o' sp sp e e'

theorem Twins.worked {e e' : Engine η} (h : Twins w st st' o sp k e e') (hk : sp ≤ k) :
    Worked w st st' o sp e e' :=
  ⟨o, .refl o, h.mono hk⟩

theorem Twins.works {x y : ExecM η α} {P : Engine η → Engine η → Prop}
    {E : InterpreterBreak → Engine η → Engine η → Prop}
    (h : Coupled safe P x y (fun _ => Twins w st st' o sp k) E) (hk : sp ≤ k) :
    Coupled safe P x y (fun _ => Worked w st st' o sp) E :=
  h.weaken id (fun _ _ h => h) (fun _ _ _ h => h.worked hk) fun _ _ _ h => h

/-- The words of a local variable in a frame whose local variables end below `sp`. -/
theorem LocalVariable.Fits.addr {l : LocalVariable} {params locals : ℕ}
    (hl : l.Fits params locals) (hparams : w.low + params = w.link) {n : ℕ}
    (hlocals : w.link + 2 + locals ≤ n) (hn : n ≤ w.high) (hsmall : w.high < 2 ^ 31) :
    w.Writable (l.addr w.link) l.ty.words ∧ l.addr w.link + l.ty.words ≤ n := by
  obtain ⟨a, ha⟩ : ∃ a : ℕ, (w.link : ℤ) + l.frameOffset.toInt = a := by
    refine ⟨((w.link : ℤ) + l.frameOffset.toInt).toNat, (Int.toNat_of_nonneg ?_).symm⟩
    rcases hl with hl | hl <;> omega
  have hwords := l.ty.words_pos
  have haddr : l.addr w.link = a := by
    refine LocalVariable.addr_eq (by omega) ?_ ha
    rcases hl with hl | hl <;> omega
  rw [haddr]
  rcases hl with hl | hl
  · exact ⟨⟨⟨by omega, by omega⟩, by omega⟩, by omega⟩
  · exact ⟨⟨⟨by omega, by omega⟩, by omega⟩, by omega⟩

namespace Interpreter

theorem hostGlobal_works {r : HostModuleRef} {x : U16} {hm : HostModule} {g : HostGlobal}
    {E : InterpreterBreak → Engine η → Engine η → Prop}
    (hr : o.store.hostModule? r = some hm) (hg : hm.globals[x.toNat]? = some g) :
    Coupled safe (Twins w st st' o sp k) (hostGlobal r x : ExecM η HostGlobal) (hostGlobal r x)
      (fun v e e' => v = g ∧ Twins w st st' o sp k e e') E := by
  refine Twins.get_bind fun e e' he => ?_
  rw [he.left.store_eq, he.right.store_eq, hr, unwrap_some, pure_bind, hg, unwrap_some]
  exact .pure fun _ _ h => ⟨rfl, h⟩

theorem ownGlobal_works {r : ModuleRef} {x : U16} {m : Module} {g : Global}
    {E : InterpreterBreak → Engine η → Engine η → Prop}
    (hr : o.store.module? r = some m) (hg : m.globals[x.toNat]? = some g) :
    Coupled safe (Twins w st st' o sp k) (ownGlobal r x : ExecM η Global) (ownGlobal r x)
      (fun v e e' => v = g ∧ Twins w st st' o sp k e e') E := by
  refine Twins.get_bind fun e e' he => ?_
  rw [he.left.store_eq, he.right.store_eq, hr, unwrap_some, pure_bind, hg, unwrap_some]
  exact .pure fun _ _ h => ⟨rfl, h⟩

theorem drop_works {ty : ValType} (h : w.Room sp ty.words 0) :
    Coupled safe (Twins w st st' o sp sp) (drop ty : ExecM η Unit) (drop ty)
      (fun _ => Worked w st st' o (sp - ty.words)) (Traps w st st' o.hostPauseResult) := by
  have := h.below
  exact Twins.works (Twins.dropSp (by omega)) (by omega)

section Instructions

variable (hhigh : w.high ≤ st.words.length) (hlength : st'.words.length = st.words.length)

include hhigh hlength

theorem select_works {ty : ValType} (h : w.Room sp (1 + 2 * ty.words) ty.words) :
    Coupled safe (Twins w st st' o sp sp) (select ty : ExecM η Unit) (select ty)
      (fun _ => Worked w st st' o (sp - (1 + 2 * ty.words) + ty.words))
        (Traps w st st' o.hostPauseResult) := by
  have hbelow := h.below
  refine .bind (Twins.dropSp (by omega)) fun _ => Twins.get_bind fun e e' he => ?_
  rw [he.left.sp_eq, he.right.sp_eq]
  refine .bind (Twins.readWord hhigh hlength (h.covers (by omega) (by omega)) (by omega))
    fun c => ?_
  have hdrop : ∀ {k : ℕ}, sp ≤ k → Coupled safe (Twins w st st' o (sp - 1) k)
      (dropSp ty.words : ExecM η Unit) (dropSp ty.words)
      (fun _ => Worked w st st' o (sp - (1 + 2 * ty.words) + ty.words))
        (Traps w st st' o.hostPauseResult) := by
    intro k hk
    rw [show sp - (1 + 2 * ty.words) + ty.words = sp - 1 - ty.words by omega]
    exact Twins.works (Twins.dropSp (by omega)) (by omega)
  cases ty with
  | i32 | f32 =>
      simp only [ValType.words] at h hbelow hdrop ⊢
      refine .ite (fun _ => ?_) fun _ => hdrop (Nat.le_refl _)
      refine Twins.spBelow_bind (by omega) ?_
      refine .bind (Twins.readWord hhigh hlength (h.covers (by omega) (by omega)) (by omega))
        fun val2 => Twins.spBelow_bind (by omega) ?_
      exact .bind (Twins.writeWord hhigh hlength (h.writable (by omega) (by omega)) (by omega) _)
        fun _ => hdrop (by omega)
  | i64 | f64 =>
      simp only [ValType.words] at h hbelow hdrop ⊢
      refine .ite (fun _ => ?_) fun _ => hdrop (Nat.le_refl _)
      refine Twins.spBelow_bind (by omega) ?_
      refine .bind (Twins.readDouble hhigh hlength (h.covers (by omega) (by omega)) (by omega))
        fun val2 => Twins.spBelow_bind (by omega) ?_
      exact .bind (Twins.writeDouble hhigh hlength (h.writable (by omega) (by omega)) (by omega) _)
        fun _ => hdrop (by omega)

/-- A constant, or any other value, is pushed. -/
theorem pushValue_works {v : Value} (h : w.Room sp 0 v.type.words) :
    Coupled safe (Twins w st st' o sp sp) (pushValue v : ExecM η Unit) (pushValue v)
      (fun _ => Worked w st st' o (sp + v.type.words)) (Traps w st st' o.hostPauseResult) :=
  Twins.works (Twins.pushValue hhigh hlength (h.writable (by omega) (by omega)) (Nat.le_refl _))
    (by omega)

section Locals

variable {l : LocalVariable} {params locals : ℕ} (hl : l.Fits params locals)
  (hparams : w.low + params = w.link) (hsmall : w.high < 2 ^ 31) (hfp : o.fp = w.link)

include hl hparams hsmall hfp

theorem localGet_works (hlocals : w.link + 2 + locals ≤ sp) (h : w.Room sp 0 l.ty.words) :
    Coupled safe (Twins w st st' o sp sp) (localGet l : ExecM η Unit) (localGet l)
      (fun _ => Worked w st st' o (sp + l.ty.words)) (Traps w st st' o.hostPauseResult) := by
  obtain ⟨hwritable, hbelow⟩ := hl.addr hparams hlocals h.top hsmall
  refine Twins.get_bind fun e e' he => ?_
  rw [he.left.sp_eq, he.right.sp_eq, he.left.fp_eq, he.right.fp_eq, hfp]
  cases hty : l.ty with
  | i32 | f32 =>
      rw [hty] at h hwritable hbelow
      simp only [ValType.words] at h hwritable hbelow ⊢
      refine .bind (Twins.readWord hhigh hlength hwritable.1 hbelow) fun val => ?_
      exact Twins.works (.bind (Twins.writeWord hhigh hlength (h.writable (by omega) (by omega))
        (Nat.le_refl _) val) fun _ => Twins.raiseSp 1) (by omega)
  | i64 | f64 =>
      rw [hty] at h hwritable hbelow
      simp only [ValType.words] at h hwritable hbelow ⊢
      refine .bind (Twins.readDouble hhigh hlength hwritable.1 hbelow) fun val => ?_
      exact Twins.works (.bind (Twins.writeDouble hhigh hlength (h.writable (by omega) (by omega))
        (Nat.le_refl _) val) fun _ => Twins.raiseSp 2) (by omega)

theorem localSet_works (hlocals : w.link + 2 + locals + l.ty.words ≤ sp)
    (h : w.Room sp l.ty.words 0) :
    Coupled safe (Twins w st st' o sp sp) (localSet l : ExecM η Unit) (localSet l)
      (fun _ => Worked w st st' o (sp - l.ty.words)) (Traps w st st' o.hostPauseResult) := by
  have htop := h.top
  obtain ⟨hwritable, hbelow⟩ := hl.addr hparams (n := sp - l.ty.words) (by omega) (by omega) hsmall
  refine .bind (Twins.dropSp (by omega)) fun _ => Twins.get_bind fun e e' he => ?_
  rw [he.left.sp_eq, he.right.sp_eq, he.left.fp_eq, he.right.fp_eq, hfp]
  cases hty : l.ty with
  | i32 | f32 =>
      rw [hty] at h hwritable hbelow hlocals
      simp only [ValType.words] at h hwritable hbelow hlocals ⊢
      refine .bind (Twins.readWord hhigh hlength (h.covers (by omega) (by omega)) (by omega))
        fun val => ?_
      exact Twins.works (Twins.writeWord hhigh hlength hwritable (by omega) val) (by omega)
  | i64 | f64 =>
      rw [hty] at h hwritable hbelow hlocals
      simp only [ValType.words] at h hwritable hbelow hlocals ⊢
      refine .bind (Twins.readDouble hhigh hlength (h.covers (by omega) (by omega)) (by omega))
        fun val => ?_
      exact Twins.works (Twins.writeDouble hhigh hlength hwritable (by omega) val) (by omega)

theorem localTee_works (hlocals : w.link + 2 + locals + l.ty.words ≤ sp)
    (h : w.Room sp l.ty.words l.ty.words) :
    Coupled safe (Twins w st st' o sp sp) (localTee l : ExecM η Unit) (localTee l)
      (fun _ => Worked w st st' o sp) (Traps w st st' o.hostPauseResult) := by
  obtain ⟨hwritable, hbelow⟩ := hl.addr hparams (by omega) h.top hsmall
  refine Twins.get_bind fun e e' he => Twins.spBelow_bind (by omega) ?_
  rw [he.left.fp_eq, he.right.fp_eq, hfp]
  cases hty : l.ty with
  | i32 | f32 =>
      rw [hty] at h hwritable hbelow hlocals
      simp only [ValType.words] at h hwritable hbelow hlocals ⊢
      refine .bind (Twins.readWord hhigh hlength (h.covers (by omega) (by omega)) (by omega))
        fun val => ?_
      exact Twins.works (Twins.writeWord hhigh hlength hwritable (by omega) val) (by omega)
  | i64 | f64 =>
      rw [hty] at h hwritable hbelow hlocals
      simp only [ValType.words] at h hwritable hbelow hlocals ⊢
      refine .bind (Twins.readDouble hhigh hlength (h.covers (by omega) (by omega)) (by omega))
        fun val => ?_
      exact Twins.works (Twins.writeDouble hhigh hlength hwritable (by omega) val) (by omega)

end Locals

/-! ### Globals -/

theorem globalGet_works {r : ModuleRef} {x : U16} {m : Module} {g : Global}
    (hr : o.store.module? r = some m) (hg : m.globals[x.toNat]? = some g)
    (h : w.Room sp 0 g.type.ty.words) :
    Coupled safe (Twins w st st' o sp sp) (globalGet r x : ExecM η Unit) (globalGet r x)
      (fun _ => Worked w st st' o (sp + g.type.ty.words)) (Traps w st st' o.hostPauseResult) := by
  refine .bind (ownGlobal_works hr hg) fun v => .given ?_
  rintro rfl
  have htype := RawValue.toValue_type v.value v.type.ty
  have hpush :
      Coupled safe (Twins w st st' o sp sp) (pushValue (v.value.toValue v.type.ty)) _ _ _ :=
    pushValue_works hhigh hlength (by rwa [htype])
  rwa [htype] at hpush

theorem globalSet_works {r : ModuleRef} {x : U16} {m : Module} {g : Global}
    (hr : o.store.module? r = some m) (hg : m.globals[x.toNat]? = some g)
    (h : w.Room sp g.type.ty.words 0) :
    Coupled safe (Twins w st st' o sp sp) (globalSet r x : ExecM η Unit) (globalSet r x)
      (fun _ => Worked w st st' o (sp - g.type.ty.words)) (Traps w st st' o.hostPauseResult) := by
  have hset : ∀ (v : RawValue) (sp' : ℕ), sp' ≤ sp →
      Coupled safe (Twins w st st' o sp' sp)
        (Fallible.modify fun e => { e with store := e.store.setGlobal r x v } : ExecM η Unit)
        (Fallible.modify fun e => { e with store := e.store.setGlobal r x v })
        (fun _ => Worked w st st' o sp') (Traps w st st' o.hostPauseResult) := by
    intro v sp' hsp
    exact .modify fun e e' he =>
      ⟨_, .store _ _, (he.updateStore fun s => s.setGlobal r x v).mono hsp⟩
  refine .bind (ownGlobal_works hr hg) fun v => .given ?_
  rintro rfl
  have := h.below
  refine .bind (Twins.dropSp (by omega)) fun _ => Twins.get_bind fun e e' he => ?_
  rw [he.left.sp_eq, he.right.sp_eq]
  cases hty : v.type.ty with
  | i32 | f32 =>
      rw [hty] at h
      simp only [ValType.words] at h ⊢
      exact .bind (Twins.readWord hhigh hlength (h.covers (by omega) (by omega)) (by omega))
        fun _ => hset _ _ (by omega)
  | i64 | f64 =>
      rw [hty] at h
      simp only [ValType.words] at h ⊢
      exact .bind (Twins.readDouble hhigh hlength (h.covers (by omega) (by omega)) (by omega))
        fun _ => hset _ _ (by omega)

section Host

variable (env : ExecEnv η) {r : HostModuleRef} {x : U16} {hm : HostModule}
  (hr : o.store.hostModule? r = some hm)

include hr

theorem globalGetHost_works {g : HostGlobal} (hg : hm.globals[x.toNat]? = some g)
    (hread : ∀ v, env.host.readGlobal o.world ⟨r, x⟩ = some v → v.type = g.ty)
    (h : w.Room sp 0 g.ty.words) :
    Coupled safe (Twins w st st' o sp sp) (globalGetHost env r x) (globalGetHost env r x)
      (fun _ => Worked w st st' o (sp + g.ty.words)) (Traps w st st' o.hostPauseResult) := by
  refine .bind (hostGlobal_works hr hg) fun v => .given ?_
  rintro rfl
  refine Twins.get_bind fun e e' he => ?_
  rw [he.left.world_eq, he.right.world_eq]
  cases hv : env.host.readGlobal o.world ⟨r, x⟩ with
  | none => exact .bind (M := fun _ _ _ => False) (Twins.trap nofun) fun _ _ _ h => h.elim
  | some v =>
      have htype := hread v hv
      rw [← htype] at h ⊢
      exact pushValue_works hhigh hlength h

theorem globalSetHost_works {g : HostGlobal} (hg : hm.globals[x.toNat]? = some g)
    (h : w.Room sp g.ty.words 0) :
    Coupled safe (Twins w st st' o sp sp) (globalSetHost env r x) (globalSetHost env r x)
      (fun _ => Worked w st st' o (sp - g.ty.words)) (Traps w st st' o.hostPauseResult) := by
  refine .bind (hostGlobal_works hr hg) fun v => .given ?_
  rintro rfl
  have := h.below
  refine .bind (Twins.dropSp (by omega)) fun _ => Twins.get_bind fun e e' he => ?_
  rw [he.left.sp_eq, he.right.sp_eq]
  refine .bind (Twins.readValue hhigh hlength (h.covers (by omega) (by omega)) (by omega))
    fun v => .given fun _ => Twins.get_bind fun e e' he => ?_
  rw [he.left.world_eq, he.right.world_eq]
  cases hworld : env.host.writeGlobal o.world ⟨r, x⟩ v with
  | none => exact .bind (M := fun _ _ _ => False) (Twins.trap nofun) fun _ _ _ h => h.elim
  | some world =>
      rw [okOr_some, pure_bind]
      refine .set fun _ _ _ => ⟨{ o with world := world }, ⟨rfl, rfl, rfl, rfl, rfl, rfl⟩,
        Twins.mono (Twins.change he ?_ ?_ rfl rfl rfl rfl) (by omega)⟩
      · rw [← he.left.beside]
        rfl
      · rw [← he.right.beside]
        rfl

end Host

/-! ### Memory -/

/-- The errors of the accesses that the interpreter makes. -/
def Regular (r : Except MemoryError α) : Prop :=
  ∀ err, r = .error err → err = .outOfBounds ∨ err = .outOfMemory

omit hhigh hlength

theorem memoryResult_works {r : Except MemoryError α} (h : Regular r) :
    Coupled safe (Twins w st st' o sp k) (memoryResult r : ExecM η α) (memoryResult r)
      (fun _ => Twins w st st' o sp k) (Traps w st st' o.hostPauseResult) := by
  cases r with
  | ok a => exact .pure fun _ _ => id
  | error err =>
      obtain rfl | rfl := h err rfl
      · exact Twins.trap nofun
      · exact Twins.trap nofun

theorem currentMemory_works {m : Memory} {E : InterpreterBreak → Engine η → Engine η → Prop}
    (hm : o.store.memories[o.memory]? = some m) :
    Coupled safe (Twins w st st' o sp k) (currentMemory : ExecM η Memory) currentMemory
      (fun v e e' => v = m ∧ Twins w st st' o sp k e e') E := by
  refine Twins.get_bind fun e e' he => ?_
  rw [he.left.store_eq, he.right.store_eq, he.left.memory_eq, he.right.memory_eq, hm, unwrap_some]
  exact .pure fun _ _ h => ⟨rfl, h⟩

theorem regular_effectiveAddress (base offset : U32) :
    Regular (Memory.effectiveAddress base offset) := by
  intro err h
  unfold Memory.effectiveAddress at h
  simp only at h
  split at h <;> cases h
  exact .inl rfl

theorem checkInBounds_error {m : Memory} {addr n : ℕ} {err : MemoryError}
    (h : m.checkInBounds addr n = .error err) : err = .outOfBounds := by
  unfold Memory.checkInBounds at h
  split at h <;> cases h
  rfl

theorem regular_loadLe (m : Memory) (n addr : ℕ) : Regular (m.loadLe n addr) := by
  intro err h
  unfold Memory.loadLe Memory.load at h
  cases hcheck : m.checkInBounds addr n with
  | ok => simp [hcheck] at h
  | error e =>
      simp only [hcheck] at h
      cases h
      exact .inl (checkInBounds_error hcheck)

theorem regular_storeLe (m : Memory) (n addr v : ℕ) : Regular (m.storeLe n addr v) := by
  intro err h
  unfold Memory.storeLe Memory.store at h
  rw [toLeBytes_length] at h
  cases hcheck : m.checkInBounds addr n with
  | ok => simp [hcheck] at h
  | error e =>
      simp only [hcheck] at h
      cases h
      exact .inl (checkInBounds_error hcheck)

include hhigh hlength

section Memory

variable {m : Memory} (hm : o.store.memories[o.memory]? = some m)

include hm

theorem load_works {op : LoadOp} {a : MemArg} (h : w.Room sp 1 op.result.words) :
    Coupled safe (Twins w st st' o sp sp) (load op a : ExecM η Unit) (load op a)
      (fun _ => Worked w st st' o (sp - 1 + op.result.words))
        (Traps w st st' o.hostPauseResult) := by
  have := h.below
  refine Twins.spBelow_bind (by omega) ?_
  refine .bind (Twins.readWord hhigh hlength (h.covers (by omega) (by omega)) (by omega))
    fun base => ?_
  refine .bind (memoryResult_works (regular_effectiveAddress _ _)) fun addr => ?_
  refine .bind (currentMemory_works hm) fun v => .given ?_
  rintro rfl
  refine .bind (memoryResult_works (regular_loadLe _ _ _)) fun v => ?_
  cases hty : op.result with
  | i32 | f32 =>
      rw [hty] at h
      simp only [ValType.words] at h ⊢
      rw [show sp - 1 + 1 = sp by omega]
      exact Twins.works (Twins.writeWord hhigh hlength (h.writable (by omega) (by omega))
        (by omega) _) (by omega)
  | i64 | f64 =>
      rw [hty] at h
      simp only [ValType.words] at h ⊢
      rw [show sp - 1 + 2 = sp + 1 by omega]
      exact Twins.works (.bind (Twins.writeDouble hhigh hlength (h.writable (by omega) (by omega))
        (by omega) _) fun _ => Twins.raiseSp 1) (by omega)

theorem memorySize_works (h : w.Room sp 0 1) :
    Coupled safe (Twins w st st' o sp sp) (memorySize : ExecM η Unit) memorySize
      (fun _ => Worked w st st' o (sp + 1)) (Traps w st st' o.hostPauseResult) := by
  refine .bind (currentMemory_works hm) fun v => .given fun _ => Twins.get_bind fun e e' he => ?_
  rw [he.left.sp_eq, he.right.sp_eq]
  exact Twins.works (.bind (Twins.writeWord hhigh hlength (h.writable (by omega) (by omega))
    (by omega) _) fun _ => Twins.raiseSp 1) (by omega)

theorem store_works {op : StoreOp} {a : MemArg} (h : w.Room sp (1 + op.operand.words) 0) :
    Coupled safe (Twins w st st' o sp sp) (store op a : ExecM η Unit) (store op a)
      (fun _ => Worked w st st' o (sp - (1 + op.operand.words)))
        (Traps w st st' o.hostPauseResult) := by
  have := h.below
  have hlast : ∀ (base : U32) (val sp' : ℕ), sp' ≤ sp →
      Coupled safe (Twins w st st' o sp' sp)
        (memoryResult (Memory.effectiveAddress base a.offset) >>= fun addr =>
          currentMemory >>= fun m => memoryResult (m.storeLe op.bytes addr val) >>= fun m' =>
            Fallible.modify fun e => { e with store := e.store.setMemory e.memory m' } :
              ExecM η Unit)
        (memoryResult (Memory.effectiveAddress base a.offset) >>= fun addr =>
          currentMemory >>= fun m => memoryResult (m.storeLe op.bytes addr val) >>= fun m' =>
            Fallible.modify fun e => { e with store := e.store.setMemory e.memory m' })
        (fun _ => Worked w st st' o sp') (Traps w st st' o.hostPauseResult) := by
    intro base val sp' hsp
    refine .bind (memoryResult_works (regular_effectiveAddress _ _)) fun addr => ?_
    refine .bind (currentMemory_works hm) fun v => .given ?_
    rintro rfl
    refine .bind (memoryResult_works (regular_storeLe _ _ _ _)) fun m' => ?_
    refine .modify fun e e' he => ⟨{ o with store := o.store.setMemory o.memory m' },
      ⟨rfl, rfl, rfl, rfl, rfl, rfl⟩, Twins.mono (Twins.change he ?_ ?_ rfl rfl rfl rfl) hsp⟩
    · rw [← he.left.beside]
      rfl
    · rw [← he.right.beside]
      rfl
  refine .bind (Twins.dropSp (by omega)) fun _ => Twins.get_bind fun e e' he => ?_
  rw [he.left.sp_eq, he.right.sp_eq]
  cases hty : op.operand with
  | i32 | f32 =>
      rw [hty] at h
      simp only [ValType.words] at h ⊢
      refine .bind (.map (Twins.readWord hhigh hlength (h.covers (by omega) (by omega))
        (by omega))) fun val => ?_
      exact .bind (Twins.readWord hhigh hlength (h.covers (by omega) (by omega)) (by omega))
        fun base => hlast _ _ _ (by omega)
  | i64 | f64 =>
      rw [hty] at h
      simp only [ValType.words] at h ⊢
      refine .bind (.map (Twins.readDouble hhigh hlength (h.covers (by omega) (by omega))
        (by omega))) fun val => ?_
      exact .bind (Twins.readWord hhigh hlength (h.covers (by omega) (by omega)) (by omega))
        fun base => hlast _ _ _ (by omega)

end Memory

omit hhigh hlength

/-- The end of `memory.grow` on a memory, with the answer of the allocator. -/
theorem grown_works {mem : MemRef} {r : Except MemoryError (U32 × Memory)} {world : η}
    {e e' : Engine η} (he : Twins w st st' o sp k e e') :
    Coupled safe (Twins w st st' o sp k)
      (Fallible.set { e with world := world } >>= fun _ =>
        (match r with
          | .ok (oldSize, m') => do
              Fallible.modify fun e => { e with store := e.store.setMemory mem m' }
              pure oldSize
          | .error _ => pure 0xFFFFFFFF : ExecM η U32))
      (Fallible.set { e' with world := world } >>= fun _ =>
        (match r with
          | .ok (oldSize, m') => do
              Fallible.modify fun e => { e with store := e.store.setMemory mem m' }
              pure oldSize
          | .error _ => pure 0xFFFFFFFF : ExecM η U32))
      (fun _ e e' => ∃ o', o.SameControl o' ∧ Twins w st st' o' sp k e e')
      (Traps w st st' o.hostPauseResult) := by
  have hset : Twins w st st' { o with world := world } sp k { e with world := world }
      { e' with world := world } := by
    refine Twins.change he ?_ ?_ rfl rfl rfl rfl
    · rw [← he.left.beside]
      rfl
    · rw [← he.right.beside]
      rfl
  have hsame : o.SameControl { o with world := world } := .world _ _ _
  refine .bind (.set fun _ _ _ => hset) fun _ => ?_
  cases r with
  | error err => exact .pure fun _ _ h => ⟨_, hsame, h⟩
  | ok p =>
      exact .bind (.modify (Q := fun e e' => ∃ o', o.SameControl o' ∧
        Twins w st st' o' sp k e e') fun f f' hf => ⟨_, hsame.trans (.store _ _),
          hf.updateStore fun s => s.setMemory mem p.2⟩) fun _ => .pure fun _ _ => id

theorem growMemory_works (env : ExecEnv η) {mem : MemRef} {m : Memory} {n : U32} :
    Coupled safe (Twins w st st' o sp k) (growMemory env mem m n) (growMemory env mem m n)
      (fun _ e e' => ∃ o', o.SameControl o' ∧ Twins w st st' o' sp k e e')
      (Traps w st st' o.hostPauseResult) := by
  refine Twins.get_bind fun e e' he => ?_
  rw [he.left.world_eq, he.right.world_eq]
  cases m.growRequest n with
  | none => exact grown_works he
  | some size => exact grown_works he

include hhigh hlength

theorem memoryGrow_works (env : ExecEnv η) {mem : MemRef} {m : Memory}
    (hmem : o.store.getMemoryMut o.module = some mem)
    (hm : o.store.memories[mem]? = some m) (h : w.Room sp 1 1) :
    Coupled safe (Twins w st st' o sp sp) (memoryGrow env) (memoryGrow env)
      (fun _ => Worked w st st' o sp) (Traps w st st' o.hostPauseResult) := by
  have := h.below
  refine Twins.spBelow_bind (by omega) ?_
  refine .bind (Twins.readWord hhigh hlength (h.covers (by omega) (by omega)) (by omega))
    fun n => ?_
  have hclear : Coupled safe (Twins w st st' o sp sp)
      (Fallible.modify Engine.clearMemory : ExecM η Unit) (Fallible.modify Engine.clearMemory)
      (fun _ => Twins w st st' o.clearMemory sp sp) (Traps w st st' o.hostPauseResult) := by
    refine .modify fun e e' he => Twins.change he ?_ ?_ rfl rfl rfl rfl
    · rw [← he.left.beside]
      rfl
    · rw [← he.right.beside]
      rfl
  have hclears : o.SameControl o.clearMemory := ⟨rfl, rfl, rfl, rfl, rfl, rfl⟩
  refine .bind hclear fun _ => Twins.get_bind fun e e' he => ?_
  have hmem' : e.store.getMemoryMut e.module = some mem := by
    rw [he.left.store_eq, he.left.module_eq]
    exact hmem
  have hmem'' : e'.store.getMemoryMut e'.module = some mem := by
    rw [he.right.store_eq, he.right.module_eq]
    exact hmem
  have hm' : e.store.memories[mem]? = some m := by
    rw [he.left.store_eq]
    exact hm
  have hm'' : e'.store.memories[mem]? = some m := by
    rw [he.right.store_eq]
    exact hm
  have hhandles : memoryHandles env e' mem = memoryHandles env e mem := by
    unfold memoryHandles
    rw [he.left.store_eq, he.right.store_eq, he.left.memory_eq, he.right.memory_eq,
      he.left.world_eq, he.right.world_eq]
  rw [hmem', hmem'', unwrap_some, pure_bind, pure_bind, hm', hm'', unwrap_some, pure_bind,
    pure_bind, hhandles]
  -- Whatever the result, the handle is taken back and the result is written.
  have hlast : ∀ result : U32, Coupled safe
      (fun e e' => ∃ o', o.clearMemory.SameControl o' ∧ Twins w st st' o' sp sp e e')
      (Fallible.modify (fun e => { e with memory := mem }) >>= fun _ =>
        writeWord (sp - 1) result : ExecM η Unit)
      (Fallible.modify (fun e => { e with memory := mem }) >>= fun _ => writeWord (sp - 1) result)
      (fun _ => Worked w st st' o sp) (Traps w st st' o.hostPauseResult) := by
    refine fun result => .exists_ fun o' => .given fun hsame => ?_
    refine .bind (.modify (Q := Twins w st st' { o' with memory := mem } sp sp)
      fun e e' he => Twins.change he ?_ ?_ rfl rfl rfl rfl) fun _ => ?_
    · rw [← he.left.beside]
      rfl
    · rw [← he.right.beside]
      rfl
    · refine Coupled.weaken (Twins.writeWord hhigh hlength (h.writable (by omega) (by omega))
        (by omega) result) id (fun _ _ h => h) (fun _ _ _ h => ?_) fun _ _ _ h => h
      exact ⟨{ o' with memory := mem }, ⟨hsame.pc, hsame.jumped, hsame.fp, hsame.module,
        hsame.pause, hsame.result⟩, h.mono (by omega)⟩
  refine .ite (fun _ => ?_) fun _ => .ite (fun _ => ?_) fun _ => ?_
  · exact .bind (.pure fun _ _ h => ⟨_, .refl _, h⟩) hlast
  · exact .bind (growMemory_works env) hlast
  · exact .bind (M := fun _ _ _ => False) (Twins.trap nofun) fun _ _ _ h => h.elim

/-! ### Host calls -/

theorem readArgs_works {tys : List ValType} {a : ℕ} (ha : w.low ≤ a)
    (hsp : a + wordsOf tys ≤ w.high)
    (hk : a + wordsOf tys ≤ k) {E : InterpreterBreak → Engine η → Engine η → Prop} :
    Coupled safe (Twins w st st' o sp k) (readArgs tys a : ExecM η (List Value)) (readArgs tys a)
      (fun _ => Twins w st st' o sp k) E := by
  induction tys generalizing a with
  | nil => exact .pure fun _ _ => id
  | cons ty tys ih =>
      rw [wordsOf_cons] at hsp hk
      refine .bind (Twins.readValue hhigh hlength ⟨ha, by omega⟩ (by omega)) fun v =>
        .given fun _ => ?_
      exact .bind (ih (by omega) (by omega) (by omega)) fun _ => .pure fun _ _ => id

omit hhigh hlength

/-- The host sees the arguments and the memories, and changes its world and bytes. -/
theorem callHostFn_works (env : ExecEnv η) (ref : HostRef) (args : List Value)
    {E : InterpreterBreak → Engine η → Engine η → Prop} :
    Coupled safe (Twins w st st' o sp k) (callHostFn env ref args) (callHostFn env ref args)
      (fun r e e' => r = (env.host.call o.world ref args o.store.memories).1 ∧
        ∃ o', o.SameControl o' ∧ Twins w st st' o' sp k e e') E := by
  refine Twins.get_bind fun e e' he => ?_
  rw [he.left.world_eq, he.left.store_eq, he.right.world_eq, he.right.store_eq]
  cases env.host.call o.world ref args o.store.memories with
  | mk r p =>
      refine .bind (.set (Q := fun e e' => ∃ o', o.SameControl o' ∧
        Twins w st st' o' sp k e e') fun _ _ _ => ?_) fun _ => .pure fun _ _ h => ⟨rfl, h⟩
      refine ⟨_, .world _ p.1 (o.store.writeBytes p.2), Twins.change he ?_ ?_ rfl rfl rfl rfl⟩
      · rw [← he.left.beside]
        rfl
      · rw [← he.right.beside]
        rfl

include hhigh hlength

/-- A host function pauses: its result is still to be pushed. -/
def Pauses (w : Window) (st st' : Stack) (o : Engine η) (sp : ℕ) (ret : ResultType)
    (b : InterpreterBreak) (e e' : Engine η) : Prop :=
  b = .pause ∧ ∃ o', o.SameControl o' ∧
    Twins w st st' { o' with hostPauseResult := some ret } sp sp e e'

/-- A host function that returns a value of its declared type works on its arguments. -/
theorem callHost_works (env : ExecEnv η) {r : HostModuleRef} {x : U16} {hm : HostModule}
    {f : HostFunction} (hr : o.store.hostModule? r = some hm)
    (hf : hm.functions[x.toNat]? = some f)
    (hcall : ∀ args v, (env.host.call o.world ⟨r, x⟩ args o.store.memories).1 = .continue_ v →
      v.map Value.type = f.returns)
    (hpause : o.hostPauseResult = none)
    (h : w.Room sp (wordsOf f.params) f.returns.words) :
    Coupled safe (Twins w st st' o sp sp) (callHost env r x) (callHost env r x)
      (fun _ => Worked w st st' o (sp - wordsOf f.params + f.returns.words))
      (fun b e e' => Traps w st st' o.hostPauseResult b e e' ∨
        Pauses w st st' o (sp - wordsOf f.params) f.returns b e e') := by
  have := h.low
  have := h.below
  have := h.top
  refine Twins.get_bind fun e e' he => ?_
  rw [he.left.store_eq, he.right.store_eq, hr, unwrap_some, pure_bind, hf, unwrap_some, pure_bind]
  have hsize : f.paramSize = wordsOf f.params := by
    rw [HostFunction.paramSize, sum_size_eq, Nat.mul_div_cancel_left _ (by decide)]
  rw [hsize]
  refine .bind (Twins.dropSp (by omega)) fun _ => Twins.get_bind fun e e' he => ?_
  rw [he.left.sp_eq, he.right.sp_eq]
  refine .bind (readArgs_works hhigh hlength (by omega) (by omega) (by omega)) fun args => ?_
  refine .bind (callHostFn_works env _ args) fun result => .given fun hresult =>
    .exists_ fun o' => .given fun hsame => ?_
  cases result with
  | continue_ v =>
      have htype := hcall args v hresult.symm
      cases v with
      | none =>
          cases hreturns : f.returns with
          | none => exact .pure fun _ _ h => ⟨o', hsame, h.mono (Nat.sub_le _ _)⟩
          | some ty => simp [hreturns] at htype
      | some v =>
          cases hreturns : f.returns with
          | none => simp [hreturns] at htype
          | some ty =>
              rw [hreturns] at htype h
              obtain rfl : v.type = ty := Option.some.inj htype
              refine .bind (.assert rfl rfl) fun _ => ?_
              exact (Twins.pushValue hhigh hlength (h.writable (Nat.le_refl _) (Nat.le_refl _))
                (by omega)).weaken id (fun _ _ h => h)
                  (fun _ _ _ h => ⟨o', hsame, h.mono (Nat.le_max_right _ _)⟩) fun _ _ _ h => h
  | pause =>
      refine Twins.get_bind fun e e' he => ?_
      have hnone : e.hostPauseResult = none := by rw [he.left.pause_eq, hsame.pause, hpause]
      have hnone' : e'.hostPauseResult = none := by rw [he.right.pause_eq, hsame.pause, hpause]
      refine .bind (.assert hnone hnone') fun _ => ?_
      refine .bind (.set (Q := Twins w st st' { o' with hostPauseResult := some f.returns }
        (sp - wordsOf f.params) (sp - wordsOf f.params)) fun _ _ _ => ?_) fun _ =>
          .throw fun _ _ h => .inr ⟨rfl, o', hsame, h⟩
      refine Twins.mono (Twins.change he ?_ ?_ rfl rfl rfl rfl) (by omega)
      · rw [← he.left.beside]
        rfl
      · rw [← he.right.beside]
        rfl
  | trap =>
      exact (Twins.trap (show TrapReason.host ≠ .malformedIr from nofun)).weaken id (fun _ _ h => h)
        (fun _ _ _ h => h) fun _ _ _ h => .inl (hsame.pause ▸ h)

end Instructions

end Interpreter

end SpaceWasm
