import SpaceWasm.Effects

/-!
# Branches

A branch that is no return copies its results down over the operands that it drops,
within the window, and jumps.
-/

namespace SpaceWasm

open Fallible

variable {η α : Type} {w : Window} {st st' : Stack} {rest : Engine η} {sp : ℕ} {safe : Prop}

/-- An instruction has jumped to `pc`. -/
def Jumped (w : Window) (st st' : Stack) (rest : Engine η) (sp : ℕ) (pc : JumpTarget)
    (e e' : Engine η) : Prop :=
  Twins w st st' { rest with pc := pc, jumped := true } sp sp e e'

/-- The jump itself. -/
theorem jump_jumps {k : ℕ} (hk : sp ≤ k) (offset : JumpOffset → JumpOffset)
    {E : InterpreterBreak → Engine η → Engine η → Prop} :
    Coupled safe (Twins w st st' rest sp k)
      (Fallible.modify (fun e => { e with pc := offset e.pc, jumped := true }) : ExecM η Unit)
      (Fallible.modify fun e => { e with pc := offset e.pc, jumped := true })
      (fun _ => Jumped w st st' rest sp (offset rest.pc)) E := by
  refine .modify fun e e' he => Twins.mono (Twins.change he ?_ ?_ rfl rfl rfl rfl) hk
  · rw [← he.left.beside]
    rfl
  · rw [← he.right.beside]
    rfl

namespace Interpreter

variable (hhigh : w.high ≤ st.words.length) (hlength : st'.words.length = st.words.length)

include hhigh hlength

theorem brImpl_jumps {offset : JumpOffset} {x : LabelTarget} {arity : LabelArity}
    {E : InterpreterBreak → Engine η → Engine η → Prop} (harity : x.arity = some arity)
    (hsentinel : x.isSentinel = false) (hle : arity.words ≤ x.depth.toNat)
    (h : w.Room sp x.depth.toNat arity.words) :
    Coupled safe (Twins w st st' rest sp sp) (brImpl offset x : ExecM η Unit) (brImpl offset x)
      (fun _ => Jumped w st st' rest (sp - x.depth.toNat + arity.words) (rest.pc + offset + x.jump))
      E := by
  have hbelow := h.below
  have hjump : ∀ {sp k : ℕ}, sp ≤ k → Coupled safe (Twins w st st' rest sp k)
      (Fallible.modify (fun e => { e with pc := e.pc + offset + x.jump, jumped := true }) :
        ExecM η Unit)
      (Fallible.modify fun e => { e with pc := e.pc + offset + x.jump, jumped := true })
      (fun _ => Jumped w st st' rest sp (rest.pc + offset + x.jump)) E := fun hk =>
    jump_jumps hk fun pc => pc + offset + x.jump
  unfold brImpl
  rw [harity, unwrap_some, pure_bind, hsentinel, if_neg Bool.false_ne_true]
  refine .bind (Twins.dropSp (by omega)) fun _ => Twins.get_bind fun e e' he => ?_
  rw [he.left.sp_eq, he.right.sp_eq]
  cases arity with
  | none => exact hjump (Nat.sub_le _ _)
  | i32 =>
      simp only [LabelArity.words] at h hle ⊢
      refine .bind (.assert (by omega) (by omega)) fun _ => ?_
      refine .bind (Twins.readWord hhigh hlength (h.covers (by omega) (by omega)) (by omega))
        fun v => ?_
      refine .bind (Twins.writeWord hhigh hlength (h.writable (by omega) (by omega)) (by omega) v)
        fun _ => ?_
      exact .bind (Twins.raiseSp 1) fun _ => hjump (by omega)
  | i64 =>
      simp only [LabelArity.words] at h hle ⊢
      refine .bind (.assert (by omega) (by omega)) fun _ => ?_
      refine .bind (Twins.readWord hhigh hlength (h.covers (by omega) (by omega)) (by omega))
        fun v₁ => ?_
      refine .bind (Twins.readWord hhigh hlength (h.covers (by omega) (by omega)) (by omega))
        fun v₂ => ?_
      refine .bind (Twins.writeWord hhigh hlength (h.writable (by omega) (by omega)) (by omega) v₁)
        fun _ => ?_
      refine .bind (Twins.writeWord hhigh hlength (h.writable (by omega) (by omega)) (by omega) v₂)
        fun _ => ?_
      exact .bind (Twins.raiseSp 2) fun _ => hjump (by omega)

end Interpreter

end SpaceWasm
