import SpaceWasm.Code
import SpaceWasm.Store

/-!
# Constant expressions

The visitor that evaluates the initialiser of a global or the offset of a
segment. Its state is the value found so far. What a host global reads as is
outside the repository: `readGlobal` answers for it.
-/

namespace SpaceWasm

open Fallible

namespace ConstantCompiler

abbrev ConstM (α : Type) := Fallible ValidationError (Option Value) α

def fail {α : Type} (e : ConstantExprError) : ConstM α := throw (.invalidConstantExpr e)

/-- `state.replace(v)`, which is an error when there was a value. -/
def replace (v : Value) : ConstM Unit := do
  let before ← get
  set (some v)
  if before = none then pure () else fail .alreadyHasValue

def globalGet (readGlobal : HostRef → Option Value) (store : Store) (module : Module) (x : Idx) :
    ConstM Unit := do
  let ref ← okOr (module.getGlobalRef x) (.invalidConstantExpr .invalidGlobal)
  match ref with
  -- A global of the module itself is not allowed in a constant expression.
  | .module _ => fail .invalidConstantInstruction
  | .host m i => do
      let hm ← okOr (store.hostModule? m) (.invalidConstantExpr .invalidGlobal)
      let g ← okOr hm.globals[i.toNat]? (.invalidConstantExpr .invalidGlobal)
      if g.mutable then fail .invalidConstantInstruction
      else do
        let v ← okOr (readGlobal ⟨m, i⟩) (.invalidConstantExpr .invalidGlobal)
        replace v
  | .extern_ m i => do
      let em ← okOr (store.module? m) (.invalidConstantExpr .invalidGlobal)
      let g ← okOr em.globals[i.toNat]? (.invalidConstantExpr .invalidGlobal)
      if g.type.mutable then fail .invalidConstantInstruction
      else replace (g.value.toValue g.type.ty)

def finish : ConstM Unit := do
  let v ← get
  if v.isSome then pure () else fail .noValue

def visit (readGlobal : HostRef → Option Value) (store : Store) (module : Module) :
    WasmVisitor (Option Value)
  | .finish => finish
  | .i32Const n => replace (.i32 n)
  | .i64Const n => replace (.i64 n)
  | .f32Const z => replace (.f32 z)
  | .f64Const z => replace (.f64 z)
  | .globalGet x => globalGet readGlobal store module x
  | _ => fail .invalidConstantInstruction

end ConstantCompiler

end SpaceWasm
