import Mathlib.Logic.Relation
import SpaceWasm.Interpreter

/-!
# What instructions do to the context

The context of an execution is the current module, its cached memory and table, and
the store. Most instructions work on the stack alone and leave it as it is. The
others take the steps of `ContextStep`: entering a module, writing a global, writing
or growing a memory, or what the host does to the bytes of the memories.
-/

namespace SpaceWasm

open Fallible Relation

variable {η α β : Type}

structure ModuleContext where
  module : ModuleRef
  memory : MemRef
  table : TableRef
  store : Store

def Engine.context (e : Engine η) : ModuleContext := ⟨e.module, e.memory, e.table, e.store⟩

/-- A step that an instruction takes on the context. -/
inductive ContextStep (c : ModuleContext) : ModuleContext → Prop where
  /-- Make a module the current one. -/
  | enter {r : ModuleRef} {mem : MemRef} {table : TableRef} :
      c.store.getMemory r = some mem → c.store.getTable r = some table →
      ContextStep c { c with module := r, memory := mem, table := table }
  | setGlobal (r : ModuleRef) (x : U16) (v : RawValue) :
      ContextStep c { c with store := c.store.setGlobal r x v }
  /-- Write bytes of the cached memory. -/
  | write {m m' : Memory} {addr : ℕ} {data : List U8} : c.store.memories[c.memory]? = some m →
      m.store addr data = .ok m' →
      ContextStep c { c with store := c.store.setMemory c.memory m' }
  | host (writes : List ByteWrite) :
      ContextStep c { c with store := c.store.writeBytes writes }
  /-- Grow the memory of the current module, which is cached afterwards. -/
  | grow {mem : MemRef} {m m' : Memory} {n oldSize : U32} {allocated : Bool} :
      c.store.getMemoryMut c.module = some mem → c.store.memories[mem]? = some m →
      m.isZero = false → m.grow n allocated = .ok (oldSize, m') →
      ContextStep c { c with memory := mem, store := c.store.setMemory mem m' }
  /-- A memory that cannot grow is cached all the same. -/
  | keep {mem : MemRef} : c.store.getMemoryMut c.module = some mem →
      ContextStep c { c with memory := mem }

/-! ### Computations that leave the context alone -/

/-- `x` leaves the context as it is, however it ends. -/
def Stays (x : ExecM η α) : Prop := ∀ c, Preserves False (fun e => e.context = c) x

namespace Stays

theorem pure (a : α) : Stays (Pure.pure a : ExecM η α) := fun _ => .pure a

theorem throw (b : InterpreterBreak) : Stays (Fallible.throw b : ExecM η α) := fun _ => .throw b

theorem panic : Stays (Fallible.panic : ExecM η α) := fun _ _ _ => id

theorem bind {x : ExecM η α} {f : α → ExecM η β} (hx : Stays x) (hf : ∀ a, Stays (f a)) :
    Stays (x >>= f) := fun c => .bind (hx c) fun a => hf a c

theorem map {x : ExecM η α} (f : α → β) (hx : Stays x) : Stays (f <$> x) :=
  hx.bind fun a => pure (f a)

theorem ite {p : Prop} [Decidable p] {x y : ExecM η α} (hx : Stays x) (hy : Stays y) :
    Stays (if p then x else y) := fun c => .ite (fun _ => hx c) fun _ => hy c

theorem get : Stays (Fallible.get : ExecM η (Engine η)) := fun _ => .get

theorem modify {f : Engine η → Engine η} (h : ∀ e, (f e).context = e.context) :
    Stays (Fallible.modify f : ExecM η Unit) := fun _ e he => (h e).trans he

theorem unwrap (o : Option α) : Stays (Fallible.unwrap o : ExecM η α) := by
  cases o with
  | none => exact panic
  | some a => exact pure a

theorem okOr (o : Option α) (b : InterpreterBreak) : Stays (Fallible.okOr o b : ExecM η α) :=
  fun _ => .okOr o b

theorem assert (p : Prop) [Decidable p] : Stays (Fallible.assert p : ExecM η Unit) :=
  ite (pure ()) panic

/-- What follows a look at the engine may set it, if it keeps the context. -/
theorem get_bind {f : Engine η → ExecM η α}
    (h : ∀ e, Preserves False (fun e' => e'.context = e.context) (f e)) :
    Stays (Fallible.get >>= f) := fun _ e he => he ▸ h e e rfl

end Stays

theorem keeps_set {c : ModuleContext} {e : Engine η} (h : e.context = c) :
    Preserves False (fun e' => e'.context = c) (Fallible.set e : ExecM η Unit) := fun _ _ => h

section Primitives

theorem stays_spBelow (n : ℕ) : Stays (spBelow n : ExecM η ℕ) :=
  .bind .get fun _ => .bind (.assert _) fun _ => .pure _

theorem stays_dropSp (n : ℕ) : Stays (dropSp n : ExecM η Unit) :=
  .bind (stays_spBelow n) fun _ => .modify fun _ => rfl

theorem stays_raiseSp (n : ℕ) : Stays (raiseSp n : ExecM η Unit) := .modify fun _ => rfl

theorem stays_readWord (addr : ℕ) : Stays (readWord addr : ExecM η U32) :=
  .get_bind fun _ => .bind (Stays.unwrap _ _) fun _ => .bind (keeps_set rfl) fun _ => .pure _

theorem stays_writeWord (addr : ℕ) (w : U32) : Stays (writeWord addr w : ExecM η Unit) :=
  .get_bind fun _ => .bind (Stays.assert _ _) fun _ => keeps_set rfl

theorem stays_readDouble (addr : ℕ) : Stays (readDouble addr : ExecM η U64) :=
  .bind (stays_readWord _) fun _ => .bind (stays_readWord _) fun _ => .pure _

theorem stays_writeDouble (addr : ℕ) (w : U64) : Stays (writeDouble addr w : ExecM η Unit) :=
  .bind (stays_writeWord _ _) fun _ => stays_writeWord _ _

theorem stays_pushValue (v : Value) : Stays (pushValue v : ExecM η Unit) := by
  refine .bind .get fun e => ?_
  cases v with
  | i32 w | f32 w => exact .bind (stays_writeWord _ _) fun _ => stays_raiseSp _
  | i64 w | f64 w => exact .bind (stays_writeDouble _ _) fun _ => stays_raiseSp _

theorem stays_readValue (ty : ValType) (addr : ℕ) : Stays (readValue ty addr : ExecM η Value) := by
  cases ty with
  | i32 | f32 => exact .map _ (stays_readWord _)
  | i64 | f64 => exact .map _ (stays_readDouble _)

theorem stays_numResult (r : NumResult α) : Stays (numResult r : ExecM η α) := by
  cases r with
  | ok a => exact .pure a
  | error reason => exact .throw _

theorem stays_numSem (sem : NumSem) : Stays (sem.exec : ExecM η Unit) := by
  cases sem with
  | unary32 f =>
      exact .bind (stays_spBelow _) fun _ => .bind (stays_readWord _) fun _ =>
        .bind (stays_numResult _) fun _ => stays_writeWord _ _
  | unary64 f =>
      exact .bind (stays_spBelow _) fun _ => .bind (stays_readDouble _) fun _ =>
        .bind (stays_numResult _) fun _ => stays_writeDouble _ _
  | binary32 f =>
      exact .bind (stays_dropSp _) fun _ => .bind .get fun _ => .bind (stays_readWord _) fun _ =>
        .bind (stays_spBelow _) fun _ => .bind (stays_readWord _) fun _ =>
          .bind (stays_numResult _) fun _ => stays_writeWord _ _
  | binary64 f =>
      exact .bind (stays_dropSp _) fun _ => .bind .get fun _ => .bind (stays_readDouble _) fun _ =>
        .bind (stays_spBelow _) fun _ => .bind (stays_readDouble _) fun _ =>
          .bind (stays_numResult _) fun _ => stays_writeDouble _ _
  | compare64 f =>
      exact .bind (stays_dropSp _) fun _ => .bind .get fun _ => .bind (stays_readDouble _) fun _ =>
        .bind (stays_spBelow _) fun _ => .bind (stays_readDouble _) fun _ =>
          .bind (stays_numResult _) fun _ => stays_writeWord _ _
  | narrow f =>
      exact .bind (stays_dropSp _) fun _ => .bind (stays_spBelow _) fun _ =>
        .bind (stays_readDouble _) fun _ => .bind (stays_numResult _) fun _ => stays_writeWord _ _
  | wrap f =>
      exact .bind (stays_spBelow _) fun _ => .bind (stays_readDouble _) fun _ =>
        .bind (stays_numResult _) fun _ => .bind (stays_writeWord _ _) fun _ => stays_dropSp _
  | widen f =>
      exact .bind (stays_spBelow _) fun _ => .bind (stays_readWord _) fun _ =>
        .bind (stays_numResult _) fun _ => .bind (stays_writeDouble _ _) fun _ => stays_raiseSp _

theorem stays_zeroLocals (n addr : ℕ) : Stays (zeroLocals n addr : ExecM η Unit) := by
  induction n generalizing addr with
  | zero => exact .pure ()
  | succ n ih => exact .bind (stays_writeWord _ _) fun _ => ih _

theorem stays_callImpl (delta : U8) (x : U16) : Stays (callImpl delta x : ExecM η Unit) :=
  .bind .get fun _ => .bind (.unwrap _) fun _ => .ite (.throw _) <|
    .bind (stays_spBelow _) fun _ => .bind (stays_writeWord _ _) fun _ =>
      .bind (stays_writeWord _ _) fun _ => .bind (.modify fun _ => rfl) fun _ =>
        .bind (stays_zeroLocals _ _) fun _ => .modify fun _ => rfl

namespace Interpreter

theorem stays_copyWords (n src dst : ℕ) : Stays (copyWords n src dst : ExecM η Unit) := by
  induction n generalizing src dst with
  | zero => exact .pure ()
  | succ n ih => exact .bind (stays_readWord _) fun _ => .bind (stays_writeWord _ _) fun _ => ih _ _

theorem stays_readResult (n : ℕ) : Stays (readResult n : ExecM η RawValue) := by
  refine .bind .get fun _ => ?_
  match n with
  | 0 => exact .pure _
  | 1 => exact .map _ (stays_readWord _)
  | 2 => exact .map _ (stays_readDouble _)
  | _ + 3 => exact .panic

theorem stays_drop (ty : ValType) : Stays (drop ty : ExecM η Unit) := stays_dropSp _

theorem stays_select (ty : ValType) : Stays (select ty : ExecM η Unit) := by
  refine .bind (stays_dropSp _) fun _ => .bind .get fun _ => .bind (stays_readWord _) fun _ => ?_
  cases ty with
  | i32 | f32 =>
      exact .ite (.bind (stays_spBelow _) fun _ => .bind (stays_readWord _) fun _ =>
        .bind (stays_spBelow _) fun _ => .bind (stays_writeWord _ _) fun _ => stays_dropSp _)
          (stays_dropSp _)
  | i64 | f64 =>
      exact .ite (.bind (stays_spBelow _) fun _ => .bind (stays_readDouble _) fun _ =>
        .bind (stays_spBelow _) fun _ => .bind (stays_writeDouble _ _) fun _ => stays_dropSp _)
          (stays_dropSp _)

theorem stays_readArgs (tys : List ValType) (addr : ℕ) :
    Stays (readArgs tys addr : ExecM η (List Value)) := by
  induction tys generalizing addr with
  | nil => exact .pure _
  | cons ty tys ih => exact .bind (stays_readValue _ _) fun _ => .bind (ih _) fun _ => .pure _

theorem stays_localGet (l : LocalVariable) : Stays (localGet l : ExecM η Unit) := by
  refine .bind .get fun _ => ?_
  cases l.ty with
  | i32 | f32 =>
      exact .bind (stays_readWord _) fun _ => .bind (stays_writeWord _ _) fun _ => stays_raiseSp _
  | i64 | f64 =>
      exact .bind (stays_readDouble _) fun _ => .bind (stays_writeDouble _ _) fun _ =>
        stays_raiseSp _

theorem stays_localSet (l : LocalVariable) : Stays (localSet l : ExecM η Unit) := by
  refine .bind (stays_dropSp _) fun _ => .bind .get fun _ => ?_
  cases l.ty with
  | i32 | f32 => exact .bind (stays_readWord _) fun _ => stays_writeWord _ _
  | i64 | f64 => exact .bind (stays_readDouble _) fun _ => stays_writeDouble _ _

theorem stays_localTee (l : LocalVariable) : Stays (localTee l : ExecM η Unit) := by
  refine .bind .get fun _ => .bind (stays_spBelow _) fun _ => ?_
  cases l.ty with
  | i32 | f32 => exact .bind (stays_readWord _) fun _ => stays_writeWord _ _
  | i64 | f64 => exact .bind (stays_readDouble _) fun _ => stays_writeDouble _ _

theorem stays_ownGlobal (r : ModuleRef) (x : U16) : Stays (ownGlobal r x : ExecM η Global) :=
  .bind .get fun _ => .bind (.unwrap _) fun _ => .unwrap _

theorem stays_globalGet (r : ModuleRef) (x : U16) : Stays (globalGet r x : ExecM η Unit) :=
  .bind (stays_ownGlobal r x) fun _ => stays_pushValue _

theorem stays_hostGlobal (r : HostModuleRef) (x : U16) :
    Stays (hostGlobal r x : ExecM η HostGlobal) :=
  .bind .get fun _ => .bind (.unwrap _) fun _ => .unwrap _

theorem stays_globalGetHost (env : ExecEnv η) (r : HostModuleRef) (x : U16) :
    Stays (globalGetHost env r x) :=
  .bind (stays_hostGlobal r x) fun _ => .bind .get fun _ => .bind (.okOr _ _) fun _ =>
    stays_pushValue _

theorem stays_globalSetHost (env : ExecEnv η) (r : HostModuleRef) (x : U16) :
    Stays (globalSetHost env r x) :=
  .bind (stays_hostGlobal r x) fun _ => .bind (stays_dropSp _) fun _ => .bind .get fun _ =>
    .bind (stays_readValue _ _) fun _ => .get_bind fun _ => .bind (Stays.okOr _ _ _) fun _ =>
      keeps_set rfl

theorem stays_memoryResult (r : Except MemoryError α) : Stays (memoryResult r : ExecM η α) := by
  cases r with
  | ok a => exact .pure a
  | error e => cases e <;> first | exact .throw _ | exact .panic

theorem stays_currentMemory : Stays (currentMemory : ExecM η Memory) :=
  .bind .get fun _ => .unwrap _

theorem stays_load (op : LoadOp) (m : MemArg) : Stays (load op m : ExecM η Unit) := by
  refine .bind (stays_spBelow _) fun _ => .bind (stays_readWord _) fun _ =>
    .bind (stays_memoryResult _) fun _ => .bind stays_currentMemory fun _ =>
      .bind (stays_memoryResult _) fun _ => ?_
  cases op.result with
  | i32 | f32 => exact stays_writeWord _ _
  | i64 | f64 => exact .bind (stays_writeDouble _ _) fun _ => stays_raiseSp _

theorem stays_memorySize : Stays (memorySize : ExecM η Unit) :=
  .bind stays_currentMemory fun _ => .bind .get fun _ => .bind (stays_writeWord _ _) fun _ =>
    stays_raiseSp _

end Interpreter

end Primitives

/-! ### Computations that take steps -/

/-- The contexts that steps lead to. -/
abbrev ModuleContext.Reaches : ModuleContext → ModuleContext → Prop := ReflTransGen ContextStep

/-- The trap of a memory that cannot grow because it has more than one handle; the
engine has given up its own. -/
structure SharesMemory (env : ExecEnv η) (c : ModuleContext) (b : InterpreterBreak) (e : Engine η) :
    Prop where
  trap : b = .trap .memoryRefNotUnique
  context : e.context = { c with memory := c.store.zeroMemory }
  handles : ∃ mem m, c.store.getMemoryMut c.module = some mem ∧
    c.store.memories[mem]? = some m ∧ m.isZero = false ∧ Interpreter.memoryHandles env e mem ≠ 1

/-- How an instruction breaks off that started in `c`. -/
def ModuleContext.Breaks (env : ExecEnv η) (c : ModuleContext) (b : InterpreterBreak)
    (e : Engine η) : Prop :=
  c.Reaches e.context ∨ ∃ c', c.Reaches c' ∧ SharesMemory env c' b e

/-- `x` takes steps on the context. -/
def Moves (env : ExecEnv η) (x : ExecM η α) : Prop :=
  ∀ c : ModuleContext, Guarded False (fun e => c.Reaches e.context) x
    (fun _ e => c.Reaches e.context)
    (c.Breaks env)

namespace Moves

variable {env : ExecEnv η}

theorem stays {x : ExecM η α} (hx : Stays x) : Moves env x := by
  intro c e he
  exact Guarded.weaken (hx e.context) id (fun _ h => h) (fun _ _ h => h ▸ he)
    (fun _ _ h => .inl (h ▸ he)) e rfl

theorem bind {x : ExecM η α} {f : α → ExecM η β} (hx : Moves env x) (hf : ∀ a, Moves env (f a)) :
    Moves env (x >>= f) := fun c => .bind (hx c) fun a => hf a c

theorem bind_stays {x : ExecM η α} {f : α → ExecM η β} (hx : Stays x)
    (hf : ∀ a, Moves env (f a)) : Moves env (x >>= f) := bind (stays hx) hf

theorem ite {p : Prop} [Decidable p] {x y : ExecM η α} (hx : Moves env x) (hy : Moves env y) :
    Moves env (if p then x else y) := fun c => .ite (fun _ => hx c) fun _ => hy c

/-- What one step leads to from each engine. -/
theorem of_step {x : ExecM η α}
    (h : ∀ e, Guarded False (fun e' => e' = e) x
      (fun _ e' => ReflGen ContextStep e.context e'.context) fun b e' =>
        ReflGen ContextStep e.context e'.context ∨ SharesMemory env e.context b e') :
    Moves env x := by
  intro c e he
  exact Guarded.weaken (h e) id (fun _ h => h) (fun _ _ h => he.trans h.to_reflTransGen)
    (fun _ _ h => h.imp (fun h => he.trans h.to_reflTransGen) fun h => ⟨_, he, h⟩) e rfl

end Moves

section Moves

variable {env : ExecEnv η}

theorem moves_enterModule (r : ModuleRef) : Moves env (enterModule r) := by
  refine .of_step fun e => ?_
  rintro _ rfl
  unfold enterModule
  rw [bind_of_ok (get_apply _)]
  cases hmem : Store.getMemory _ r with
  | none => exact id
  | some mem =>
      rw [unwrap_some, pure_bind]
      cases htable : Store.getTable _ r with
      | none => exact id
      | some table => exact ReflGen.single (.enter hmem htable)

theorem moves_callImplEnterModule (f : WasmRef) : Moves env (callImplEnterModule f) :=
  .bind_stays .get fun _ => .ite (.stays (stays_callImpl _ _)) <|
    .bind (moves_enterModule _) fun _ => .stays (stays_callImpl _ _)

namespace Interpreter

theorem moves_return (n : ℕ) : Moves env (return_ n) := by
  refine .bind_stays .get fun e => .bind_stays (stays_readWord _) fun _ =>
    .bind_stays (stays_readWord _) fun _ => .bind_stays (.assert _) fun _ =>
      .bind_stays (.assert _) fun _ => .bind_stays (stays_spBelow _) fun _ =>
        .bind_stays (stays_copyWords _ _ _) fun _ => .bind_stays (.modify fun _ => rfl) fun _ => ?_
  refine .ite (.bind_stays .get fun _ => .bind (moves_enterModule _) fun _ => .stays ?_) (.stays ?_)
  all_goals
    exact .ite (.bind (.modify fun _ => rfl) fun _ => .bind (stays_readResult _) fun _ =>
      .bind (.modify fun _ => rfl) fun _ => .throw _) (.modify fun _ => rfl)

theorem moves_brImpl (offset : JumpOffset) (addr : LabelTarget) :
    Moves env (brImpl offset addr) := by
  refine .bind_stays (.unwrap _) fun arity => .ite (moves_return _) (.stays ?_)
  refine .bind (stays_dropSp _) fun _ => .bind .get fun _ => ?_
  cases arity with
  | none => exact .modify fun _ => rfl
  | i32 =>
      exact .bind (.assert _) fun _ => .bind (stays_readWord _) fun _ =>
        .bind (stays_writeWord _ _) fun _ => .bind (stays_raiseSp _) fun _ => .modify fun _ => rfl
  | i64 =>
      exact .bind (.assert _) fun _ => .bind (stays_readWord _) fun _ =>
        .bind (stays_readWord _) fun _ => .bind (stays_writeWord _ _) fun _ =>
          .bind (stays_writeWord _ _) fun _ => .bind (stays_raiseSp _) fun _ => .modify fun _ => rfl

theorem stays_if (addr : LabelTarget) : Stays (if_ addr : ExecM η Unit) :=
  .bind (stays_dropSp _) fun _ => .bind .get fun _ => .bind (stays_readWord _) fun _ =>
    .ite (.modify fun _ => rfl) (.pure _)

theorem moves_brIf (addr : LabelTarget) : Moves env (brIf addr) :=
  .bind_stays (stays_dropSp _) fun _ => .bind_stays .get fun _ =>
    .bind_stays (stays_readWord _) fun _ => .ite (moves_brImpl _ _) (.stays (.pure _))

theorem moves_brTable (env : ExecEnv η) (n : U32) (pc : JumpTarget) :
    Moves env (brTable env n pc) := by
  refine .bind_stays (stays_dropSp _) fun _ => .bind_stays .get fun _ =>
    .bind_stays (stays_readWord _) fun v => ?_
  cases IrReader.brTableCase env.code n v pc with
  | ok label pc =>
      exact .ite (.bind (moves_brImpl _ _) fun _ => .stays (.pure _))
        (.bind (moves_brImpl _ _) fun _ => .stays (.pure _))
  | error | panic | diverge => exact .stays .panic

theorem moves_callHostFn (env : ExecEnv η) (ref : HostRef) (args : List Value) :
    Moves env (callHostFn env ref args) := by
  refine .of_step fun e => ?_
  rintro _ rfl
  exact ReflGen.single (.host _)

theorem moves_callHost (env : ExecEnv η) (r : HostModuleRef) (x : U16) :
    Moves env (callHost env r x) := by
  refine .bind_stays .get fun _ => .bind_stays (.unwrap _) fun _ => .bind_stays (.unwrap _) fun f =>
    .bind_stays (stays_dropSp _) fun _ => .bind_stays .get fun _ =>
      .bind_stays (stays_readArgs _ _) fun _ => .bind (moves_callHostFn _ _ _) fun result =>
        .stays ?_
  cases result with
  | continue_ v =>
      cases v <;> cases f.returns <;> first
        | exact .pure _
        | exact .panic
        | exact .bind (.assert _) fun _ => stays_pushValue _
  | pause =>
      exact .get_bind fun _ => .bind (Stays.assert _ _) fun _ => .bind (keeps_set rfl) fun _ =>
        .throw _
  | trap => exact .throw _

theorem moves_callIndirect (env : ExecEnv η) (x : Idx) : Moves env (callIndirect env x) := by
  refine .bind_stays (stays_dropSp _) fun _ => .bind_stays .get fun e =>
    .bind_stays (stays_readWord _) fun i => .bind_stays (.unwrap _) fun _ =>
      .bind_stays (.unwrap _) fun _ => .bind_stays (.unwrap _) fun entries => ?_
  cases entries[i.toNat]? with
  | none => exact .stays (.throw _)
  | some entry =>
      cases entry with
      | func r x =>
          exact .bind_stays (.unwrap _) fun _ => .bind_stays (.unwrap _) fun _ =>
            .bind_stays (.unwrap _) fun _ => .ite (.stays (.throw _)) (moves_callImplEnterModule _)
      | host r x =>
          exact .bind_stays (.unwrap _) fun _ => .bind_stays (.unwrap _) fun _ =>
            .ite (.stays (.throw _)) (moves_callHost _ _ _)
      | uninitialized => exact .stays (.throw _)

theorem moves_setGlobal (r : ModuleRef) (x : U16) (v : RawValue) :
    Moves env (Fallible.modify fun e => { e with store := e.store.setGlobal r x v }) := by
  refine .of_step fun e => ?_
  rintro _ rfl
  exact ReflGen.single (.setGlobal r x v)

theorem moves_globalSet (r : ModuleRef) (x : U16) : Moves env (globalSet r x) := by
  refine .bind_stays (stays_ownGlobal _ _) fun g => .bind_stays (stays_dropSp _) fun _ =>
    .bind_stays .get fun _ => ?_
  cases g.type.ty with
  | i32 | f32 => exact .bind_stays (stays_readWord _) fun _ => moves_setGlobal _ _ _
  | i64 | f64 => exact .bind_stays (stays_readDouble _) fun _ => moves_setGlobal _ _ _

/-- The last part of a store: the bytes are written to the cached memory. -/
theorem moves_storeBytes (n addr v : ℕ) :
    Moves env (currentMemory >>= fun m => memoryResult (m.storeLe n addr v) >>= fun m' =>
      Fallible.modify fun e => { e with store := e.store.setMemory e.memory m' }) := by
  refine .of_step fun e => ?_
  rintro e' rfl
  unfold currentMemory
  rw [bind_assoc, bind_of_ok (get_apply e')]
  cases hm : e'.store.memories[e'.memory]? with
  | none => exact id
  | some m =>
      rw [unwrap_some, pure_bind]
      cases hstore : m.storeLe n addr v with
      | ok m' => exact ReflGen.single (.write hm hstore)
      | error err => cases err <;> first | exact Or.inl .refl | exact id

theorem moves_store (op : StoreOp) (m : MemArg) : Moves env (store op m) := by
  refine .bind_stays (stays_dropSp _) fun _ => .bind_stays .get fun _ => ?_
  cases op.operand with
  | i32 | f32 =>
      exact .bind_stays (.map _ (stays_readWord _)) fun _ => .bind_stays (stays_readWord _) fun _ =>
        .bind_stays (stays_memoryResult _) fun _ => moves_storeBytes _ _ _
  | i64 | f64 =>
      exact .bind_stays (.map _ (stays_readDouble _)) fun _ =>
        .bind_stays (stays_readWord _) fun _ => .bind_stays (stays_memoryResult _) fun _ =>
          moves_storeBytes _ _ _

/-- `memory.grow` without its accesses to the stack. -/
def growCurrent (env : ExecEnv η) (n : U32) : ExecM η U32 := do
  modify Engine.clearMemory
  let e ← get
  let mem ← unwrap (e.store.getMemoryMut e.module)
  let m ← unwrap e.store.memories[mem]?
  let result ←
    if m.isZero then pure 0xFFFFFFFF
    else if memoryHandles env e mem = 1 then growMemory env mem m n
    else throw (.trap .memoryRefNotUnique)
  modify fun e => { e with memory := mem }
  pure result

theorem memoryGrow_eq (env : ExecEnv η) :
    memoryGrow env = spBelow 1 >>= fun top => readWord top >>= fun n =>
      growCurrent env n >>= fun result => writeWord top result := by
  unfold memoryGrow growCurrent
  simp only [bind_assoc]
  refine congrArg _ (funext fun top => congrArg _ (funext fun n => congrArg _ (funext fun _ =>
    congrArg _ (funext fun e => congrArg _ (funext fun mem => congrArg _ (funext fun m => ?_))))))
  split
  · simp only [bind_assoc, pure_bind]
  · split <;> simp only [bind_assoc, pure_bind]

/-- `memory.grow` on a memory answers the old size and grows it, or -1. -/
theorem growMemory_cases (env : ExecEnv η) (mem : MemRef) (m : Memory) (n : U32) (e : Engine η) :
    ∃ allocated world,
      (∃ oldSize m', m.grow n allocated = .ok (oldSize, m') ∧ growMemory env mem m n e =
        .ok oldSize { e with world := world, store := e.store.setMemory mem m' }) ∨
      (∃ err, m.grow n allocated = .error err ∧
        growMemory env mem m n e = .ok 0xFFFFFFFF { e with world := world }) := by
  unfold growMemory
  rw [bind_of_ok (get_apply e)]
  split
  · next size _ =>
    cases env.host.reallocate e.world size with
    | mk allocated world =>
        refine ⟨allocated, world, ?_⟩
        dsimp only
        cases hgrow : m.grow n allocated with
        | ok r => exact .inl ⟨r.1, r.2, rfl, rfl⟩
        | error err => exact .inr ⟨err, rfl, rfl⟩
  · refine ⟨false, e.world, ?_⟩
    dsimp only
    cases hgrow : m.grow n false with
    | ok r => exact .inl ⟨r.1, r.2, rfl, rfl⟩
    | error err => exact .inr ⟨err, rfl, rfl⟩

theorem moves_growCurrent (env : ExecEnv η) (n : U32) : Moves env (growCurrent env n) := by
  refine .of_step fun e => ?_
  rintro e' rfl
  unfold growCurrent
  rw [bind_of_ok (modify_apply _ e'), bind_of_ok (get_apply _)]
  cases hmem : e'.clearMemory.store.getMemoryMut e'.clearMemory.module with
  | none => exact id
  | some mem =>
      rw [unwrap_some, pure_bind]
      cases hm : e'.clearMemory.store.memories[mem]? with
      | none => exact id
      | some m =>
          rw [unwrap_some, pure_bind]
          cases hzero : m.isZero with
          | true => exact ReflGen.single (.keep hmem)
          | false =>
              simp only [Bool.false_eq_true, if_false]
              by_cases hone : memoryHandles env e'.clearMemory mem = 1
              · rw [if_pos hone]
                obtain ⟨allocated, world, ⟨oldSize, m', hgrow, hrun⟩ | ⟨err, -, hrun⟩⟩ :=
                  growMemory_cases env mem m n e'.clearMemory
                · rw [bind_of_ok hrun]
                  exact ReflGen.single (.grow hmem hm hzero hgrow)
                · rw [bind_of_ok hrun]
                  exact ReflGen.single (.keep hmem)
              · rw [if_neg hone]
                exact Or.inr ⟨rfl, rfl, mem, m, hmem, hm, hzero, hone⟩

theorem moves_memoryGrow (env : ExecEnv η) : Moves env (memoryGrow env) := by
  rw [memoryGrow_eq]
  exact .bind_stays (stays_spBelow _) fun _ => .bind_stays (stays_readWord _) fun _ =>
    .bind (moves_growCurrent env _) fun _ => .stays (stays_writeWord _ _)

/-- Every instruction takes steps on the context. -/
theorem moves_exec (env : ExecEnv η) (i : IrInstr) (pc : JumpTarget) :
    Moves env (exec env i pc) := by
  have next : ∀ {x : ExecM η Unit}, Moves env x → Moves env (x >>= fun _ => pure pc) :=
    fun hx => hx.bind fun _ => .stays (.pure pc)
  have idle : ∀ {x : ExecM η Unit}, Stays x → Moves env (x >>= fun _ => pure pc) :=
    fun hx => next (.stays hx)
  cases i with
  | brTable n => exact moves_brTable env n pc
  | malformedIr | unreachable => exact .stays (.throw _)
  | if_ lt => exact idle (stays_if lt)
  | br lt => exact next (moves_brImpl _ _)
  | brIf lt => exact next (moves_brIf lt)
  | return_ size => exact next (moves_return _)
  | call x => exact idle (stays_callImpl _ _)
  | callHost m x => exact next (moves_callHost env m x)
  | callExtern m x => exact next (moves_callImplEnterModule _)
  | callIndirect x => exact next (moves_callIndirect env x)
  | drop ty => exact idle (stays_drop ty)
  | select ty => exact idle (stays_select ty)
  | localGet l => exact idle (stays_localGet l)
  | localSet l => exact idle (stays_localSet l)
  | localTee l => exact idle (stays_localTee l)
  | globalGet x => exact .bind_stays .get fun _ => idle (stays_globalGet _ _)
  | globalSet x => exact .bind_stays .get fun _ => next (moves_globalSet _ _)
  | globalGetHost m x => exact idle (stays_globalGetHost env m x)
  | globalSetHost m x => exact idle (stays_globalSetHost env m x)
  | globalGetExtern m x => exact idle (stays_globalGet _ _)
  | globalSetExtern m x => exact next (moves_globalSet _ _)
  | load op m => exact idle (stays_load op m)
  | store op m => exact next (moves_store op m)
  | memorySize => exact idle stays_memorySize
  | memoryGrow => exact next (moves_memoryGrow env)
  | i32Const n | i64Const n | f32Const n | f64Const n => exact idle (stays_pushValue _)
  | num op | sat op => exact idle (stays_numSem _)

end Interpreter

/-! ### Running -/

theorem context_afterInstr (e : Engine η) (next : JumpTarget) :
    (e.afterInstr next).context = e.context := by
  unfold Engine.afterInstr
  split <;> rfl

/-- What a round does to the context: a trap ends the program, and every other outcome
comes after steps. -/
theorem runRound_moves {env : ExecEnv η} {e e' : Engine η} {r : RoundResult}
    (h : runRound env e = some (r, e')) :
    e.context.Reaches e'.context ∨
      e'.pc = JumpTarget.sentinel ∧ ∃ b t, e.context.Breaks env b t ∧ e' = t.trapped := by
  unfold runRound at h
  split at h
  · cases h
    exact .inl .refl
  · split at h
    · next i pc _ =>
        have hmoves := Interpreter.moves_exec env i pc e.context e .refl
        cases hexec : Interpreter.exec env i pc e with
        | ok pc' t =>
            rw [hexec] at h hmoves
            cases h
            exact .inl ((context_afterInstr t pc').symm ▸ hmoves)
        | error b t =>
            rw [hexec] at h hmoves
            cases b with
            | finished =>
                cases h
                obtain hmoves | ⟨_, _, htrap, -⟩ := hmoves
                · exact .inl ((context_afterInstr t pc).symm ▸ hmoves)
                · cases htrap
            | pause =>
                cases h
                obtain hmoves | ⟨_, _, htrap, -⟩ := hmoves
                · exact .inl ((context_afterInstr t pc).symm ▸ hmoves)
                · cases htrap
            | trap reason =>
                cases h
                exact .inr ⟨rfl, _, t, hmoves, rfl⟩
        | panic | diverge => simp [hexec] at h
    · cases h

end Moves

end SpaceWasm
