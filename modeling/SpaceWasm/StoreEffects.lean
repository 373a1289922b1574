import SpaceWasm.Session

/-!
# What an instruction does to the store

`IrInstr.Does` says, for each instruction, what it makes of the store. Only six of them
change it: two that set a global, two for the memory and two that may call a host function.
-/

namespace SpaceWasm

open Fallible

variable {η α β : Type}

/-- The global `x` of the module `q`. -/
def Store.global? (s : Store) (q : ModuleRef) (x : U16) : Option Global :=
  (s.module? q).bind fun m => m.globals[x.toNat]?

/-- What an instruction makes of the store of a context, whether it ends well or breaks off. -/
inductive IrInstr.Does (env : ExecEnv η) (c : ModuleContext) : IrInstr → Store → Prop where
  | nothing {i : IrInstr} : Does env c i c.store
  | globalSet {x : U16} {g : Global} {v : Value} : c.store.global? c.module x = some g →
      v.type = g.type.ty →
      Does env c (.globalSet x) (c.store.setGlobal c.module x (RawValue.ofValue v))
  | globalSetExtern {r : ModuleRef} {x : U16} {g : Global} {v : Value} :
      c.store.global? r x = some g → v.type = g.type.ty →
      Does env c (.globalSetExtern r x) (c.store.setGlobal r x (RawValue.ofValue v))
  | store (op : StoreOp) (arg : MemArg) (m : Memory) :
      Does env c (.store op arg) (c.store.setMemory c.memory m)
  | memoryGrow {mem : MemRef} (m : Memory) : c.store.getMemoryMut c.module = some mem →
      Does env c .memoryGrow (c.store.setMemory mem m)
  | callHost {i : IrInstr} (world : η) (ref : HostRef) (args : List Value) :
      i = .callHost ref.module ref.index ∨ (∃ x, i = .callIndirect x) →
      Does env c i (c.store.writeBytes (env.host.call world ref args c.store.memories).2.2)

/-! ### Computations -/

/-- `P` holds of the store after `x`, however it ends. -/
def Yields (c : ModuleContext) (P : Store → Prop) (x : ExecM η α) : Prop :=
  Guarded False (fun e => e.context = c) x (fun _ e => P e.store) fun _ e => P e.store

namespace Yields

variable {c : ModuleContext} {P Q : Store → Prop}

theorem stays {x : ExecM η α} (hx : Stays x) (hP : P c.store) : Yields c P x := by
  refine Guarded.weaken (hx c) id (fun _ h => h) (fun _ e h => ?_) fun _ e h => ?_
  all_goals
    rw [← h] at hP
    exact hP

theorem mono {x : ExecM η α} (hx : Yields c P x) (h : ∀ s, P s → Q s) : Yields c Q x :=
  Guarded.weaken hx id (fun _ h => h) (fun _ _ => h _) fun _ _ => h _

theorem bind_stays {x : ExecM η α} {f : α → ExecM η β} (hx : Stays x) (hP : P c.store)
    (hf : ∀ a, Yields c P (f a)) : Yields c P (x >>= f) := by
  refine Guarded.bind (M := fun _ (e : Engine η) => e.context = c) (Guarded.weaken (hx c) id
    (fun _ h => h) (fun _ _ h => h) fun _ e h => ?_) hf
  rw [← h] at hP
  exact hP

theorem get_bind {f : Engine η → ExecM η α} (h : ∀ e, e.context = c → Yields c P (f e)) :
    Yields c P (get >>= f) :=
  Guarded.get_bind fun e he => Guarded.weaken (h e he) id (fun _ ht => ht ▸ he) (fun _ _ h => h)
    fun _ _ h => h

/-- What comes after the effect leaves the context alone. -/
theorem bind {x : ExecM η α} {f : α → ExecM η β} (hx : Yields c P x) (hf : ∀ a, Stays (f a)) :
    Yields c P (x >>= f) :=
  Guarded.bind hx fun a => Stays.keeps (hf a) fun c => P c.store

theorem ite {p : Prop} [Decidable p] {x y : ExecM η α} (hx : Yields c P x) (hy : Yields c P y) :
    Yields c P (if p then x else y) := Guarded.ite (fun _ => hx) fun _ => hy

end Yields

section Primitives

variable {env : ExecEnv η} {c : ModuleContext}

theorem yields_enterModule (r : ModuleRef) :
    Yields c (· = c.store) (enterModule r : ExecM η Unit) := by
  rintro e rfl
  unfold enterModule
  rw [bind_of_ok (get_apply e)]
  cases e.store.getMemory r with
  | none => exact id
  | some mem =>
      rw [unwrap_some, pure_bind]
      cases e.store.getTable r with
      | none => exact id
      | some table => exact rfl

theorem yields_callImplEnterModule (f : WasmRef) :
    Yields c (· = c.store) (callImplEnterModule f : ExecM η Unit) :=
  .bind_stays .get rfl fun _ => .ite (.stays (stays_callImpl _ _) rfl) <|
    .bind (yields_enterModule _) fun _ => stays_callImpl _ _

namespace Interpreter

theorem yields_return (n : ℕ) : Yields c (· = c.store) (return_ n : ExecM η Unit) := by
  refine .bind_stays .get rfl fun e => .bind_stays (stays_readWord _) rfl fun _ =>
    .bind_stays (stays_readWord _) rfl fun _ => .bind_stays (.assert _) rfl fun _ =>
      .bind_stays (.assert _) rfl fun _ => .bind_stays (stays_spBelow _) rfl fun _ =>
        .bind_stays (stays_copyWords _ _ _) rfl fun _ =>
          .bind_stays (.modify fun _ => rfl) rfl fun _ => ?_
  refine .ite (.bind_stays .get rfl fun _ => .bind (yields_enterModule _) fun _ => ?_)
    (.stays ?_ rfl)
  all_goals
    exact .ite (.bind (.modify fun _ => rfl) fun _ => .bind (stays_readResult _) fun _ =>
      .bind (.modify fun _ => rfl) fun _ => .throw _) (.modify fun _ => rfl)

theorem yields_brImpl (offset : JumpOffset) (addr : LabelTarget) :
    Yields c (· = c.store) (brImpl offset addr : ExecM η Unit) := by
  refine .bind_stays (.unwrap _) rfl fun arity => .ite (yields_return _) (.stays ?_ rfl)
  refine .bind (stays_dropSp _) fun _ => .bind .get fun _ => ?_
  cases arity with
  | none => exact .modify fun _ => rfl
  | i32 =>
      exact .bind (.assert _) fun _ => .bind (stays_readWord _) fun _ =>
        .bind (stays_writeWord _ _) fun _ => .bind (stays_raiseSp _) fun _ => .modify fun _ => rfl
  | i64 =>
      exact .bind (.assert _) fun _ => .bind (stays_readWord _) fun _ =>
        .bind (stays_readWord _) fun _ => .bind (stays_writeWord _ _) fun _ =>
          .bind (stays_writeWord _ _) fun _ => .bind (stays_raiseSp _) fun _ => .modify fun _ => rfl

theorem yields_brIf (addr : LabelTarget) :
    Yields c (· = c.store) (brIf addr : ExecM η Unit) :=
  .bind_stays (stays_dropSp _) rfl fun _ => .bind_stays .get rfl fun _ =>
    .bind_stays (stays_readWord _) rfl fun _ => .ite (yields_brImpl _ _) (.stays (.pure _) rfl)

theorem yields_brTable (env : ExecEnv η) (n : U32) (pc : JumpTarget) :
    Yields c (· = c.store) (brTable env n pc) := by
  refine .bind_stays (stays_dropSp _) rfl fun _ => .bind_stays .get rfl fun _ =>
    .bind_stays (stays_readWord _) rfl fun v => ?_
  cases IrReader.brTableCase env.code n v pc with
  | ok label pc =>
      exact .ite (.bind (yields_brImpl _ _) fun _ => .pure _)
        (.bind (yields_brImpl _ _) fun _ => .pure _)
  | error | panic | diverge => exact .stays .panic rfl

/-- A host function that has been called has written bytes. -/
theorem yields_callHost {P : Store → Prop} (env : ExecEnv η) (r : HostModuleRef) (x : U16)
    (hP : P c.store) (hcall : ∀ world args,
      P (c.store.writeBytes (env.host.call world ⟨r, x⟩ args c.store.memories).2.2)) :
    Yields c P (callHost env r x) := by
  have hfn : ∀ args, Yields c P (callHostFn env ⟨r, x⟩ args) := by
    rintro args e rfl
    exact hcall e.world args
  refine .bind_stays .get hP fun _ => .bind_stays (.unwrap _) hP fun _ =>
    .bind_stays (.unwrap _) hP fun f => .bind_stays (stays_dropSp _) hP fun _ =>
      .bind_stays .get hP fun _ => .bind_stays (stays_readArgs _ _) hP fun args =>
        .bind (hfn args) fun result => ?_
  cases result with
  | continue_ v =>
      cases v <;> cases f.returns <;> first
        | exact .pure _
        | exact .panic
        | exact .bind (.assert _) fun _ => stays_pushValue _
  | pause =>
      exact .get_bind fun _ => .bind (Stays.assert _ _) fun _ => .bind (keeps_set rfl) fun _ =>
        .throw _
  | trap => exact .throw _

theorem yields_callIndirect (env : ExecEnv η) (x : Idx) :
    Yields c (IrInstr.Does env c (.callIndirect x)) (callIndirect env x) := by
  refine .bind_stays (stays_dropSp _) .nothing fun _ => .bind_stays .get .nothing fun e =>
    .bind_stays (stays_readWord _) .nothing fun i => .bind_stays (.unwrap _) .nothing fun _ =>
      .bind_stays (.unwrap _) .nothing fun _ => .bind_stays (.unwrap _) .nothing fun entries => ?_
  cases entries[i.toNat]? with
  | none => exact .stays (.throw _) .nothing
  | some entry =>
      cases entry with
      | func r y =>
          exact .bind_stays (.unwrap _) .nothing fun _ => .bind_stays (.unwrap _) .nothing fun _ =>
            .bind_stays (.unwrap _) .nothing fun _ => .ite (.stays (.throw _) .nothing)
              ((yields_callImplEnterModule ⟨r, y⟩).mono fun _ hs => hs ▸ .nothing)
      | host r y =>
          exact .bind_stays (.unwrap _) .nothing fun _ => .bind_stays (.unwrap _) .nothing fun _ =>
            .ite (.stays (.throw _) .nothing) (yields_callHost env r y .nothing fun world args =>
              .callHost world ⟨r, y⟩ args (.inr ⟨x, rfl⟩))
      | uninitialized => exact .stays (.throw _) .nothing

/-- A global is set to a value of its type. -/
theorem yields_globalSet {P : Store → Prop} (r : ModuleRef) (x : U16) (hP : P c.store)
    (hset : ∀ {g v}, c.store.global? r x = some g → v.type = g.type.ty →
      P (c.store.setGlobal r x (RawValue.ofValue v))) :
    Yields c P (globalSet r x : ExecM η Unit) := by
  have hmodify : ∀ {g v}, c.store.global? r x = some g → v.type = g.type.ty → Yields c P
      (Fallible.modify fun e : Engine η =>
        { e with store := e.store.setGlobal r x (RawValue.ofValue v) }) := by
    rintro g v hg hv e rfl
    exact hset hg hv
  unfold globalSet ownGlobal
  rw [bind_assoc]
  refine .get_bind fun e he => ?_
  rw [← show e.store = c.store from (congrArg ModuleContext.store he :)] at hset hmodify
  cases hm : e.store.module? r with
  | none => exact .stays .panic hP
  | some m =>
      rw [unwrap_some, pure_bind]
      cases hg : m.globals[x.toNat]? with
      | none => exact .stays .panic hP
      | some g =>
          have hglobal : e.store.global? r x = some g := by
            rw [Store.global?, hm]
            exact hg
          rw [unwrap_some, pure_bind]
          refine .bind_stays (stays_dropSp _) hP fun _ => .bind_stays .get hP fun _ => ?_
          cases hty : g.type.ty with
          | i32 => exact .bind_stays (stays_readWord _) hP fun w =>
              hmodify (v := .i32 w) hglobal hty.symm
          | f32 => exact .bind_stays (stays_readWord _) hP fun w =>
              hmodify (v := .f32 w) hglobal hty.symm
          | i64 => exact .bind_stays (stays_readDouble _) hP fun w =>
              hmodify (v := .i64 w) hglobal hty.symm
          | f64 => exact .bind_stays (stays_readDouble _) hP fun w =>
              hmodify (v := .f64 w) hglobal hty.symm

theorem yields_store (env : ExecEnv η) (op : StoreOp) (arg : MemArg) :
    Yields c (IrInstr.Does env c (.store op arg)) (store op arg : ExecM η Unit) := by
  have hbytes : ∀ n addr v, Yields c (IrInstr.Does env c (.store op arg))
      (currentMemory >>= fun m => memoryResult (m.storeLe n addr v) >>= fun m' =>
        Fallible.modify fun e : Engine η => { e with store := e.store.setMemory e.memory m' }) := by
    refine fun n addr v => .bind_stays stays_currentMemory .nothing fun m =>
      .bind_stays (stays_memoryResult _) .nothing fun m' => ?_
    rintro e rfl
    exact .store op arg m'
  refine .bind_stays (stays_dropSp _) .nothing fun _ => .bind_stays .get .nothing fun _ => ?_
  cases op.operand with
  | i32 | f32 =>
      exact .bind_stays (.map _ (stays_readWord _)) .nothing fun _ =>
        .bind_stays (stays_readWord _) .nothing fun _ =>
          .bind_stays (stays_memoryResult _) .nothing fun _ => hbytes _ _ _
  | i64 | f64 =>
      exact .bind_stays (.map _ (stays_readDouble _)) .nothing fun _ =>
        .bind_stays (stays_readWord _) .nothing fun _ =>
          .bind_stays (stays_memoryResult _) .nothing fun _ => hbytes _ _ _

theorem yields_growCurrent (env : ExecEnv η) (n : U32) :
    Yields c (IrInstr.Does env c .memoryGrow) (growCurrent env n) := by
  rintro e rfl
  unfold growCurrent
  rw [bind_of_ok (modify_apply _ e), bind_of_ok (get_apply _)]
  cases hmem : e.clearMemory.store.getMemoryMut e.clearMemory.module with
  | none => exact id
  | some mem =>
      rw [unwrap_some, pure_bind]
      cases e.clearMemory.store.memories[mem]? with
      | none => exact id
      | some m =>
          rw [unwrap_some, pure_bind]
          cases m.isZero with
          | true => exact IrInstr.Does.nothing
          | false =>
              simp only [Bool.false_eq_true, if_false]
              by_cases hone : memoryHandles env e.clearMemory mem = 1
              · rw [if_pos hone]
                obtain ⟨allocated, world, ⟨oldSize, m', -, hrun⟩ | ⟨err, -, hrun⟩⟩ :=
                  growMemory_cases env mem m n e.clearMemory
                · rw [bind_of_ok hrun]
                  exact IrInstr.Does.memoryGrow m' hmem
                · rw [bind_of_ok hrun]
                  exact IrInstr.Does.nothing
              · rw [if_neg hone]
                exact IrInstr.Does.nothing

/-- Every instruction does to the store what it may do. -/
theorem yields_exec (env : ExecEnv η) (i : IrInstr) (pc : JumpTarget) :
    Yields c (i.Does env c) (exec env i pc) := by
  have next : ∀ {x : ExecM η Unit}, Yields c (i.Does env c) x →
      Yields c (i.Does env c) (x >>= fun _ => pure pc) := fun hx => hx.bind fun _ => .pure pc
  have idle : ∀ {x : ExecM η Unit}, Stays x → Yields c (i.Does env c) (x >>= fun _ => pure pc) :=
    fun hx => next (.stays hx .nothing)
  have keeps : ∀ {x : ExecM η Unit}, Yields c (· = c.store) x →
      Yields c (i.Does env c) (x >>= fun _ => pure pc) := fun hx =>
    next (hx.mono fun _ hs => hs ▸ .nothing)
  cases i with
  | brTable n => exact (yields_brTable env n pc).mono fun _ hs => hs ▸ .nothing
  | malformedIr | unreachable => exact .stays (.throw _) .nothing
  | if_ lt => exact idle (stays_if lt)
  | br lt => exact keeps (yields_brImpl _ _)
  | brIf lt => exact keeps (yields_brIf lt)
  | return_ size => exact keeps (yields_return _)
  | call x => exact idle (stays_callImpl _ _)
  | callHost r x =>
      exact next (yields_callHost env r x .nothing fun world args =>
        .callHost world ⟨r, x⟩ args (.inl rfl))
  | callExtern r x => exact keeps (yields_callImplEnterModule ⟨r, x⟩)
  | callIndirect x => exact next (yields_callIndirect env x)
  | drop ty => exact idle (stays_drop ty)
  | select ty => exact idle (stays_select ty)
  | localGet l => exact idle (stays_localGet l)
  | localSet l => exact idle (stays_localSet l)
  | localTee l => exact idle (stays_localTee l)
  | globalGet x => exact .bind_stays .get .nothing fun _ => idle (stays_globalGet _ _)
  | globalSet x =>
      refine .get_bind fun e he => next (yields_globalSet e.module x .nothing fun hg hv => ?_)
      obtain rfl := he
      exact .globalSet hg hv
  | globalGetHost m x => exact idle (stays_globalGetHost env m x)
  | globalSetHost m x => exact idle (stays_globalSetHost env m x)
  | globalGetExtern m x => exact idle (stays_globalGet _ _)
  | globalSetExtern r x =>
      exact next (yields_globalSet r x .nothing fun hg hv => .globalSetExtern hg hv)
  | load op m => exact idle (stays_load op m)
  | store op m => exact next (yields_store env op m)
  | memorySize => exact idle stays_memorySize
  | memoryGrow =>
      rw [exec, memoryGrow_eq]
      exact next (.bind_stays (stays_spBelow _) .nothing fun _ =>
        .bind_stays (stays_readWord _) .nothing fun _ =>
          .bind (yields_growCurrent env _) fun _ => stays_writeWord _ _)
  | i32Const n | i64Const n | f32Const n | f64Const n => exact idle (stays_pushValue _)
  | num op | sat op => exact idle (stays_numSem _)

end Interpreter

theorem store_afterInstr (e : Engine η) (next : JumpTarget) : (e.afterInstr next).store = e.store :=
  congrArg ModuleContext.store (context_afterInstr e next)

/-- A round of an engine that is not idle executes an instruction. -/
theorem runRound_does {e e' : Engine η} {r : RoundResult} (hpc : e.pc ≠ JumpTarget.sentinel)
    (h : runRound env e = some (r, e')) :
    ∃ i pc, IrReader.decode env.code e.pc = .ok i pc ∧ i.Does env e.context e'.store := by
  unfold runRound at h
  rw [if_neg hpc] at h
  split at h
  · next i pc hdecode =>
    refine ⟨i, pc, hdecode, ?_⟩
    have hdoes := Interpreter.yields_exec (c := e.context) env i pc e rfl
    cases hexec : Interpreter.exec env i pc e with
    | ok pc' t =>
        rw [hexec] at h hdoes
        cases h
        rwa [store_afterInstr]
    | error b t =>
        rw [hexec] at h hdoes
        cases b with
        | finished | pause =>
            cases h
            rwa [store_afterInstr]
        | trap reason =>
            cases h
            exact hdoes
    | panic | diverge => simp [hexec] at h
  · cases h

end Primitives

end SpaceWasm
