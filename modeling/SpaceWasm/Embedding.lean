import SpaceWasm.Lib.Shadowing
import SpaceWasm.StoreEffects

/-!
# Execution in a larger store

Of a store, code sees the modules, a memory and a table. A larger store `t` may have more
modules, and other contents in the memories and tables that the code does not use. Then an
engine over `t` does what the same engine does over the smaller store, unless that one
panics because a module is missing.
-/

namespace SpaceWasm

open Fallible

variable {η α β : Type} {K : MemRef → Prop} {T : TableRef → Prop} {s t : Store}

/-! ### Stores -/

/-- The store `s` is a part of `t`, which may have more modules and differs from `s` in
memories outside of `K` and tables outside of `T`. -/
structure Store.Embeds (K : MemRef → Prop) (T : TableRef → Prop) (s t : Store) : Prop where
  modules : ∃ more, t.modules = s.modules ++ more ∧
    ∀ m ∈ more, ∀ mem, m.memory = some (.owned mem) → ¬K mem
  hostModules : t.hostModules = s.hostModules
  zeroMemory : t.zeroMemory = s.zeroMemory
  zeroTable : t.zeroTable = s.zeroTable
  memory : ∀ mem, K mem → t.memories[mem]? = s.memories[mem]?
  table : ∀ table, T table → t.tables[table]? = s.tables[table]?

/-- A host writes to memories only. -/
theorem Store.writeByte_eq (s : Store) (w : ByteWrite) :
    s.writeByte w = { s with memories := (s.writeByte w).memories } := by
  unfold Store.writeByte
  split <;> rfl

theorem Store.writeByte_ne (s : Store) {w : ByteWrite} {mem : MemRef} (h : w.mem ≠ mem) :
    (s.writeByte w).memories[mem]? = s.memories[mem]? := by
  unfold Store.writeByte
  split
  · rfl
  · exact List.getElem?_set_ne h

namespace Store.Embeds

section Lookups

variable (h : s.Embeds K T t)

include h

theorem module? {r : ModuleRef} {m : Module} (hm : s.module? r = some m) :
    t.module? r = some m := by
  obtain ⟨more, hmodules, -⟩ := h.modules
  rw [Store.module?, hmodules]
  exact (List.getElem?_append_left (List.getElem?_eq_some_iff.1 hm).1).trans hm

theorem hostModule? (r : HostModuleRef) : t.hostModule? r = s.hostModule? r := by
  rw [Store.hostModule?, Store.hostModule?, h.hostModules]

theorem func? {r : WasmRef} {f : Func} (hf : s.func? r = some f) : t.func? r = some f := by
  obtain ⟨m, hm, hf⟩ := Option.bind_eq_some_iff.1 hf
  exact Option.bind_eq_some_iff.2 ⟨m, h.module? hm, hf⟩

theorem ownedMemory? {r : ModuleRef} {mem : MemRef} (hmem : s.ownedMemory? r = some mem) :
    t.ownedMemory? r = some mem := by
  obtain ⟨m, hm, hmem⟩ := Option.bind_eq_some_iff.1 hmem
  exact Option.bind_eq_some_iff.2 ⟨m, h.module? hm, hmem⟩

theorem ownedTable? {r : ModuleRef} {x : TableRef × TableType} (hx : s.ownedTable? r = some x) :
    t.ownedTable? r = some x := by
  obtain ⟨m, hm, hx⟩ := Option.bind_eq_some_iff.1 hx
  exact Option.bind_eq_some_iff.2 ⟨m, h.module? hm, hx⟩

theorem hostMemory? (r : HostRef) : t.hostMemory? r = s.hostMemory? r := by
  rw [Store.hostMemory?, Store.hostMemory?, h.hostModule?]

theorem hostTable? (r : HostRef) : t.hostTable? r = s.hostTable? r := by
  rw [Store.hostTable?, Store.hostTable?, h.hostModule?]

/-- A module sees the same memory in the larger store. -/
theorem getMemory {r : ModuleRef} {mem : MemRef} (hmem : s.getMemory r = some mem) :
    t.getMemory r = some mem := by
  obtain ⟨m, hm, hmem⟩ := Option.bind_eq_some_iff.1 hmem
  refine Option.bind_eq_some_iff.2 ⟨m, h.module? hm, ?_⟩
  cases hkind : m.memory with
  | none =>
      rw [hkind] at hmem
      exact h.zeroMemory ▸ hmem
  | some kind =>
      rw [hkind] at hmem
      cases kind with
      | owned => exact hmem
      | import_ => exact h.ownedMemory? hmem
      | importHost ref => exact (h.hostMemory? ref).trans hmem

theorem getTable {r : ModuleRef} {table : TableRef} (htable : s.getTable r = some table) :
    t.getTable r = some table := by
  obtain ⟨m, hm, htable⟩ := Option.bind_eq_some_iff.1 htable
  refine Option.bind_eq_some_iff.2 ⟨m, h.module? hm, ?_⟩
  cases hkind : m.table with
  | none =>
      rw [hkind] at htable
      exact h.zeroTable ▸ htable
  | some kind =>
      rw [hkind] at htable
      cases kind with
      | owned => exact htable
      | import_ =>
          obtain ⟨x, hx, rfl⟩ := Option.map_eq_some_iff.1 htable
          exact Option.map_eq_some_iff.2 ⟨x, h.ownedTable? hx, rfl⟩
      | importHost ref =>
          rw [← htable]
          exact congrArg (Option.map HostTable.value) (h.hostTable? ref)

/-- A memory in `K` has no more handles in the larger store. -/
theorem memoryHandles {mem : MemRef} (hmem : K mem) :
    t.memoryHandles mem = s.memoryHandles mem := by
  obtain ⟨more, hmodules, hmore⟩ := h.modules
  have hnone : more.countP (fun m => m.memory = some (.owned mem)) = 0 :=
    List.countP_eq_zero.2 fun m hm heq => hmore m hm mem (of_decide_eq_true heq) hmem
  rw [Store.memoryHandles, Store.memoryHandles, h.zeroMemory, h.hostModules, hmodules,
    List.countP_append, hnone, Nat.add_zero]

/-! ### Changes on both sides -/

theorem withMemories {ms ms' : List Memory} (hms : ∀ mem, K mem → ms'[mem]? = ms[mem]?) :
    Embeds K T { s with memories := ms } { t with memories := ms' } :=
  ⟨h.modules, h.hostModules, h.zeroMemory, h.zeroTable, hms, h.table⟩

theorem setMemory (mem : MemRef) (m : Memory) :
    (s.setMemory mem m).Embeds K T (t.setMemory mem m) := by
  refine h.withMemories fun i hi => ?_
  have hmem := h.memory i hi
  rcases eq_or_ne mem i with rfl | hne
  · rw [List.getElem?_set_self', List.getElem?_set_self', hmem]
  · rw [List.getElem?_set_ne hne, List.getElem?_set_ne hne, hmem]

theorem writeByte (w : ByteWrite) : (s.writeByte w).Embeds K T (t.writeByte w) := by
  by_cases hw : K w.mem
  · rw [Store.writeByte, Store.writeByte, h.memory _ hw]
    split
    · exact h
    · exact h.setMemory _ _
  · rw [s.writeByte_eq, t.writeByte_eq]
    refine h.withMemories fun mem hmem => ?_
    have hne : w.mem ≠ mem := fun heq => hw (show K w.mem by rwa [heq])
    rw [s.writeByte_ne hne, t.writeByte_ne hne, h.memory mem hmem]

theorem writeBytes (ws : List ByteWrite) : (s.writeBytes ws).Embeds K T (t.writeBytes ws) := by
  induction ws generalizing s t with
  | nil => exact h
  | cons w ws ih => exact ih (h.writeByte w)

theorem setGlobal {r : ModuleRef} {m : Module} (hm : s.module? r = some m) (x : U16)
    (v : RawValue) : (s.setGlobal r x v).Embeds K T (t.setGlobal r x v) where
  modules := by
    obtain ⟨more, hmodules, hmore⟩ := h.modules
    refine ⟨more, ?_, hmore⟩
    have hlt : r.toNat < s.modules.length := (List.getElem?_eq_some_iff.1 hm).1
    simp only [Store.setGlobal, hmodules]
    apply List.ext_getElem?
    intro i
    simp only [List.getElem?_modify, List.getElem?_append, List.length_modify]
    by_cases hi : i < s.modules.length
    · simp only [if_pos hi]
    · have hne : r.toNat ≠ i := fun heq => hi (heq ▸ hlt)
      simp only [if_neg hi, if_neg hne]
      exact id_map _
  hostModules := h.hostModules
  zeroMemory := h.zeroMemory
  zeroTable := h.zeroTable
  memory := h.memory
  table := h.table

end Lookups

end Store.Embeds

/-! ### Engines -/

/-- The second engine is the first one over another store, which `Q` relates to the context
of the first one. -/
def Engine.Beside (Q : ModuleContext → Store → Prop) (e e' : Engine η) : Prop :=
  ∃ u, e' = { e with store := u } ∧ Q e.context u

/-- The larger store of an engine agrees with its own one in the memory and in the table that
the engine uses. -/
structure ModuleContext.Sees (K : MemRef → Prop) (T : TableRef → Prop) (c : ModuleContext)
    (t : Store) : Prop where
  embeds : c.store.Embeds K T t
  memory : K c.memory
  memoryMut : ∀ mem, c.store.getMemoryMut c.module = some mem → K mem
  table : T c.table

/-- The store of the second engine is larger. -/
abbrev Engine.Embeds (K : MemRef → Prop) (T : TableRef → Prop) : Engine η → Engine η → Prop :=
  Engine.Beside fun c t => c.store.Embeds K T t

abbrev Engine.Sees (K : MemRef → Prop) (T : TableRef → Prop) : Engine η → Engine η → Prop :=
  Engine.Beside fun c t => c.Sees K T t

variable {Q : ModuleContext → Store → Prop} {e e' : Engine η}

theorem Engine.Sees.embeds (h : e.Sees K T e') : e.Embeds K T e' := by
  obtain ⟨u, rfl, hu⟩ := h
  exact ⟨u, rfl, hu.embeds⟩

/-- The same change beside the context. -/
theorem shadowed_modify {ε : Type} {f g : Engine η → Engine η}
    (h : ∀ (e : Engine η) u, g { e with store := u } = { f e with store := u })
    (hcontext : ∀ e, (f e).context = e.context) :
    Shadowed (Engine.Beside Q) (modify f : Fallible ε (Engine η) Unit) (modify g)
      (Engine.Beside Q) (Engine.Beside Q) := by
  refine .modify ?_
  rintro e _ ⟨u, rfl, hu⟩
  exact ⟨u, h e u, (hcontext e).symm ▸ hu⟩

/-! ### Instructions that do not look at the store -/

/-- `x` does the same over any store, and leaves the context as it is. -/
def Blind (x : ExecM η α) : Prop := ∀ Q, Follows (Engine.Beside Q) x

namespace Blind

theorem pure (a : α) : Blind (Pure.pure a : ExecM η α) := fun _ => .pure a

theorem throw (b : InterpreterBreak) : Blind (Fallible.throw b : ExecM η α) := fun _ => .throw b

theorem panic : Blind (Fallible.panic : ExecM η α) := fun _ => .panic _

theorem bind {x : ExecM η α} {f : α → ExecM η β} (hx : Blind x) (hf : ∀ a, Blind (f a)) :
    Blind (x >>= f) := fun Q => .bind (hx Q) fun a => hf a Q

theorem map {x : ExecM η α} (f : α → β) (hx : Blind x) : Blind (f <$> x) := fun Q => .map (hx Q)

theorem ite {p : Prop} [Decidable p] {x y : ExecM η α} (hx : Blind x) (hy : Blind y) :
    Blind (if p then x else y) := fun Q => .ite (fun _ => hx Q) fun _ => hy Q

theorem assert (p : Prop) [Decidable p] : Blind (Fallible.assert p : ExecM η Unit) :=
  fun _ => .assert p

theorem modify {f : Engine η → Engine η}
    (hf : ∀ (e : Engine η) u, f { e with store := u } = { f e with store := u })
    (hcontext : ∀ e, (f e).context = e.context) : Blind (Fallible.modify f : ExecM η Unit) :=
  fun _ => shadowed_modify hf hcontext

/-- A computation that looks at the engine, but not at its store. -/
theorem get_bind {f : Engine η → ExecM η α} (hf : ∀ (e : Engine η) u, f { e with store := u } = f e)
    (h : ∀ e, Blind (f e)) : Blind (Fallible.get >>= f) := by
  refine fun Q => .get_bind ?_
  rintro e _ ⟨u, rfl, -⟩
  have hfollows : Shadowed (Engine.Beside Q) (f e) (f e) (Engine.Beside Q) (Engine.Beside Q) :=
    h e Q
  rwa [hf e u]

/-- When it breaks off, less may be said of the engines. -/
theorem within {Q' : ModuleContext → Store → Prop} {x : ExecM η α} (hx : Blind x)
    (h : ∀ c t, Q c t → Q' c t) :
    Shadowed (Engine.Beside Q) x x (Engine.Beside Q) (Engine.Beside Q') := by
  refine Shadowed.weaken (hx Q) (fun _ _ h => h) (fun _ _ h => h) ?_
  rintro e _ ⟨u, rfl, hu⟩
  exact ⟨u, rfl, h _ _ hu⟩

end Blind

theorem blind_spBelow (n : ℕ) : Blind (spBelow n : ExecM η ℕ) :=
  .get_bind (fun _ _ => rfl) fun _ => .bind (.assert _) fun _ => .pure _

theorem blind_dropSp (n : ℕ) : Blind (dropSp n : ExecM η Unit) :=
  .bind (blind_spBelow n) fun _ => .modify (fun _ _ => rfl) fun _ => rfl

theorem blind_raiseSp (n : ℕ) : Blind (raiseSp n : ExecM η Unit) :=
  .modify (fun _ _ => rfl) fun _ => rfl

theorem blind_readWord (addr : ℕ) : Blind (readWord addr : ExecM η U32) := by
  refine fun Q => .get_bind ?_
  rintro e _ ⟨u, rfl, hu⟩
  exact .unwrap_bind (fun _ h => h) fun w _ =>
    .bind (M := Engine.Beside Q) (.set ⟨u, rfl, hu⟩) fun _ => Follows.pure w

theorem blind_writeWord (addr : ℕ) (w : U32) : Blind (writeWord addr w : ExecM η Unit) := by
  refine fun Q => .get_bind ?_
  rintro e _ ⟨u, rfl, hu⟩
  exact .bind (Follows.assert _) fun _ => .set ⟨u, rfl, hu⟩

theorem blind_readDouble (addr : ℕ) : Blind (readDouble addr : ExecM η U64) :=
  .bind (blind_readWord _) fun _ => .bind (blind_readWord _) fun _ => .pure _

theorem blind_writeDouble (addr : ℕ) (w : U64) : Blind (writeDouble addr w : ExecM η Unit) :=
  .bind (blind_writeWord _ _) fun _ => blind_writeWord _ _

theorem blind_pushValue (v : Value) : Blind (pushValue v : ExecM η Unit) := by
  cases v with
  | i32 w | f32 w =>
      exact .get_bind (fun _ _ => rfl) fun _ => .bind (blind_writeWord _ _) fun _ => blind_raiseSp _
  | i64 w | f64 w =>
      exact .get_bind (fun _ _ => rfl) fun _ => .bind (blind_writeDouble _ _) fun _ =>
        blind_raiseSp _

theorem blind_readValue (ty : ValType) (addr : ℕ) : Blind (readValue ty addr : ExecM η Value) := by
  cases ty with
  | i32 | f32 => exact .map _ (blind_readWord _)
  | i64 | f64 => exact .map _ (blind_readDouble _)

theorem blind_numResult (r : NumResult α) : Blind (numResult r : ExecM η α) := by
  cases r with
  | ok a => exact .pure a
  | error reason => exact .throw _

theorem blind_numSem (sem : NumSem) : Blind (sem.exec : ExecM η Unit) := by
  cases sem with
  | unary32 f =>
      exact .bind (blind_spBelow _) fun _ => .bind (blind_readWord _) fun _ =>
        .bind (blind_numResult _) fun _ => blind_writeWord _ _
  | unary64 f =>
      exact .bind (blind_spBelow _) fun _ => .bind (blind_readDouble _) fun _ =>
        .bind (blind_numResult _) fun _ => blind_writeDouble _ _
  | binary32 f =>
      exact .bind (blind_dropSp _) fun _ => .get_bind (fun _ _ => rfl) fun _ =>
        .bind (blind_readWord _) fun _ => .bind (blind_spBelow _) fun _ =>
          .bind (blind_readWord _) fun _ => .bind (blind_numResult _) fun _ => blind_writeWord _ _
  | binary64 f =>
      exact .bind (blind_dropSp _) fun _ => .get_bind (fun _ _ => rfl) fun _ =>
        .bind (blind_readDouble _) fun _ => .bind (blind_spBelow _) fun _ =>
          .bind (blind_readDouble _) fun _ => .bind (blind_numResult _) fun _ =>
            blind_writeDouble _ _
  | compare64 f =>
      exact .bind (blind_dropSp _) fun _ => .get_bind (fun _ _ => rfl) fun _ =>
        .bind (blind_readDouble _) fun _ => .bind (blind_spBelow _) fun _ =>
          .bind (blind_readDouble _) fun _ => .bind (blind_numResult _) fun _ =>
            blind_writeWord _ _
  | narrow f =>
      exact .bind (blind_dropSp _) fun _ => .bind (blind_spBelow _) fun _ =>
        .bind (blind_readDouble _) fun _ => .bind (blind_numResult _) fun _ => blind_writeWord _ _
  | wrap f =>
      exact .bind (blind_spBelow _) fun _ => .bind (blind_readDouble _) fun _ =>
        .bind (blind_numResult _) fun _ => .bind (blind_writeWord _ _) fun _ => blind_dropSp _
  | widen f =>
      exact .bind (blind_spBelow _) fun _ => .bind (blind_readWord _) fun _ =>
        .bind (blind_numResult _) fun _ => .bind (blind_writeDouble _ _) fun _ => blind_raiseSp _

theorem blind_zeroLocals (n addr : ℕ) : Blind (zeroLocals n addr : ExecM η Unit) := by
  induction n generalizing addr with
  | zero => exact .pure ()
  | succ n ih => exact .bind (blind_writeWord _ _) fun _ => ih _

namespace Interpreter

theorem blind_copyWords (n src dst : ℕ) : Blind (copyWords n src dst : ExecM η Unit) := by
  induction n generalizing src dst with
  | zero => exact .pure ()
  | succ n ih => exact .bind (blind_readWord _) fun _ => .bind (blind_writeWord _ _) fun _ => ih _ _

theorem blind_readResult (n : ℕ) : Blind (readResult n : ExecM η RawValue) := by
  refine .get_bind (fun _ _ => rfl) fun _ => ?_
  match n with
  | 0 => exact .pure _
  | 1 => exact .map _ (blind_readWord _)
  | 2 => exact .map _ (blind_readDouble _)
  | _ + 3 => exact .panic

theorem blind_if (addr : LabelTarget) : Blind (if_ addr : ExecM η Unit) :=
  .bind (blind_dropSp _) fun _ => .get_bind (fun _ _ => rfl) fun _ => .bind (blind_readWord _)
    fun _ => .ite (.modify (fun _ _ => rfl) fun _ => rfl) (.pure _)

theorem blind_select (ty : ValType) : Blind (select ty : ExecM η Unit) := by
  refine .bind (blind_dropSp _) fun _ => .get_bind (fun _ _ => rfl) fun _ =>
    .bind (blind_readWord _) fun _ => ?_
  cases ty with
  | i32 | f32 =>
      exact .ite (.bind (blind_spBelow _) fun _ => .bind (blind_readWord _) fun _ =>
        .bind (blind_spBelow _) fun _ => .bind (blind_writeWord _ _) fun _ => blind_dropSp _)
          (blind_dropSp _)
  | i64 | f64 =>
      exact .ite (.bind (blind_spBelow _) fun _ => .bind (blind_readDouble _) fun _ =>
        .bind (blind_spBelow _) fun _ => .bind (blind_writeDouble _ _) fun _ => blind_dropSp _)
          (blind_dropSp _)

theorem blind_readArgs (tys : List ValType) (addr : ℕ) :
    Blind (readArgs tys addr : ExecM η (List Value)) := by
  induction tys generalizing addr with
  | nil => exact .pure _
  | cons ty tys ih => exact .bind (blind_readValue _ _) fun _ => .bind (ih _) fun _ => .pure _

theorem blind_localGet (l : LocalVariable) : Blind (localGet l : ExecM η Unit) := by
  refine .get_bind (fun _ _ => rfl) fun _ => ?_
  cases l.ty with
  | i32 | f32 =>
      exact .bind (blind_readWord _) fun _ => .bind (blind_writeWord _ _) fun _ => blind_raiseSp _
  | i64 | f64 =>
      exact .bind (blind_readDouble _) fun _ => .bind (blind_writeDouble _ _) fun _ =>
        blind_raiseSp _

theorem blind_localSet (l : LocalVariable) : Blind (localSet l : ExecM η Unit) := by
  refine .bind (blind_dropSp _) fun _ => .get_bind (fun _ _ => rfl) fun _ => ?_
  cases l.ty with
  | i32 | f32 => exact .bind (blind_readWord _) fun _ => blind_writeWord _ _
  | i64 | f64 => exact .bind (blind_readDouble _) fun _ => blind_writeDouble _ _

theorem blind_localTee (l : LocalVariable) : Blind (localTee l : ExecM η Unit) := by
  refine .get_bind (fun _ _ => rfl) fun _ => .bind (blind_spBelow _) fun _ => ?_
  cases l.ty with
  | i32 | f32 => exact .bind (blind_readWord _) fun _ => blind_writeWord _ _
  | i64 | f64 => exact .bind (blind_readDouble _) fun _ => blind_writeDouble _ _

theorem blind_memoryResult (r : Except MemoryError α) : Blind (memoryResult r : ExecM η α) := by
  cases r with
  | ok a => exact .pure a
  | error e => cases e <;> first | exact .throw _ | exact .panic

end Interpreter

/-! ### Control -/

section Control

theorem follows_callImpl (delta : U8) (x : U16) :
    Follows (Engine.Embeds K T) (callImpl delta x : ExecM η Unit) := by
  refine .get_bind ?_
  rintro e _ ⟨u, rfl, hu⟩
  have hu : e.store.Embeds K T u := hu
  refine .unwrap_bind (fun f hf => hu.func? hf) fun f _ =>
    .ite (fun _ => Follows.throw _) fun _ => ?_
  exact .bind (blind_spBelow _ _) fun _ => .bind (blind_writeWord _ _ _) fun _ =>
    .bind (blind_writeWord _ _ _) fun _ =>
      .bind (shadowed_modify (fun _ _ => rfl) fun _ => rfl) fun _ =>
        .bind (blind_zeroLocals _ _ _) fun _ => shadowed_modify (fun _ _ => rfl) fun _ => rfl

theorem follows_enterModule (r : ModuleRef) :
    Follows (Engine.Embeds K T) (enterModule r : ExecM η Unit) := by
  refine .get_bind ?_
  rintro e _ ⟨u, rfl, hu⟩
  have hu : e.store.Embeds K T u := hu
  exact .unwrap_bind (fun _ h => hu.getMemory h) fun _ _ =>
    .unwrap_bind (fun _ h => hu.getTable h) fun _ _ => .set ⟨u, rfl, hu⟩

theorem follows_callImplEnterModule (f : WasmRef) :
    Follows (Engine.Embeds K T) (callImplEnterModule f : ExecM η Unit) := by
  refine .get_bind ?_
  rintro e _ ⟨u, rfl, hu⟩
  exact .ite (fun _ => follows_callImpl _ _) fun _ =>
    .bind (follows_enterModule _) fun _ => follows_callImpl _ _

namespace Interpreter

theorem follows_return (n : ℕ) : Follows (Engine.Embeds K T) (return_ n : ExecM η Unit) := by
  have hend : ∀ (pc : JumpTarget) (start : ℕ), Blind (if pc = JumpTarget.sentinel then do
      Fallible.modify fun e : Engine η =>
        { e with sp := start, pc := JumpTarget.sentinel, jumped := true }
      let v ← readResult n
      Fallible.modify fun e => { e with result := some v }
      Fallible.throw .finished
    else
      Fallible.modify fun e => { e with sp := start + n, pc := pc + 2, jumped := true }) :=
    fun _ _ => .ite (.bind (.modify (fun _ _ => rfl) fun _ => rfl) fun _ =>
      .bind (blind_readResult _) fun _ => .bind (.modify (fun _ _ => rfl) fun _ => rfl) fun _ =>
        .throw _) (.modify (fun _ _ => rfl) fun _ => rfl)
  refine .get_bind ?_
  rintro e _ ⟨u, rfl, hu⟩
  refine .bind (blind_readWord _ _) fun _ => .bind (blind_readWord _ _) fun _ =>
    .bind (Follows.assert _) fun _ => .bind (Follows.assert _) fun _ =>
      .bind (blind_spBelow _ _) fun _ => .bind (blind_copyWords _ _ _ _) fun _ =>
        .bind (shadowed_modify (fun _ _ => rfl) fun _ => rfl) fun _ => ?_
  refine .ite (fun _ => .get_bind ?_) fun _ => hend _ _ _
  rintro e _ ⟨u, rfl, hu⟩
  exact .bind (follows_enterModule _) fun _ => hend _ _ _

theorem follows_brImpl (offset : JumpOffset) (addr : LabelTarget) :
    Follows (Engine.Embeds K T) (brImpl offset addr : ExecM η Unit) := by
  refine .unwrap_bind (fun _ h => h) fun arity _ => .ite (fun _ => follows_return _) fun _ => ?_
  refine .bind (blind_dropSp _ _) fun _ => ?_
  refine Blind.get_bind (fun _ _ => rfl) (fun e => ?_) _
  cases arity with
  | none => exact .modify (fun _ _ => rfl) fun _ => rfl
  | i32 =>
      exact .bind (.assert _) fun _ => .bind (blind_readWord _) fun _ =>
        .bind (blind_writeWord _ _) fun _ => .bind (blind_raiseSp _) fun _ =>
          .modify (fun _ _ => rfl) fun _ => rfl
  | i64 =>
      exact .bind (.assert _) fun _ => .bind (blind_readWord _) fun _ =>
        .bind (blind_readWord _) fun _ => .bind (blind_writeWord _ _) fun _ =>
          .bind (blind_writeWord _ _) fun _ => .bind (blind_raiseSp _) fun _ =>
            .modify (fun _ _ => rfl) fun _ => rfl

theorem follows_brIf (addr : LabelTarget) :
    Follows (Engine.Embeds K T) (brIf addr : ExecM η Unit) := by
  refine .bind (blind_dropSp _ _) fun _ => .get_bind ?_
  rintro e _ ⟨u, rfl, -⟩
  exact .bind (blind_readWord _ _) fun _ =>
    .ite (fun _ => follows_brImpl _ _) fun _ => Follows.pure _

theorem shadowed_brTable {env env' : ExecEnv η} {n : U32} {pc : JumpTarget}
    (hcase : ∀ v, IrReader.brTableCase env'.code n v pc = IrReader.brTableCase env.code n v pc) :
    Shadowed (Engine.Embeds K T) (brTable env n pc) (brTable env' n pc) (Engine.Embeds K T)
      (Engine.Embeds K T) := by
  refine .bind (blind_dropSp _ _) fun _ => .get_bind ?_
  rintro e _ ⟨u, rfl, -⟩
  refine .bind (blind_readWord _ _) fun v => ?_
  rw [hcase]
  cases IrReader.brTableCase env.code n v pc with
  | ok label pc =>
      exact .ite (fun _ => .bind (follows_brImpl _ _) fun _ => Follows.pure _) fun _ =>
        .bind (follows_brImpl _ _) fun _ => Follows.pure _
  | error | panic | diverge => exact .panic _

end Interpreter

end Control

/-! ### Host calls and globals -/

/-- What a host function does depends on no memories but those in `K`. -/
def HostEnv.LooksWithin (host : HostEnv η) (K : MemRef → Prop) : Prop :=
  ∀ world ref args memories memories', (∀ mem : MemRef, K mem → memories'[mem]? = memories[mem]?) →
    host.call world ref args memories' = host.call world ref args memories

namespace Interpreter

section Calls

variable {env : ExecEnv η} (hhost : env.host.LooksWithin K)

include hhost

theorem follows_callHostFn (ref : HostRef) (args : List Value) :
    Follows (Engine.Embeds K T) (callHostFn env ref args) := by
  have hrun : ∀ e : Engine η, callHostFn env ref args e =
      .ok (env.host.call e.world ref args e.store.memories).1
        { e with
          world := (env.host.call e.world ref args e.store.memories).2.1
          store := e.store.writeBytes (env.host.call e.world ref args e.store.memories).2.2 } :=
    fun _ => rfl
  rintro e _ ⟨u, rfl, hu⟩
  have hu : e.store.Embeds K T u := hu
  rw [hrun, hrun, hhost e.world ref args e.store.memories u.memories hu.memory]
  exact .ok ⟨_, rfl, hu.writeBytes _⟩

theorem follows_callHost (r : HostModuleRef) (x : U16) :
    Follows (Engine.Embeds K T) (callHost env r x) := by
  refine .get_bind ?_
  rintro e _ ⟨u, rfl, hu⟩
  have hu : e.store.Embeds K T u := hu
  refine .unwrap_bind (fun _ h => (hu.hostModule? r).trans h) fun hm _ =>
    .unwrap_bind (fun _ h => h) fun f _ => .bind (blind_dropSp _ _) fun _ => .get_bind ?_
  rintro e _ ⟨u, rfl, -⟩
  refine .bind (blind_readArgs _ _ _) fun args =>
    .bind (follows_callHostFn hhost _ _) fun result => ?_
  cases result with
  | continue_ v =>
      cases v <;> cases f.returns <;> first
        | exact Follows.pure _
        | exact .panic _
        | exact .bind (Follows.assert _) fun _ => blind_pushValue _ _
  | pause =>
      refine .get_bind ?_
      rintro e _ ⟨u, rfl, hu⟩
      exact .bind (Follows.assert _) fun _ =>
        .bind (M := Engine.Embeds K T) (.set ⟨u, rfl, hu⟩) fun _ => Follows.throw _
  | trap => exact Follows.throw _

/-- A call through the table, of an entry that is the same in the larger store. -/
theorem shadowed_callIndirect (x : Idx) :
    Shadowed (Engine.Sees K T) (callIndirect env x) (callIndirect env x) (Engine.Embeds K T)
      (Engine.Embeds K T) := by
  refine .bind ((blind_dropSp _).within fun _ _ h => h.embeds) fun _ => .get_bind ?_
  rintro e _ ⟨u, rfl, hu⟩
  have hu : e.context.Sees K T u := hu
  refine .bind ((blind_readWord _).within fun _ _ h => h.embeds) fun i =>
    .unwrap_bind (fun _ h => hu.embeds.module? h) fun m _ => .unwrap_bind (fun _ h => h) fun ty _ =>
      .unwrap_bind (fun _ h => (hu.embeds.table _ hu.table).trans h) fun entries _ => ?_
  refine Shadowed.weaken (P := Engine.Embeds K T) (Q := Engine.Embeds K T) (E := Engine.Embeds K T)
    ?_ (fun _ _ => Engine.Sees.embeds) (fun _ _ h => h) fun _ _ h => h
  cases entries[i.toNat]? with
  | none => exact Follows.throw _
  | some entry =>
      cases entry with
      | func r y =>
          exact .unwrap_bind (fun _ h => hu.embeds.module? h) fun fm _ =>
            .unwrap_bind (fun _ h => h) fun f _ => .unwrap_bind (fun _ h => h) fun fty _ =>
              .ite (fun _ => Follows.throw _) fun _ => follows_callImplEnterModule _
      | host r y =>
          exact .unwrap_bind (fun _ h => (hu.embeds.hostModule? r).trans h) fun hm _ =>
            .unwrap_bind (fun _ h => h) fun f _ => .ite (fun _ => Follows.throw _) fun _ =>
              follows_callHost hhost r y
      | uninitialized => exact Follows.throw _

end Calls

theorem follows_ownGlobal (r : ModuleRef) (x : U16) :
    Follows (Engine.Embeds K T) (ownGlobal r x : ExecM η Global) := by
  refine .get_bind ?_
  rintro e _ ⟨u, rfl, hu⟩
  have hu : e.store.Embeds K T u := hu
  exact .unwrap_bind (fun _ h => hu.module? h) fun _ _ => Follows.unwrap _

theorem follows_globalGet (r : ModuleRef) (x : U16) :
    Follows (Engine.Embeds K T) (globalGet r x : ExecM η Unit) :=
  .bind (follows_ownGlobal r x) fun _ => blind_pushValue _ _

theorem follows_hostGlobal (r : HostModuleRef) (x : U16) :
    Follows (Engine.Embeds K T) (hostGlobal r x : ExecM η HostGlobal) := by
  refine .get_bind ?_
  rintro e _ ⟨u, rfl, hu⟩
  have hu : e.store.Embeds K T u := hu
  exact .unwrap_bind (fun _ h => (hu.hostModule? r).trans h) fun _ _ => Follows.unwrap _

theorem follows_globalGetHost (env : ExecEnv η) (r : HostModuleRef) (x : U16) :
    Follows (Engine.Embeds K T) (globalGetHost env r x) := by
  refine .bind (follows_hostGlobal r x) fun _ => .get_bind ?_
  rintro e _ ⟨u, rfl, -⟩
  exact .bind (Follows.okOr _ _) fun _ => blind_pushValue _ _

theorem follows_globalSetHost (env : ExecEnv η) (r : HostModuleRef) (x : U16) :
    Follows (Engine.Embeds K T) (globalSetHost env r x) := by
  refine .bind (follows_hostGlobal r x) fun _ => .bind (blind_dropSp _ _) fun _ => .get_bind ?_
  rintro e _ ⟨u, rfl, -⟩
  refine .bind (blind_readValue _ _ _) fun _ => .get_bind ?_
  rintro e _ ⟨u, rfl, hu⟩
  exact .bind (Follows.okOr _ _) fun _ => .set ⟨u, rfl, hu⟩

/-- A global of a module that the smaller store has. -/
theorem follows_globalSet (r : ModuleRef) (x : U16) :
    Follows (Engine.Embeds K T) (globalSet r x : ExecM η Unit) := by
  let Q : ModuleContext → Store → Prop := fun c t =>
    c.store.Embeds K T t ∧ ∃ m, c.store.module? r = some m
  have hown : Shadowed (Engine.Embeds K T) (ownGlobal r x) (ownGlobal r x)
      (Engine.Beside Q) (Engine.Embeds K T (η := η)) := by
    rintro e _ ⟨u, rfl, hu⟩
    have hu : e.store.Embeds K T u := hu
    unfold ownGlobal
    rw [bind_of_ok (get_apply _), bind_of_ok (get_apply _)]
    cases hm : e.store.module? r with
    | none => exact .panic _
    | some m =>
        rw [hu.module? hm, unwrap_some, pure_bind]
        cases m.globals[x.toNat]? with
        | none => exact .panic _
        | some g => exact .ok ⟨u, rfl, hu, m, hm⟩
  have hset : ∀ v, Shadowed (Engine.Beside Q)
      (modify fun e : Engine η => { e with store := e.store.setGlobal r x v } : ExecM η Unit)
      (modify fun e : Engine η => { e with store := e.store.setGlobal r x v })
      (Engine.Embeds K T) (Engine.Embeds K T) := by
    refine fun v => .modify ?_
    rintro e _ ⟨u, rfl, hu, m, hm⟩
    exact ⟨_, rfl, hu.setGlobal hm x v⟩
  refine .bind hown fun g => .bind ((blind_dropSp _).within fun _ _ h => h.1) fun _ => .get_bind ?_
  rintro e _ ⟨u, rfl, -⟩
  cases g.type.ty with
  | i32 | f32 =>
      exact .bind ((blind_readWord _).within fun _ _ h => h.1) fun _ => hset _
  | i64 | f64 =>
      exact .bind ((blind_readDouble _).within fun _ _ h => h.1) fun _ => hset _

end Interpreter

/-! ### Memories -/

namespace Interpreter

theorem follows_currentMemory : Follows (Engine.Sees K T) (currentMemory : ExecM η Memory) := by
  refine .get_bind ?_
  rintro e _ ⟨u, rfl, hu⟩
  have hu : e.context.Sees K T u := hu
  dsimp only
  rw [show u.memories[e.memory]? = e.store.memories[e.memory]? from hu.embeds.memory _ hu.memory]
  exact Follows.unwrap _

theorem follows_load (op : LoadOp) (m : MemArg) :
    Follows (Engine.Sees K T) (load op m : ExecM η Unit) := by
  refine .bind (blind_spBelow _ _) fun _ => .bind (blind_readWord _ _) fun _ =>
    .bind (blind_memoryResult _ _) fun _ => .bind follows_currentMemory fun _ =>
      .bind (blind_memoryResult _ _) fun _ => ?_
  cases op.result with
  | i32 | f32 => exact blind_writeWord _ _ _
  | i64 | f64 => exact .bind (blind_writeDouble _ _ _) fun _ => blind_raiseSp _ _

theorem follows_store (op : StoreOp) (m : MemArg) :
    Follows (Engine.Sees K T) (store op m : ExecM η Unit) := by
  have hset : ∀ memory, Follows (Engine.Sees K T) (modify fun e : Engine η =>
      { e with store := e.store.setMemory e.memory memory } : ExecM η Unit) := by
    refine fun memory => .modify ?_
    rintro e _ ⟨u, rfl, hembeds, hmemory, hmut, htable⟩
    exact ⟨_, rfl, hembeds.setMemory _ _, hmemory, hmut, htable⟩
  have hwrite : ∀ base val, Follows (Engine.Sees K T) (do
      let addr ← memoryResult (Memory.effectiveAddress base m.offset)
      let memory ← currentMemory
      let memory' ← memoryResult (memory.storeLe op.bytes addr val)
      modify fun e : Engine η => { e with store := e.store.setMemory e.memory memory' }) :=
    fun _ _ => .bind (blind_memoryResult _ _) fun _ => .bind follows_currentMemory fun _ =>
      .bind (blind_memoryResult _ _) fun _ => hset _
  refine .bind (blind_dropSp _ _) fun _ => .get_bind ?_
  rintro e _ ⟨u, rfl, -⟩
  cases op.operand with
  | i32 | f32 =>
      exact .bind (.map (blind_readWord _ _)) fun _ =>
        .bind (blind_readWord _ _) fun _ => hwrite _ _
  | i64 | f64 =>
      exact .bind (.map (blind_readDouble _ _)) fun _ => .bind (blind_readWord _ _) fun _ =>
        hwrite _ _

theorem follows_memorySize : Follows (Engine.Sees K T) (memorySize : ExecM η Unit) := by
  refine .bind follows_currentMemory fun _ => .get_bind ?_
  rintro e _ ⟨u, rfl, -⟩
  exact .bind (blind_writeWord _ _ _) fun _ => blind_raiseSp _ _

theorem follows_growMemory (env : ExecEnv η) (mem : MemRef) (m : Memory) (n : U32) :
    Follows (Engine.Embeds K T) (growMemory env mem m n) := by
  refine .get_bind ?_
  rintro e _ ⟨u, rfl, hu⟩
  refine .bind (M := Engine.Embeds K T) (.set ⟨u, rfl, hu⟩) fun _ => ?_
  generalize m.grow n _ = grown
  cases grown with
  | error err => exact Follows.pure _
  | ok p =>
      refine .bind (M := Engine.Embeds K T) (.modify ?_) fun _ => Follows.pure _
      rintro e _ ⟨u, rfl, hu⟩
      exact ⟨_, rfl, hu.setMemory mem p.2⟩

theorem shadowed_growCurrent (env : ExecEnv η) (n : U32) :
    Shadowed (Engine.Sees K T) (growCurrent env n) (growCurrent env n) (Engine.Embeds K T)
      (Engine.Embeds K T) := by
  let Q : ModuleContext → Store → Prop := fun c t =>
    c.store.Embeds K T t ∧ ∀ mem, c.store.getMemoryMut c.module = some mem → K mem
  have hclear : Shadowed (Engine.Sees K T) (modify Engine.clearMemory : ExecM η Unit)
      (modify Engine.clearMemory) (Engine.Beside Q) (Engine.Embeds K T) := by
    refine .modify ?_
    rintro e _ ⟨u, rfl, hu⟩
    refine ⟨u, ?_, hu.embeds, hu.memoryMut⟩
    have hzero : u.zeroMemory = e.store.zeroMemory := hu.embeds.zeroMemory
    simp only [Engine.clearMemory, hzero]
  refine .bind hclear fun _ => .get_bind ?_
  rintro e _ ⟨u, rfl, hu, hmut⟩
  have hu : e.store.Embeds K T u := hu
  refine .unwrap_bind (fun mem h => ?_) fun mem hmem => ?_
  · rw [Store.getMemoryMut_eq] at h ⊢
    exact hu.getMemory h
  · have hK : K mem := hmut mem hmem
    have hhandles : memoryHandles env { e with store := u } mem = memoryHandles env e mem := by
      unfold memoryHandles
      rw [show ({ e with store := u } : Engine η).store = u from rfl, hu.memoryHandles hK]
    refine .unwrap_bind (fun _ h => (hu.memory mem hK).trans h) fun m _ => ?_
    have hkeep : ∀ {x : ExecM η U32}, Follows (Engine.Embeds K T) x →
        Follows (Engine.Embeds K T) (x >>= fun result =>
          (modify fun e : Engine η => { e with memory := mem }) >>= fun _ => pure result) := by
      refine fun hx => .bind hx fun result =>
        .bind (M := Engine.Embeds K T) (.modify ?_) fun _ => Follows.pure result
      rintro e _ ⟨u, rfl, hu⟩
      exact ⟨u, rfl, hu⟩
    simp only [hhandles]
    refine Shadowed.weaken (P := Engine.Embeds K T) (Q := Engine.Embeds K T)
      (E := Engine.Embeds K T) ?_ ?_ (fun _ _ h => h) fun _ _ h => h
    · exact .ite (fun _ => hkeep (Follows.pure _)) fun _ =>
        .ite (fun _ => hkeep (follows_growMemory env mem m n)) fun _ => hkeep (Follows.throw _)
    · rintro e _ ⟨u, rfl, hu, -⟩
      exact ⟨u, rfl, hu⟩

end Interpreter

namespace Interpreter

/-- An instruction does the same in a larger store, in which code is the same. -/
theorem shadowed_exec {env : ExecEnv η} {pages : List TextPage} (hhost : env.host.LooksWithin K)
    (i : IrInstr) (pc : JumpTarget)
    (hcase : ∀ n, i = .brTable n → ∀ v,
      IrReader.brTableCase pages n v pc = IrReader.brTableCase env.code n v pc) :
    Shadowed (Engine.Sees K T) (exec env i pc) (exec { env with code := pages } i pc)
      (Engine.Embeds K T) (Engine.Embeds K T) := by
  have weak : ∀ {x : ExecM η Unit}, Follows (Engine.Embeds K T) x →
      Shadowed (Engine.Sees K T) (x >>= fun _ => pure pc) (x >>= fun _ => pure pc)
        (Engine.Embeds K T) (Engine.Embeds K T) := fun hx =>
    .bind (hx.weaken (fun _ _ => Engine.Sees.embeds) (fun _ _ h => h) fun _ _ h => h) fun _ =>
      Follows.pure pc
  have strong : ∀ {x : ExecM η Unit}, Follows (Engine.Sees K T) x →
      Shadowed (Engine.Sees K T) (x >>= fun _ => pure pc) (x >>= fun _ => pure pc)
        (Engine.Embeds K T) (Engine.Embeds K T) := fun hx =>
    .bind (hx.weaken (fun _ _ h => h) (fun _ _ => Engine.Sees.embeds) fun _ _ =>
      Engine.Sees.embeds) fun _ => Follows.pure pc
  have stop : ∀ b, Shadowed (Engine.Sees K T) (Fallible.throw b : ExecM η JumpTarget)
      (Fallible.throw b) (Engine.Embeds K T) (Engine.Embeds K T) := fun b =>
    .throw fun _ _ => Engine.Sees.embeds
  cases i with
  | brTable n =>
      exact (shadowed_brTable (hcase n rfl)).weaken (fun _ _ => Engine.Sees.embeds)
        (fun _ _ h => h) fun _ _ h => h
  | malformedIr | unreachable => exact stop _
  | if_ lt => exact weak (blind_if lt _)
  | br lt => exact weak (follows_brImpl _ _)
  | brIf lt => exact weak (follows_brIf lt)
  | return_ size => exact weak (follows_return _)
  | call x => exact weak (follows_callImpl _ _)
  | callHost r x => exact weak (follows_callHost hhost r x)
  | callExtern r x => exact weak (follows_callImplEnterModule ⟨r, x⟩)
  | callIndirect x => exact .bind (shadowed_callIndirect hhost x) fun _ => Follows.pure pc
  | drop ty => exact weak (blind_dropSp _ _)
  | select ty => exact weak (blind_select ty _)
  | localGet l => exact weak (blind_localGet l _)
  | localSet l => exact weak (blind_localSet l _)
  | localTee l => exact weak (blind_localTee l _)
  | globalGet x =>
      refine .get_bind ?_
      rintro e _ ⟨u, rfl, -⟩
      exact weak (follows_globalGet _ _)
  | globalSet x =>
      refine .get_bind ?_
      rintro e _ ⟨u, rfl, -⟩
      exact weak (follows_globalSet _ _)
  | globalGetHost m x => exact weak (follows_globalGetHost env m x)
  | globalSetHost m x => exact weak (follows_globalSetHost env m x)
  | globalGetExtern m x => exact weak (follows_globalGet _ _)
  | globalSetExtern r x => exact weak (follows_globalSet _ _)
  | load op m => exact strong (follows_load op m)
  | store op m => exact strong (follows_store op m)
  | memorySize => exact strong follows_memorySize
  | memoryGrow =>
      have hgrow : Shadowed (Engine.Sees K T) (memoryGrow env) (memoryGrow env) (Engine.Embeds K T)
          (Engine.Embeds K T) := by
        rw [memoryGrow_eq]
        exact .bind ((blind_spBelow _).within fun _ _ h => h.embeds) fun _ =>
          .bind ((blind_readWord _).within fun _ _ h => h.embeds) fun _ =>
            .bind (shadowed_growCurrent env _) fun _ => blind_writeWord _ _ _
      exact .bind hgrow fun _ => Follows.pure pc
  | i32Const n | i64Const n | f32Const n | f64Const n => exact weak (blind_pushValue _ _)
  | num op | sat op => exact weak (blind_numSem _ _)

end Interpreter

/-! ### Rounds and entry points -/

variable {env : ExecEnv η} {pages : List TextPage}

theorem Engine.Embeds.afterInstr (h : e.Embeds K T e') (next : JumpTarget) :
    (e.afterInstr next).Embeds K T (e'.afterInstr next) := by
  obtain ⟨u, rfl, hu⟩ := h
  rw [Engine.afterInstr, Engine.afterInstr]
  split
  · exact ⟨u, rfl, hu⟩
  · exact ⟨u, rfl, hu⟩

theorem Engine.Embeds.trapped (h : e.Embeds K T e') : e.trapped.Embeds K T e'.trapped := by
  obtain ⟨u, rfl, hu⟩ := h
  exact ⟨u, rfl, hu⟩

/-- A round that is defined does the same in a larger store. -/
theorem runRound_embeds (hhost : env.host.LooksWithin K) (h : e.Sees K T e')
    (hdecode : IrReader.decode pages e.pc = IrReader.decode env.code e.pc)
    (hcase : ∀ n pc, IrReader.decode env.code e.pc = .ok (.brTable n) pc → ∀ v,
      IrReader.brTableCase pages n v pc = IrReader.brTableCase env.code n v pc)
    {r : RoundResult} {t : Engine η} (hround : runRound env e = some (r, t)) :
    ∃ t', runRound { env with code := pages } e' = some (r, t') ∧ t.Embeds K T t' := by
  have hpc : e'.pc = e.pc := by
    obtain ⟨u, rfl, -⟩ := h
    rfl
  unfold runRound at hround ⊢
  rw [hpc]
  split at hround
  · next hidle =>
    cases hround
    exact ⟨e', if_pos hidle, h.embeds⟩
  · next hrunning =>
    rw [if_neg hrunning, hdecode]
    cases hi : IrReader.decode env.code e.pc with
    | ok i pc =>
        rw [hi] at hround
        dsimp only at hround ⊢
        have hexec := Interpreter.shadowed_exec hhost i pc (fun n hn => hcase n pc (hn ▸ hi)) e e' h
        generalize Interpreter.exec env i pc e = o at hexec hround
        generalize Interpreter.exec { env with code := pages } i pc e' = o' at hexec
        cases hexec with
        | ok ht =>
            cases hround
            exact ⟨_, rfl, ht.afterInstr _⟩
        | @error b _ _ ht =>
            cases b with
            | finished | pause =>
                cases hround
                exact ⟨_, rfl, ht.afterInstr _⟩
            | trap reason =>
                cases hround
                exact ⟨_, rfl, ht.trapped⟩
        | panic | diverge => cases hround
    | error | panic | diverge =>
        rw [hi] at hround
        cases hround

section EntryPoints

variable {ε : Type}

theorem shadowed_stepping {P R E E' : Engine η → Engine η → Prop} {x y : ExecM η α}
    (h : Shadowed P x y R E) : Shadowed P (stepping x : EntryM η ε α) (stepping y) R E' := by
  intro e e' he
  have hxy := h e e' he
  unfold stepping
  generalize x e = o at hxy
  generalize y e' = o' at hxy
  cases hxy with
  | ok h => exact .ok h
  | error | panic | diverge => exact .panic _

theorem follows_pushParams (tys : List ValType) (vs : List Value) :
    Follows (Engine.Beside Q) (pushParams tys vs : EntryM η InvokeError Unit) := by
  induction tys generalizing vs with
  | nil => exact Follows.pure ()
  | cons ty tys ih =>
      cases vs with
      | nil => exact Follows.pure ()
      | cons v vs =>
          exact .ite (fun _ => .bind (shadowed_stepping (blind_pushValue v Q)) fun _ => ih vs)
            fun _ => .bind (shadowed_modify (fun _ _ => rfl) fun _ => rfl) fun _ => Follows.throw _

/-- A call that does not panic does the same in a larger store. -/
theorem follows_invoke (f : WasmRef) (params : List Value) :
    Follows (Engine.Embeds K T) (invoke f params : EntryM η InvokeError Unit) := by
  refine .get_bind ?_
  rintro e _ ⟨u, rfl, hu⟩
  have hu : e.store.Embeds K T u := hu
  refine .ite (fun _ => Follows.throw _) fun _ => .unwrap_bind (fun _ h => hu.module? h) fun m _ =>
    .unwrap_bind (fun _ h => h) fun func _ => .unwrap_bind (fun _ h => h) fun ty _ =>
      .ite (fun _ => Follows.throw _) fun _ => .ite (fun _ => Follows.throw _) fun _ => ?_
  exact .bind (follows_pushParams _ _) fun _ =>
    .bind (shadowed_stepping (follows_enterModule _)) fun _ =>
      .bind (shadowed_stepping (follows_callImpl _ _)) fun _ =>
        shadowed_modify (fun _ _ => rfl) fun _ => rfl

theorem follows_resume (v : Option Value) :
    Follows (Engine.Beside Q) (resume v : EntryM η ResumeError Unit) := by
  refine .get_bind ?_
  rintro e _ ⟨u, rfl, -⟩
  dsimp only
  cases e.hostPauseResult with
  | none => exact Follows.throw _
  | some ty =>
      refine .ite (fun _ => .bind (shadowed_modify (fun _ _ => rfl) fun _ => rfl) fun _ => ?_)
        fun _ => Follows.throw _
      cases v with
      | none => exact Follows.pure _
      | some v => exact shadowed_stepping (blind_pushValue v Q)

end EntryPoints

theorem Engine.Embeds.reset (h : e.Embeds K T e') : e.reset.Embeds K T e'.reset := by
  obtain ⟨u, rfl, hu⟩ := h
  have hu : e.store.Embeds K T u := hu
  refine ⟨u, ?_, hu⟩
  simp only [Engine.reset, Engine.clearMemory, Engine.clearTable, hu.zeroMemory, hu.zeroTable]

end SpaceWasm
