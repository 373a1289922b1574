import SpaceWasm.Execution
import SpaceWasm.History
import SpaceWasm.Progress
import SpaceWasm.StackAccess

/-!
# Sessions

A session is an engine with the code of the modules that its store holds. Modules are
loaded when it is idle; functions are invoked, run for some fuel, resumed and reset in
any order, and between the calls the embedder may change its own world, the bytes of
memories and the globals of modules. What holds of every session is proved step by step:
the store is linked, no two owners share a memory, no memory is smaller than its
initial pages, and a running engine caches the memory and the table of its module.
-/

namespace SpaceWasm

open Fallible Relation

structure Session (η : Type) where
  engine : Engine η
  code : CodeBuilder

variable {η : Type}

namespace Session

/-- What a load works on. -/
def target (s : Session η) : LoadTarget := ⟨s.engine.store, s.code⟩

def withTarget (s : Session η) (t : LoadTarget) : Session η :=
  ⟨{ s.engine with store := t.store }, t.code⟩

def withEngine (s : Session η) (e : Engine η) : Session η := { s with engine := e }

/-- What the interpreter runs on. -/
def env (s : Session η) (floats : FloatOps) (host : HostEnv η) : ExecEnv η :=
  ⟨s.code.pages, floats, host⟩

end Session

/-- A call of the embedder. -/
inductive SessionStep (floats : FloatOps) (host : HostEnv η) (s : Session η) :
    Session η → Prop where
  | loaded (env : LoadEnv) (name : Name) (wasm : Reader) {r : ModuleRef} {t : LoadTarget} :
      s.engine.isIdle → loadModule env name wasm s.target = .ok r t →
      SessionStep floats host s (s.withTarget t)
  | loadFailed (env : LoadEnv) (name : Name) (wasm : Reader) {err : LoadError} {t : LoadTarget} :
      s.engine.isIdle → loadModule env name wasm s.target = .error err t →
      SessionStep floats host s (s.withTarget t)
  | invoked (f : WasmRef) (params : List Value) {e : Engine η} :
      invoke f params s.engine = .ok () e → SessionStep floats host s (s.withEngine e)
  | invokeRejected (f : WasmRef) (params : List Value) {err : InvokeError} {e : Engine η} :
      invoke f params s.engine = .error err e → SessionStep floats host s (s.withEngine e)
  | ran (fuel : ℕ) {r : InterpreterResult} {e : Engine η} :
      run (s.env floats host) fuel s.engine = some (r, e) →
      SessionStep floats host s (s.withEngine e)
  | resumed (v : Option Value) {e : Engine η} :
      resume v s.engine = .ok () e → SessionStep floats host s (s.withEngine e)
  | resumeRejected (v : Option Value) {err : ResumeError} {e : Engine η} :
      resume v s.engine = .error err e → SessionStep floats host s (s.withEngine e)
  | reset : SessionStep floats host s (s.withEngine s.engine.reset)
  /-- What the embedder does between calls. -/
  | outside (world : η) (writes : List ByteWrite) :
      SessionStep floats host s
        (s.withEngine { s.engine with world := world, store := s.engine.store.writeBytes writes })
  | setGlobal (r : ModuleRef) (x : U16) (v : RawValue) :
      SessionStep floats host s
        (s.withEngine { s.engine with store := s.engine.store.setGlobal r x v })

/-- The sessions of an embedder that starts with some host modules. -/
def Session.Reachable (setup : HostSetup) (floats : FloatOps) (host : HostEnv η) (s : Session η) :
    Prop :=
  ∃ store code stackSize world, setup.store = .ok store ∧
    ReflTransGen (SessionStep floats host) ⟨Engine.new stackSize store world, code⟩ s

/-! ### The entry points -/

section EntryPoints

variable {α ε : Type}

theorem stepping_guarded {x : ExecM η α} {P : Engine η → Prop} {Q : α → Engine η → Prop}
    {E : InterpreterBreak → Engine η → Prop} {E' : ε → Engine η → Prop}
    (h : Guarded False P x Q E) :
    Guarded False P (stepping x : EntryM η ε α) Q E' := by
  intro e he
  have hx := h e he
  unfold stepping
  cases hr : x e with
  | ok a t =>
      rw [hr] at hx
      exact hx
  | error | panic => exact id
  | diverge =>
      rw [hr] at hx
      exact id

theorem pushValue_beside (v : Value) (b : Engine η) :
    Preserves False (fun e => e.besideStack = b) (pushValue v : ExecM η Unit) := by
  have hword : ∀ addr w, Preserves False (fun e => e.besideStack = b)
      (writeWord addr w : ExecM η Unit) := fun addr w =>
    Guarded.get_bind fun e he => .bind (M := fun _ t => t = e)
      (.ite (fun _ => .pure fun _ h => h) fun _ _ _ => id) fun _ _ _ => he
  have hraise : ∀ n, Preserves False (fun e => e.besideStack = b) (raiseSp n : ExecM η Unit) :=
    fun n _ he => he
  refine .bind .get fun e => ?_
  cases v with
  | i32 w | f32 w => exact .bind (hword _ _) fun _ => hraise _
  | i64 w | f64 w => exact .bind (.bind (hword _ _) fun _ => hword _ _) fun _ => hraise _

/-- Writing the arguments changes the stack alone; a wrong type empties it. -/
theorem pushParams_beside (tys : List ValType) (vs : List Value) (b : Engine η) :
    Guarded False (fun e => e.besideStack = b) (pushParams tys vs : EntryM η InvokeError Unit)
      (fun _ e => e.besideStack = b) fun _ e => e.besideStack = b ∧ e.sp = 0 := by
  induction tys generalizing vs with
  | nil => exact .pure fun _ h => h
  | cons ty tys ih =>
      cases vs with
      | nil => exact .pure fun _ h => h
      | cons v vs =>
          exact .ite (fun _ => .bind (stepping_guarded (pushValue_beside v b)) fun _ => ih vs)
            fun _ => fun _ h => ⟨h, rfl⟩

theorem enterModule_enters (r : ModuleRef) (c : ModuleContext) :
    Guarded False (fun e => e.context = c) (enterModule r : ExecM η Unit)
      (fun _ e => ∃ mem table, c.store.getMemory r = some mem ∧ c.store.getTable r = some table ∧
        e.context = { c with module := r, memory := mem, table := table }) fun _ _ => False := by
  rintro e rfl
  unfold enterModule
  rw [bind_of_ok (get_apply e)]
  cases hmem : e.store.getMemory r with
  | none => exact id
  | some mem =>
      rw [unwrap_some, pure_bind]
      cases htable : e.store.getTable r with
      | none => exact id
      | some table => exact ⟨mem, table, hmem, htable, rfl⟩

theorem preserves_unwrap {I : Engine η → Prop} (o : Option α) :
    Preserves False I (unwrap o : EntryM η ε α) := by
  cases o with
  | none => exact fun _ _ => id
  | some a => exact .pure a

/-- What holds of a context that stays goes on to hold. -/
theorem Stays.keeps {x : ExecM η α} (hx : Stays x) (I : ModuleContext → Prop) :
    Preserves False (fun e => I e.context) x := fun e he =>
  Guarded.weaken (hx e.context) id (fun _ h => h) (fun _ _ h => h ▸ he) (fun _ _ h => h ▸ he) e rfl

/-- A call that is accepted enters the module of the function; one that is rejected
leaves everything alone but stack words. -/
theorem invoke_guarded (f : WasmRef) (params : List Value) (e : Engine η) :
    Guarded False (fun t => t = e) (invoke f params : EntryM η InvokeError Unit)
      (fun _ t => t.context.Coherent ∧ t.context.store = e.store)
      fun _ t => t.besideStack = e.besideStack ∧ t.sp = e.sp := by
  let entered : ModuleContext → Prop := fun c => c.Coherent ∧ c.store = e.store
  have hsame : ∀ t, t = e → t.besideStack = e.besideStack ∧ t.sp = e.sp := by
    rintro _ rfl
    exact ⟨rfl, rfl⟩
  refine Guarded.get_bind fun s hs => ?_
  rw [hs]
  refine .ite (fun _ => .throw hsame) fun hidle => ?_
  have hsp : e.sp = 0 := by
    by_contra hsp
    exact hidle (.inr (.inl hsp))
  refine .bind (M := fun _ t => t = e) ?_ fun m => .bind (M := fun _ t => t = e) ?_ fun func =>
    .bind (M := fun _ t => t = e) ?_ fun ty => ?_
  · exact (preserves_unwrap _).weaken id (fun _ h => h) (fun _ _ h => h) fun _ t h => hsame t h
  · exact (preserves_unwrap _).weaken id (fun _ h => h) (fun _ _ h => h) fun _ t h => hsame t h
  · exact (preserves_unwrap _).weaken id (fun _ h => h) (fun _ _ h => h) fun _ t h => hsame t h
  refine .ite (fun _ => .throw hsame) fun _ => .ite (fun _ => .throw hsame) fun _ => ?_
  refine .bind (M := fun _ t => t.besideStack = e.besideStack) ((pushParams_beside _ _ _).weaken id
    (fun _ h => congrArg _ h) (fun _ _ h => h) fun _ _ h => ⟨h.1, h.2.trans hsp.symm⟩) fun _ => ?_
  refine .bind (M := fun _ t => entered t.context) (stepping_guarded (Guarded.weaken
    (enterModule_enters f.module e.context) id (fun t ht => ?_) ?_ fun _ _ => id)) fun _ => ?_
  · have hcontext : t.besideStack.context = e.besideStack.context := congrArg _ ht
    exact hcontext
  · rintro _ t ⟨mem, table, hmem, htable, ht⟩
    rw [ht]
    exact ⟨⟨hmem, htable⟩, rfl⟩
  · exact .bind (stepping_guarded ((stays_callImpl 0 f.index).keeps entered)) fun _ _ h => h

/-- What `resume` does beside the stack. -/
theorem resume_guarded (v : Option Value) (e : Engine η) :
    Guarded False (fun t => t = e) (resume v : EntryM η ResumeError Unit)
      (fun _ t => t.besideStack = { e.besideStack with hostPauseResult := none })
      fun _ t => t = e := by
  refine Guarded.get_bind fun s hs => ?_
  rw [hs]
  cases e.hostPauseResult with
  | none => exact .throw fun _ h => h
  | some pauseResult =>
      refine .ite (fun _ => ?_) fun _ => .throw fun _ h => h
      refine .bind (M := fun _ t => t.besideStack = { e.besideStack with hostPauseResult := none })
        ?_ fun _ => ?_
      · rintro _ rfl
        rfl
      · cases v with
        | none => exact .pure fun _ h => h
        | some v => exact stepping_guarded (pushValue_beside v _)

end EntryPoints

/-! ### Owned memories -/

def Module.ownedMemory? (m : Module) : Option MemRef :=
  match m.memory with
  | some (.owned mem) => some mem
  | _ => none

theorem Module.ownedMemory?_eq_some {m : Module} {mem : MemRef} :
    m.ownedMemory? = some mem ↔ m.memory = some (.owned mem) := by
  unfold Module.ownedMemory?
  split
  · next heq => simp [heq]
  · next hne =>
      simp only [reduceCtorEq, false_iff]
      exact fun h => hne mem h

/-- The memories that the modules own. -/
def Store.ownedMemories (s : Store) : List MemRef := s.modules.filterMap Module.ownedMemory?

/-- The memories that the symbols of the host modules hold. -/
def Store.hostMemories (s : Store) : List MemRef :=
  s.hostModules.flatMap fun hm => hm.memory.map HostMemory.value

/-- Owners do not share memories, with each other or with the host. -/
structure Store.Separate (s : Store) : Prop where
  owned : s.ownedMemories.Nodup
  host : ∀ mem ∈ s.ownedMemories, mem ∉ s.hostMemories
  zero : s.zeroMemory ∉ s.ownedMemories
  zeroHost : s.zeroMemory ∉ s.hostMemories

/-- The handles inside the store, counted. -/
theorem Store.memoryHandles_eq (s : Store) (mem : MemRef) :
    s.memoryHandles mem = (if s.zeroMemory = mem then 1 else 0) + s.ownedMemories.count mem +
      s.hostMemories.count mem := by
  have howned : (fun m : Module => m.ownedMemory? == some mem) =
      fun m => decide (m.memory = some (.owned mem)) := by
    funext m
    rw [Bool.beq_eq_decide_eq]
    exact decide_eq_decide.2 Module.ownedMemory?_eq_some
  have hhost : (List.count mem ∘ fun hm : HostModule => hm.memory.map HostMemory.value) =
      fun hm => hm.memory.countP fun sym => decide (sym.value = mem) := by
    funext hm
    simp only [Function.comp_apply, List.count_eq_countP, List.countP_map]
    congr 1
  rw [Store.memoryHandles, Store.ownedMemories, Store.hostMemories, List.count_filterMap,
    List.count_flatMap, howned, hhost]

section Separate

variable {s t : Store}

theorem Store.mem_ownedMemories {mem : MemRef} :
    mem ∈ s.ownedMemories ↔ ∃ m ∈ s.modules, m.memory = some (.owned mem) := by
  simp only [Store.ownedMemories, List.mem_filterMap, Module.ownedMemory?_eq_some]

theorem Store.mem_hostMemories {mem : MemRef} :
    mem ∈ s.hostMemories ↔ ∃ hm ∈ s.hostModules, ∃ sym ∈ hm.memory, sym.value = mem := by
  simp only [Store.hostMemories, List.mem_flatMap, List.mem_map]

theorem Store.Linked.owned_lt (hs : s.Linked) {mem : MemRef} (h : mem ∈ s.ownedMemories) :
    mem < s.memories.length := by
  obtain ⟨m, hm, hmem⟩ := Store.mem_ownedMemories.1 h
  obtain ⟨t, ht, hlt⟩ := (hs.modules m hm).memory _ hmem
  cases ht
  exact hlt

theorem Store.Linked.host_lt (hs : s.Linked) {mem : MemRef} (h : mem ∈ s.hostMemories) :
    mem < s.memories.length := by
  obtain ⟨hm, hhm, sym, hsym, rfl⟩ := Store.mem_hostMemories.1 h
  exact (hs.hostModules hm hhm).memory sym hsym

/-- What does not change owners keeps them apart. -/
theorem Store.Separate.of_eq (hs : s.Separate) (howned : t.ownedMemories = s.ownedMemories)
    (hhost : t.hostModules = s.hostModules) (hzero : t.zeroMemory = s.zeroMemory) :
    t.Separate := by
  have hhost' : t.hostMemories = s.hostMemories := by
    rw [Store.hostMemories, Store.hostMemories, hhost]
  refine ⟨?_, ?_, ?_, ?_⟩
  · rw [howned]
    exact hs.owned
  · rw [howned, hhost']
    exact hs.host
  · rw [howned, hzero]
    exact hs.zero
  · rw [hhost', hzero]
    exact hs.zeroHost

theorem Store.Runs.ownedMemories (h : s.Runs t) : t.ownedMemories = s.ownedMemories := by
  have hmap : t.modules.map Module.ownedMemory? = s.modules.map Module.ownedMemory? := by
    apply List.ext_getElem?
    intro i
    rw [List.getElem?_map, List.getElem?_map]
    cases hm : s.modules[i]? with
    | none =>
        have hle : t.modules.length ≤ i := h.modules ▸ List.getElem?_eq_none_iff.1 hm
        rw [List.getElem?_eq_none_iff.2 hle]
    | some m =>
        obtain ⟨m', hm', halike⟩ := h.module i m hm
        rw [hm', halike.eq]
        rfl
  have hfilter : ∀ ms : List Module,
      ms.filterMap Module.ownedMemory? = (ms.map Module.ownedMemory?).filterMap id := fun ms => by
    rw [List.filterMap_map, Function.id_comp]
  rw [Store.ownedMemories, Store.ownedMemories, hfilter, hmap, ← hfilter]

theorem Store.Separate.runs (hs : s.Separate) (h : s.Runs t) : t.Separate :=
  hs.of_eq h.ownedMemories h.hostModules h.zeroMemory

theorem Store.Separate.evolves {W : Footprint} (hs : s.Separate) (h : s.Evolves W t) :
    t.Separate :=
  hs.of_eq (by rw [Store.ownedMemories, Store.ownedMemories, h.modules]) h.hostModules h.zeroMemory

/-- A module that is pushed owns nothing, or a memory that nobody else has. -/
theorem Store.Separate.push {m : Module} {r : ModuleRef} (hs : s.Separate)
    (hnew : ∀ mem, m.memory = some (.owned mem) →
      mem ∉ s.ownedMemories ∧ mem ∉ s.hostMemories ∧ mem ≠ s.zeroMemory)
    (h : s.pushModule m = .ok (r, t)) : t.Separate := by
  obtain ⟨-, -, rfl⟩ := Store.pushModule_eq_ok.1 h
  have howned : Store.ownedMemories { s with modules := s.modules ++ [m] } =
      s.ownedMemories ++ [m].filterMap Module.ownedMemory? := List.filterMap_append
  cases hm : m.ownedMemory? with
  | none => exact hs.of_eq (by rw [howned]; simp [hm]) rfl rfl
  | some mem =>
      obtain ⟨hmem, hhost, hzero⟩ := hnew mem (Module.ownedMemory?_eq_some.1 hm)
      have happend : Store.ownedMemories { s with modules := s.modules ++ [m] } =
          s.ownedMemories ++ [mem] := by
        rw [howned]
        simp [hm]
      refine ⟨?_, ?_, ?_, hs.zeroHost⟩
      · rw [happend, List.nodup_append]
        refine ⟨hs.owned, List.pairwise_singleton _ _, fun a ha b hb => ?_⟩
        rw [List.mem_singleton.1 hb]
        rintro rfl
        exact hmem ha
      · rw [happend]
        intro a ha
        rcases List.mem_append.1 ha with ha | ha
        · exact hs.host a ha
        · rw [List.mem_singleton.1 ha]
          exact hhost
      · rw [happend]
        intro ha
        rcases List.mem_append.1 ha with ha | ha
        · exact hs.zero ha
        · exact hzero (List.mem_singleton.1 ha).symm

end Separate

/-! ### What holds of every session -/

/-- Every memory has its initial pages. -/
def Store.Covers (s : Store) : Prop := ∀ m ∈ s.memories, Memory.initialSize m.ty ≤ m.len

theorem Store.Runs.covers {s t : Store} (h : s.Runs t) (hs : s.Covers) : t.Covers := by
  intro m hm
  obtain ⟨i, hi⟩ := List.mem_iff_getElem?.1 hm
  have hlt := h.memories ▸ (List.getElem?_eq_some_iff.1 hi).1
  obtain ⟨m', hm', hgrows⟩ := h.memory i _ (List.getElem?_eq_getElem hlt)
  obtain rfl := Option.some.inj (hi.symm.trans hm')
  rw [hgrows.ty]
  exact Nat.le_trans (hs _ (List.getElem_mem hlt)) hgrows.len_le

theorem Store.Evolves.covers {W : Footprint} {s t : Store} (h : s.Evolves W t) (hs : s.Covers) :
    t.Covers := by
  intro m hm
  obtain ⟨i, hi⟩ := List.mem_iff_getElem?.1 hm
  by_cases hlt : i < s.memories.length
  · obtain ⟨m', hm', hsame⟩ := h.memory i _ (List.getElem?_eq_getElem hlt)
    obtain rfl := Option.some.inj (hi.symm.trans hm')
    rw [hsame.ty, Memory.len, hsame.length]
    exact hs _ (List.getElem_mem hlt)
  · exact h.added i m (Nat.le_of_not_lt hlt) hi

/-- The memory of modules without a memory is empty and has no allocator. -/
def Store.ZeroEmpty (s : Store) : Prop :=
  ∃ m, s.memories[s.zeroMemory]? = some m ∧ m.isZero = true

theorem Memory.isZero_iff {m : Memory} : m.isZero = true ↔ m.len = 0 ∧ m.allocator = false := by
  simp [Memory.isZero, Memory.len]

theorem Store.Runs.zeroEmpty {s t : Store} (h : s.Runs t) (hs : s.ZeroEmpty) : t.ZeroEmpty := by
  obtain ⟨m, hm, hzero⟩ := hs
  obtain ⟨hlen, hallocator⟩ := Memory.isZero_iff.1 hzero
  obtain ⟨m', hm', hgrows⟩ := h.memory _ m hm
  refine ⟨m', h.zeroMemory ▸ hm', Memory.isZero_iff.2 ⟨?_, hgrows.allocator.trans hallocator⟩⟩
  exact (hgrows.fixed hallocator).trans hlen

theorem Store.Evolves.zeroEmpty {W : Footprint} {s t : Store} (h : s.Evolves W t)
    (hs : s.ZeroEmpty) : t.ZeroEmpty := by
  obtain ⟨m, hm, hzero⟩ := hs
  obtain ⟨hlen, hallocator⟩ := Memory.isZero_iff.1 hzero
  obtain ⟨m', hm', hsame⟩ := h.memory _ m hm
  refine ⟨m', h.zeroMemory ▸ hm', Memory.isZero_iff.2 ⟨?_, hsame.allocator.trans hallocator⟩⟩
  exact hsame.length.trans hlen

/-- What sessions keep of the memories. -/
structure Store.MemorySound (s : Store) : Prop where
  separate : s.Separate
  covers : s.Covers
  zero : s.ZeroEmpty

theorem Store.MemorySound.runs {s t : Store} (hs : s.MemorySound) (h : s.Runs t) : t.MemorySound :=
  ⟨hs.separate.runs h, h.covers hs.covers, h.zeroEmpty hs.zero⟩

theorem Store.MemorySound.evolves {W : Footprint} {s t : Store} (hs : s.MemorySound)
    (h : s.Evolves W t) :
    t.MemorySound :=
  ⟨hs.separate.evolves h, h.covers hs.covers, h.zeroEmpty hs.zero⟩

theorem Store.MemorySound.push {s t : Store} {m : Module} {r : ModuleRef} (hs : s.MemorySound)
    (hnew : ∀ mem, m.memory = some (.owned mem) →
      mem ∉ s.ownedMemories ∧ mem ∉ s.hostMemories ∧ mem ≠ s.zeroMemory)
    (h : s.pushModule m = .ok (r, t)) : t.MemorySound := by
  have hseparate := hs.separate.push hnew h
  obtain ⟨-, -, rfl⟩ := Store.pushModule_eq_ok.1 h
  exact ⟨hseparate, hs.covers, hs.zero⟩

structure Session.Sound (s : Session η) : Prop where
  bounded : s.engine.store.Bounded
  memories : s.engine.store.MemorySound
  /-- A running engine caches what its module sees. -/
  coherent : s.engine.pc ≠ JumpTarget.sentinel → s.engine.context.Coherent

/-- Code keeps a store sound. -/
theorem Session.Sound.runs {s : Session η} (hs : s.Sound) {e : Engine η}
    (h : s.engine.store.Runs e.store)
    (hcoherent : e.pc ≠ JumpTarget.sentinel → e.context.Coherent) : (s.withEngine e).Sound := by
  refine ⟨⟨h.linked hs.bounded.linked, ?_, ?_⟩, hs.memories.runs h, hcoherent⟩
  · change e.store.modules.length ≤ e.store.maxModules
    rw [h.modules, h.maxModules]
    exact hs.bounded.modules_le
  · change e.store.maxModules ≤ 256
    rw [h.maxModules]
    exact hs.bounded.maxModules_le

theorem SharesMemory.store {env : ExecEnv η} {c : ModuleContext} {b : InterpreterBreak}
    {e : Engine η} (h : SharesMemory env c b e) : e.store = c.store :=
  congrArg ModuleContext.store h.context

/-- What has the same context and the same program counter is as sound. -/
theorem Session.Sound.step {s : Session η} (hs : s.Sound) {e : Engine η}
    (h : ReflGen ContextStep s.engine.context e.context) (hpc : e.pc = s.engine.pc) :
    (s.withEngine e).Sound :=
  hs.runs (ModuleContext.Reaches.runs h.to_reflTransGen) fun hne =>
    ModuleContext.Reaches.coherent h.to_reflTransGen (hs.coherent (hpc ▸ hne))

/-- What a round keeps. -/
structure Engine.Continues (e e' : Engine η) : Prop where
  runs : e.store.Runs e'.store
  coherent : (e.pc ≠ JumpTarget.sentinel → e.context.Coherent) →
    e'.pc ≠ JumpTarget.sentinel → e'.context.Coherent

theorem runRound_continues {env : ExecEnv η} {e e' : Engine η} {r : RoundResult}
    (h : runRound env e = some (r, e')) : e.Continues e' := by
  by_cases hpc : e.pc = JumpTarget.sentinel
  · unfold runRound at h
    rw [if_pos hpc] at h
    cases h
    exact ⟨.refl _, id⟩
  · obtain hreaches | ⟨hend, b, t, hbreaks, rfl⟩ := runRound_moves h
    · exact ⟨hreaches.runs, fun hc _ => hreaches.coherent (hc hpc)⟩
    · refine ⟨?_, fun _ hne => absurd hend hne⟩
      obtain hreaches | ⟨c, hreaches, hshares⟩ := hbreaks
      · exact hreaches.runs
      · exact hshares.store ▸ hreaches.runs

theorem run_continues {env : ExecEnv η} {n : ℕ} {e e' : Engine η} {r : InterpreterResult}
    (h : run env n e = some (r, e')) : e.Continues e' := by
  refine boundedRun_trans (R := Engine.Continues) (fun e => ⟨.refl _, id⟩)
    (fun hst htu => ⟨hst.runs.trans htu.runs, fun hc => htu.coherent (hst.coherent hc)⟩)
    (fun _ _ _ => runRound_continues) h

/-- A load into an idle engine keeps a session sound. -/
theorem Session.Sound.load {s : Session η} {t : LoadTarget} (hidle : s.engine.isIdle)
    (hbounded : t.store.Bounded) (hsound : t.store.MemorySound) : (s.withTarget t).Sound :=
  ⟨hbounded, hsound, fun hne => absurd (of_decide_eq_true hidle) hne⟩

theorem loadModule_memorySound {env : LoadEnv} {name : Name} {wasm : Reader} {t u : LoadTarget}
    {r : ModuleRef} (h : loadModule env name wasm t = .ok r u) (hbounded : t.store.Bounded)
    (hsound : t.store.MemorySound) : u.store.MemorySound := by
  obtain ⟨m, v, hnew, hgrows, -, hpush, -⟩ := (loadModule_frame env name wasm t .all fun _ _ =>
    LoadState.loadWrites_all _ _ _).ok rfl h
  have hv : ∀ mem, m.memory = some (.owned mem) → t.store.memories.length ≤ mem :=
    fun mem => Module.new_owned hnew
  refine (hsound.evolves hgrows.store).push (fun mem hmem => ?_) hpush
  have hle := hv mem hmem
  refine ⟨fun howned => ?_, fun hhost => ?_, fun hzero => ?_⟩
  · rw [Store.ownedMemories, hgrows.store.modules] at howned
    exact absurd (hbounded.linked.owned_lt howned) (Nat.not_lt.2 hle)
  · rw [Store.hostMemories, hgrows.store.hostModules] at hhost
    exact absurd (hbounded.linked.host_lt hhost) (Nat.not_lt.2 hle)
  · rw [hzero, hgrows.store.zeroMemory] at hle
    exact absurd hbounded.linked.zeroMemory (Nat.not_lt.2 hle)

theorem SessionStep.sound {floats : FloatOps} {host : HostEnv η} {s s' : Session η}
    (h : SessionStep floats host s s') (hs : s.Sound) : s'.Sound := by
  cases h with
  | loaded env name wasm hidle hload =>
      exact Session.Sound.load hidle ((LoadStep.loaded env name wasm _ hload).bounded hs.bounded)
        (loadModule_memorySound hload hs.bounded hs.memories)
  | loadFailed env name wasm hidle hload =>
      have hgrows := (loadModule_frame env name wasm s.target .all fun _ _ =>
        LoadState.loadWrites_all _ _ _).error rfl hload
      exact Session.Sound.load hidle ((LoadStep.failed env name wasm _ hload).bounded hs.bounded)
        (hs.memories.evolves hgrows.store)
  | invoked f params hinvoke =>
      obtain ⟨hcoherent, hstore⟩ := (invoke_guarded f params s.engine).ok rfl hinvoke
      exact hs.runs (hstore ▸ .refl _) fun _ => hcoherent
  | @invokeRejected f params _ e hinvoke =>
      obtain ⟨hbeside, -⟩ := (invoke_guarded f params s.engine).error rfl hinvoke
      have hcontext : e.context = s.engine.context := (congrArg Engine.context hbeside :)
      exact hs.step (hcontext ▸ .refl) (congrArg Engine.pc hbeside :)
  | ran fuel hrun =>
      have hcontinues := run_continues hrun
      exact hs.runs hcontinues.runs (hcontinues.coherent hs.coherent)
  | @resumed v e hresume =>
      have hbeside := (resume_guarded v s.engine).ok rfl hresume
      have hcontext : e.context = s.engine.context := (congrArg Engine.context hbeside :)
      exact hs.step (hcontext ▸ .refl) (congrArg Engine.pc hbeside :)
  | resumeRejected v hresume =>
      obtain rfl := (resume_guarded v s.engine).error rfl hresume
      exact hs
  | reset => exact hs.runs (.refl _) fun hne => absurd rfl hne
  | outside world writes =>
      exact hs.step (.single (.host writes)) rfl
  | setGlobal r x v =>
      exact hs.step (.single (.setGlobal r x v)) rfl

/-- The memories that the operations of a memory build; its fields are private. -/
inductive Memory.Built : Memory → Prop where
  | zero : Memory.Built Memory.zero
  | new (ty : MemType) : Memory.Built (Memory.ofType ty)
  | store {m m' : Memory} {addr : ℕ} {data : List U8} :
      Memory.Built m → m.store addr data = .ok m' → Memory.Built m'
  | grow {m m' : Memory} {n oldSize : U32} {allocated : Bool} :
      Memory.Built m → m.grow n allocated = .ok (oldSize, m') → Memory.Built m'

theorem Memory.Built.initialSize_le {m : Memory} (h : m.Built) :
    Memory.initialSize m.ty ≤ m.len := by
  have hgrows : ∀ {m m' : Memory}, m.Grows m' → Memory.initialSize m.ty ≤ m.len →
      Memory.initialSize m'.ty ≤ m'.len := fun hg hm => hg.ty ▸ Nat.le_trans hm hg.len_le
  induction h with
  | zero => decide
  | new ty => simp [Memory.ofType, Memory.len]
  | store _ hstore ih => exact hgrows (Memory.store_grows hstore) ih
  | grow _ hgrow ih => exact hgrows (Memory.grow_grows hgrow) ih

/-- The host gives memories that the operations of a memory have built. -/
def HostSetup.Built (setup : HostSetup) : Prop := ∀ m ∈ setup.memories, m.Built

theorem HostSetup.store_eq {setup : HostSetup} {store : Store} (h : setup.store = .ok store) :
    store.modules = [] ∧ store.hostModules = setup.hostModules ∧
      store.memories = setup.memories ++ [Memory.zero] ∧
        store.zeroMemory = setup.memories.length := by
  unfold HostSetup.store Store.fromHostModules at h
  split at h
  · cases h
  · cases h
    exact ⟨rfl, rfl, rfl, rfl⟩

theorem Session.sound_new {setup : HostSetup} (hbuilt : setup.Built) {store : Store}
    (h : setup.store = .ok store) (stackSize : ℕ) (world : η) (code : CodeBuilder) :
    (Session.mk (Engine.new stackSize store world) code).Sound := by
  obtain ⟨hmodules, hhost, hmemories, hzero⟩ := HostSetup.store_eq h
  have howned : store.ownedMemories = [] := by
    rw [Store.ownedMemories, hmodules, List.filterMap_nil]
  refine ⟨HostSetup.bounded h, ⟨⟨?_, ?_, ?_, ?_⟩, ?_, ?_⟩, fun hne => absurd rfl hne⟩
  · change store.ownedMemories.Nodup
    rw [howned]
    exact List.nodup_nil
  · change ∀ mem ∈ store.ownedMemories, _
    rw [howned]
    exact nofun
  · change store.zeroMemory ∉ store.ownedMemories
    rw [howned]
    exact nofun
  · change store.zeroMemory ∉ store.hostMemories
    rw [hzero]
    intro hmem
    obtain ⟨hm, hhm, sym, hsym, heq⟩ := Store.mem_hostMemories.1 hmem
    rw [hhost] at hhm
    exact absurd (setup.memory hm hhm sym hsym) (heq ▸ Nat.lt_irrefl _)
  · intro m hm
    change m ∈ store.memories at hm
    rw [hmemories] at hm
    rcases List.mem_append.1 hm with hm | hm
    · exact (hbuilt m hm).initialSize_le
    · rw [List.mem_singleton.1 hm]
      exact Memory.Built.zero.initialSize_le
  · refine ⟨Memory.zero, ?_, rfl⟩
    change store.memories[store.zeroMemory]? = _
    rw [hmemories, hzero, List.getElem?_concat_length]

theorem Session.Reachable.sound {setup : HostSetup} {floats : FloatOps} {host : HostEnv η}
    {s : Session η} (hbuilt : setup.Built) (h : s.Reachable setup floats host) : s.Sound := by
  obtain ⟨store, code, stackSize, world, hstore, hsteps⟩ := h
  induction hsteps with
  | refl => exact Session.sound_new hbuilt hstore stackSize world code
  | tail _ hstep ih => exact hstep.sound ih

/-! ### Sessions that are run -/

namespace Session

/-- Load a module into an idle engine. -/
def load? (s : Session η) (name : Name) (wasm : List U8) : Option (Session η) :=
  match loadModule simpleEnv name (Reader.new (.ofBytes wasm)) s.target with
  | .ok _ t => if s.engine.isIdle then some (s.withTarget t) else none
  | _ => none

/-- Invoke a function without parameters. -/
def invoke? (s : Session η) (f : WasmRef) : Option (Session η) :=
  match invoke f [] s.engine with
  | .ok () e => some (s.withEngine e)
  | _ => none

/-- Run a program that needs nothing of the host. -/
def run? (s : Session Unit) (fuel : ℕ) : Option (Session Unit) :=
  (run (s.env .none .quiet) fuel s.engine).map fun p => s.withEngine p.2

theorem load?_eq {s s' : Session η} {name : Name} {wasm : List U8}
    (h : s.load? name wasm = some s') :
    ∃ r t, loadModule simpleEnv name (Reader.new (.ofBytes wasm)) s.target = .ok r t ∧
      s.engine.isIdle ∧ s' = s.withTarget t := by
  unfold load? at h
  split at h
  · next r t hload =>
    split at h
    · next hidle =>
      cases h
      exact ⟨r, t, hload, hidle, rfl⟩
    · cases h
  · cases h

theorem load?_step {floats : FloatOps} {host : HostEnv η} {s s' : Session η} {name : Name}
    {wasm : List U8} (h : s.load? name wasm = some s') : SessionStep floats host s s' := by
  obtain ⟨r, t, hload, hidle, rfl⟩ := load?_eq h
  exact .loaded _ _ _ hidle hload

theorem invoke?_step {floats : FloatOps} {host : HostEnv η} {s s' : Session η} {f : WasmRef}
    (h : s.invoke? f = some s') : SessionStep floats host s s' := by
  unfold invoke? at h
  split at h
  · next hinvoke =>
    cases h
    exact .invoked f [] hinvoke
  · cases h

theorem run?_step {s s' : Session Unit} {fuel : ℕ} (h : s.run? fuel = some s') :
    SessionStep .none .quiet s s' := by
  obtain ⟨⟨r, e⟩, hrun, rfl⟩ := Option.map_eq_some_iff.1 h
  exact .ran fuel hrun

/-- Load a module into an idle engine, invoke its first function and run it. -/
def call? (s : Session Unit) (name : Name) (wasm : List U8) (fuel : ℕ) : Option (Session Unit) :=
  (s.load? name wasm).bind fun s => (s.invoke? ⟨0, 0⟩).bind fun s => s.run? fuel

theorem Reachable.call? {setup : HostSetup} {s s' : Session Unit} {name : Name} {wasm : List U8}
    {fuel : ℕ} (hs : s.Reachable setup .none .quiet) (h : s.call? name wasm fuel = some s') :
    s'.Reachable setup .none .quiet := by
  obtain ⟨s₁, h₁, h⟩ := Option.bind_eq_some_iff.1 h
  obtain ⟨s₂, h₂, h₃⟩ := Option.bind_eq_some_iff.1 h
  obtain ⟨store, code, stackSize, world, hstore, hsteps⟩ := hs
  exact ⟨store, code, stackSize, world, hstore,
    ((hsteps.tail (load?_step h₁)).tail (invoke?_step h₂)).tail (run?_step h₃)⟩

end Session

/-- A session that has not begun. -/
def emptySession : Session Unit := ⟨Engine.new 16 emptyStore (), emptyBuilder⟩

theorem emptySession_reachable : emptySession.Reachable emptyHost .none .quiet :=
  ⟨emptyStore, emptyBuilder, 16, (), rfl, .refl⟩

theorem emptyHost_built : emptyHost.Built := by
  intro m hm
  cases hm

end SpaceWasm
