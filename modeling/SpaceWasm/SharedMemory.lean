import SpaceWasm.FunctionCode
import SpaceWasm.Session
import SpaceWasm.StackAccess

/-!
# Growing a shared memory

`memory.grow` needs the only handle to the memory. The engine gives up its own, so that
the handle of the owner is the last one, unless two symbols of the host hold the same
memory. Modules that import the memory resolve it through its owner each time that they
are entered; so what has grown is seen by all of them.
-/

namespace SpaceWasm

open Fallible Relation Interpreter

variable {η : Type}

/-- The memory that a module sees. -/
def Store.seen? (s : Store) (r : ModuleRef) : Option Memory :=
  (s.getMemory r).bind fun mem => s.memories[mem]?

/-- What `memory.grow` of `n` pages makes of `m`, and its answer. -/
def Memory.Answers (m : Memory) (n result : U32) (m' : Memory) : Prop :=
  (result = m.size ∧ ∃ allocated, m.grow n allocated = .ok (result, m')) ∨
    (result = 0xFFFFFFFF ∧ m' = m)

/-! ### Handles -/

section Handles

variable {s t : Store} {r : ModuleRef} {mem : MemRef}

theorem Store.mem_ownedMemories_of (h : s.ownedMemory? r = some mem) : mem ∈ s.ownedMemories := by
  obtain ⟨m, hm, hmem⟩ := Option.bind_eq_some_iff.1 h
  refine Store.mem_ownedMemories.2 ⟨m, List.mem_of_getElem? hm, ?_⟩
  split at hmem
  · next hkind =>
      cases hmem
      exact hkind
  · cases hmem

theorem Store.mem_hostMemories_of {ref : HostRef} (h : s.hostMemory? ref = some mem) :
    mem ∈ s.hostMemories := by
  obtain ⟨hm, hhm, h⟩ := Option.bind_eq_some_iff.1 h
  obtain ⟨sym, hsym, hmem⟩ := Option.bind_eq_some_iff.1 h
  exact Store.mem_hostMemories.2
    ⟨hm, List.mem_of_getElem? hhm, sym, List.mem_of_getElem? hsym, Option.some.inj hmem⟩

/-- A module sees the sentinel, the memory of an owner or a memory of the host. -/
theorem Store.getMemory_cases (h : s.getMemory r = some mem) :
    mem = s.zeroMemory ∨ mem ∈ s.ownedMemories ∨ mem ∈ s.hostMemories := by
  obtain ⟨m, hm, h⟩ := Option.bind_eq_some_iff.1 h
  split at h
  · exact .inl (Option.some.inj h).symm
  · next hkind =>
      cases h
      exact .inr (.inl (Store.mem_ownedMemories.2 ⟨m, List.mem_of_getElem? hm, hkind⟩))
  · exact .inr (.inl (Store.mem_ownedMemories_of h))
  · exact .inr (.inr (Store.mem_hostMemories_of h))

theorem Store.Linked.getMemory_lt (hs : s.Linked) (h : s.getMemory r = some mem) :
    mem < s.memories.length := by
  obtain rfl | howned | hhost := Store.getMemory_cases h
  · exact hs.zeroMemory
  · exact hs.owned_lt howned
  · exact hs.host_lt hhost

/-- A memory that is not the sentinel has one handle in the store, if the host does not
hold it twice. -/
theorem Store.Separate.memoryHandles_eq_one (hs : s.Separate) (h : s.getMemory r = some mem)
    (hzero : mem ≠ s.zeroMemory) (hunique : s.hostMemories.count mem ≤ 1) :
    s.memoryHandles mem = 1 := by
  rw [Store.memoryHandles_eq, if_neg hzero.symm]
  obtain rfl | howned | hhost := Store.getMemory_cases h
  · exact absurd rfl hzero
  · rw [hs.owned.count, if_pos howned, List.count_eq_zero.2 (hs.host mem howned)]
  · have hpos := List.count_pos_iff.2 hhost
    have howned : s.ownedMemories.count mem = 0 :=
      List.count_eq_zero.2 fun hmem => hs.host mem hmem hhost
    omega

theorem Store.Keeps.getMemory (h : s.Keeps t) (hzero : t.zeroMemory = s.zeroMemory)
    (hmem : s.getMemory r = some mem) : t.getMemory r = some mem := by
  obtain ⟨m, hm, hmem⟩ := Option.bind_eq_some_iff.1 hmem
  obtain ⟨m', hm', halike⟩ := h.module r m hm
  unfold Store.getMemory
  rw [hm', halike.eq]
  simp only [Option.bind_eq_bind, Option.bind_some]
  cases hkind : m.memory with
  | none =>
      rw [hkind] at hmem
      simp only
      rw [hzero]
      exact hmem
  | some kind =>
      rw [hkind] at hmem
      cases kind with
      | owned => exact hmem
      | import_ r' => exact h.ownedMemory? hmem
      | importHost ref => exact (h.hostMemory? ref).trans hmem

theorem Store.setMemory_self {m : Memory} (h : s.memories[mem]? = some m) :
    s.setMemory mem m = s := by
  have hset : s.memories.set mem m = s.memories := by
    apply List.ext_getElem?
    intro i
    by_cases hi : mem = i
    · rw [← hi, List.getElem?_set_self (List.getElem?_eq_some_iff.1 h).1, h]
    · rw [List.getElem?_set_ne hi]
  rw [Store.setMemory, hset]

theorem Memory.Answers.grows {m m' : Memory} {n result : U32} (h : m.Answers n result m') :
    m.Grows m' := by
  obtain ⟨-, allocated, hgrow⟩ | ⟨-, rfl⟩ := h
  · exact Memory.grow_grows hgrow
  · exact .refl m'

end Handles

/-! ### One instruction -/

theorem Memory.grow_old {m m' : Memory} {n oldSize : U32} {allocated : Bool}
    (h : m.grow n allocated = .ok (oldSize, m')) : oldSize = m.size := by
  unfold Memory.grow at h
  simp only at h
  split at h
  · cases h
  · split at h
    · cases h
    · split at h
      · cases h
      · split at h
        · cases h
          rfl
        · split at h <;> cases h
          rfl

section Grow

variable {env : ExecEnv η} {e : Engine η} {m : Memory}

/-- The engine after `memory.grow`. -/
def Engine.grown (e : Engine η) (m' : Memory) (world : η) : Engine η :=
  { e with world := world, store := e.store.setMemory e.memory m' }

/-- With the last handle to the memory of the current module, it grows or stays. -/
theorem growCurrent_answers (hmem : e.store.getMemory e.module = some e.memory)
    (hm : e.store.memories[e.memory]? = some m)
    (hhandles : m.isZero = false → memoryHandles env e.clearMemory e.memory = 1) (n : U32) :
    ∃ result m' world, m.Answers n result m' ∧
      growCurrent env n e = .ok result (e.grown m' world) := by
  have hmut : e.clearMemory.store.getMemoryMut e.clearMemory.module = some e.memory :=
    (Store.getMemoryMut_eq _ _).trans hmem
  have hm' : e.clearMemory.store.memories[e.memory]? = some m := hm
  have hsame : ∀ world, e.grown m world = { e with world := world } := fun world => by
    rw [Engine.grown, Store.setMemory_self hm]
  unfold growCurrent
  rw [bind_of_ok (modify_apply _ e), bind_of_ok (get_apply _), hmut, unwrap_some, pure_bind, hm',
    unwrap_some, pure_bind]
  cases hzero : m.isZero with
  | true => exact ⟨_, m, e.world, .inr ⟨rfl, rfl⟩, (hsame e.world).symm ▸ rfl⟩
  | false =>
      simp only [Bool.false_eq_true, if_false, if_pos (hhandles hzero)]
      obtain ⟨allocated, world, ⟨oldSize, m', hgrow, hrun⟩ | ⟨err, -, hrun⟩⟩ :=
        growMemory_cases env e.memory m n e.clearMemory
      · exact ⟨oldSize, m', world, .inl ⟨Memory.grow_old hgrow, allocated, hgrow⟩,
          bind_of_ok hrun⟩
      · refine ⟨_, m, world, .inr ⟨rfl, rfl⟩, ?_⟩
        rw [bind_of_ok hrun, hsame]
        rfl

/-- `memory.grow` when its operand is on the stack. -/
theorem memoryGrow_answers (hmem : e.store.getMemory e.module = some e.memory)
    (hm : e.store.memories[e.memory]? = some m)
    (hhandles : m.isZero = false → memoryHandles env e.clearMemory e.memory = 1)
    {below above : List U32} {n : U32} (hwords : e.stack.words = below ++ n :: above)
    (hsp : e.sp = below.length + 1) :
    ∃ result m' world touched, m.Answers n result m' ∧ memoryGrow env e =
      .ok () ((e.grown m' world).withStack e.sp (below ++ result :: above) touched) := by
  have hget : e.stack.words[below.length]? = some n := by
    rw [hwords]
    exact getElem?_cut below (n :: above) 0
  have htop : spBelow 1 e = .ok below.length e := by
    have hbelow : spBelow 1 e = .ok (e.sp - 1) e :=
      spBelow_withStack e e.stack.touched (show 1 ≤ e.sp by omega)
    rwa [hsp, Nat.add_sub_cancel] at hbelow
  have hread : readWord below.length e =
      .ok n (e.withStack e.sp e.stack.words (below.length :: e.stack.touched)) :=
    readWord_withStack e e.stack.touched hget
  let read := e.withStack e.sp e.stack.words (below.length :: e.stack.touched)
  obtain ⟨result, m', world, hanswers, hgrow⟩ : ∃ result m' world, m.Answers n result m' ∧
      growCurrent env n read = .ok result (read.grown m' world) :=
    growCurrent_answers (e := read) hmem hm hhandles n
  refine ⟨result, m', world, below.length :: below.length :: e.stack.touched, hanswers, ?_⟩
  rw [memoryGrow_eq, bind_of_ok htop, bind_of_ok hread, bind_of_ok hgrow]
  have hset : e.stack.words.set below.length result = below ++ result :: above := by
    rw [hwords]
    exact set_cut below (n :: above) 0 result
  rw [← hset]
  exact writeWord_withStack (e.grown m' world) (below.length :: e.stack.touched) result
    (List.getElem?_eq_some_iff.1 hget).1

section Accesses

variable {E : InterpreterBreak → Engine η → Prop} (b : Engine η)

theorem spBelow_beside (n : ℕ) : Guarded False (fun t => t.besideStack = b) (spBelow n)
    (fun _ t => t.besideStack = b) E :=
  Guarded.get_bind fun t ht => .bind (M := fun _ u => u = t)
    (.ite (fun _ => .pure fun _ h => h) fun _ _ _ => id) fun _ => .pure fun _ h => h ▸ ht

theorem readWord_beside (addr : ℕ) : Guarded False (fun t => t.besideStack = b) (readWord addr)
    (fun _ t => t.besideStack = b) E := by
  refine Guarded.get_bind fun t ht => ?_
  cases t.stack.words[addr]? with
  | none => exact fun _ _ => id
  | some w => exact fun _ _ => ht

theorem writeWord_beside (addr : ℕ) (w : U32) :
    Guarded False (fun t => t.besideStack = b) (writeWord addr w)
      (fun _ t => t.besideStack = b) E :=
  Guarded.get_bind fun t ht => .bind (M := fun _ u => u = t)
    (.ite (fun _ => .pure fun _ h => h) fun _ _ _ => id) fun _ _ _ => ht

end Accesses

/-- `memory.grow` does not trap; without an operand it panics. -/
theorem memoryGrow_noTrap (hmem : e.store.getMemory e.module = some e.memory)
    (hm : e.store.memories[e.memory]? = some m)
    (hhandles : m.isZero = false → memoryHandles env e.clearMemory e.memory = 1) :
    Guarded False (fun t => t = e) (memoryGrow env) (fun _ _ => True) fun _ _ => False := by
  have hgrow : ∀ n, Guarded False (fun t => t.besideStack = e.besideStack) (growCurrent env n)
      (fun _ _ => True) fun _ _ => False := by
    intro n t ht
    have hstore : t.store = e.store := (congrArg Engine.store ht :)
    have hmemory : t.memory = e.memory := (congrArg Engine.memory ht :)
    have hmodule : t.module = e.module := (congrArg Engine.module ht :)
    have hworld : t.world = e.world := (congrArg Engine.world ht :)
    have hcount : memoryHandles env t.clearMemory t.memory =
        memoryHandles env e.clearMemory e.memory := by
      unfold memoryHandles Engine.clearMemory
      dsimp only
      rw [hstore, hmemory, hworld]
    have hsees : t.store.getMemory t.module = some t.memory := by
      rw [hstore, hmodule, hmemory, hmem]
    have hget : t.store.memories[t.memory]? = some m := by rw [hstore, hmemory, hm]
    obtain ⟨result, m', world, -, hrun⟩ := growCurrent_answers hsees hget
      (fun hzero => hcount.trans (hhandles hzero)) n
    rw [hrun]
    trivial
  rw [memoryGrow_eq]
  refine .bind (M := fun _ t => t.besideStack = e.besideStack) ?_ fun top =>
    .bind (readWord_beside _ top) fun n => .bind (hgrow n) fun result => ?_
  · exact Guarded.weaken (spBelow_beside e.besideStack 1) id (fun _ h => congrArg _ h)
      (fun _ _ h => h) fun _ _ h => h
  · exact fun t _ => Guarded.weaken (writeWord_beside t.besideStack top result) id
      (fun _ h => h) (fun _ _ _ => trivial) (fun _ _ h => h) t rfl

end Grow

/-! ### Sessions -/

section Sessions

variable {floats : FloatOps} {host : HostEnv η} {s s' : Session η}

/-- A module goes on to see the memory it has seen. -/
theorem SessionStep.getMemory (h : SessionStep floats host s s') {r : ModuleRef} {mem : MemRef}
    (hmem : s.engine.store.getMemory r = some mem) : s'.engine.store.getMemory r = some mem := by
  have hruns : ∀ {t : Store}, s.engine.store.Runs t → t.getMemory r = some mem :=
    fun hruns => (hruns.getMemory r).trans hmem
  cases h with
  | loaded env name wasm _ hload =>
      obtain ⟨m, v, -, hgrows, -, hpush, -⟩ := (loadModule_frame env name wasm s.target .all
        fun _ _ => LoadState.loadWrites_all _ _ _).ok rfl hload
      refine (Store.Keeps.push hpush).getMemory ?_
        (hgrows.store.keeps.getMemory hgrows.store.zeroMemory hmem)
      obtain ⟨-, -, hstore⟩ := Store.pushModule_eq_ok.1 hpush
      rw [hstore]
  | loadFailed env name wasm _ hload =>
      have hgrows := (loadModule_frame env name wasm s.target .all fun _ _ =>
        LoadState.loadWrites_all _ _ _).error rfl hload
      exact hgrows.store.keeps.getMemory hgrows.store.zeroMemory hmem
  | invoked f params hinvoke =>
      obtain ⟨-, hstore⟩ := (invoke_guarded f params s.engine).ok rfl hinvoke
      exact hruns (hstore ▸ .refl _)
  | @invokeRejected f params _ e hinvoke =>
      obtain ⟨hbeside, -⟩ := (invoke_guarded f params s.engine).error rfl hinvoke
      have hstore : e.store = s.engine.store := (congrArg Engine.store hbeside :)
      exact hruns (hstore ▸ .refl _)
  | ran fuel hrun => exact hruns (run_continues hrun).runs
  | @resumed v e hresume =>
      have hbeside := (resume_guarded v s.engine).ok rfl hresume
      have hstore : e.store = s.engine.store := (congrArg Engine.store hbeside :)
      exact hruns (hstore ▸ .refl _)
  | resumeRejected v hresume =>
      obtain rfl := (resume_guarded v s.engine).error rfl hresume
      exact hmem
  | reset => exact hmem
  | outside world writes => exact hruns (.writeBytes _ _)
  | setGlobal r x v => exact hruns (.setGlobal _ _ _ _)

/-- From `s` on, each module keeps its memory, and code works on the memory that its
module sees. -/
def Session.SeesMemories (floats : FloatOps) (host : HostEnv η) (s : Session η) : Prop :=
  ∀ s', ReflTransGen (SessionStep floats host) s s' →
    (∀ r mem, s.engine.store.getMemory r = some mem →
      s'.engine.store.getMemory r = some mem) ∧
    (s'.engine.pc ≠ JumpTarget.sentinel →
      s'.engine.store.getMemory s'.engine.module = some s'.engine.memory ∧
      currentMemory s'.engine =
        unwrap (s'.engine.store.seen? s'.engine.module) s'.engine)

theorem Session.Sound.seesMemories (hs : s.Sound) : s.SeesMemories floats host := by
  intro s' hsteps
  have hsound : s'.Sound ∧ ∀ r mem, s.engine.store.getMemory r = some mem →
      s'.engine.store.getMemory r = some mem := by
    induction hsteps with
    | refl => exact ⟨hs, fun _ _ h => h⟩
    | tail _ hstep ih => exact ⟨hstep.sound ih.1, fun r mem h => hstep.getMemory (ih.2 r mem h)⟩
  refine ⟨hsound.2, fun hrunning => ?_⟩
  have hmem : s'.engine.store.getMemory s'.engine.module = some s'.engine.memory :=
    (hsound.1.coherent hrunning).memory
  refine ⟨hmem, ?_⟩
  rw [Store.seen?, hmem]
  rfl

/-- `e'` comes from `e` by growth of the memory that is cached, which all modules that
see it share. -/
structure Engine.GrowsShared (e e' : Engine η) (m' : Memory) : Prop where
  module : e'.module = e.module
  cached : e'.store.getMemory e'.module = some e'.memory
  memory : e'.memory = e.memory
  seen : ∀ r, e.store.getMemory r = some e.memory → e'.store.seen? r = some m'
  others : ∀ r, e.store.getMemory r ≠ some e.memory → e'.store.seen? r = e.store.seen? r

theorem Engine.growsShared {e e' : Engine η} {m m' : Memory} {n result : U32}
    (hmem : e.store.getMemory e.module = some e.memory)
    (hm : e.store.memories[e.memory]? = some m) (hanswers : m.Answers n result m')
    (hmodule : e'.module = e.module) (hmemory : e'.memory = e.memory)
    (hstore : e'.store = e.store.setMemory e.memory m') : e.GrowsShared e' m' := by
  have hruns : e.store.Runs e'.store := hstore ▸ .setMemory hm hanswers.grows
  have hlt := (List.getElem?_eq_some_iff.1 hm).1
  refine ⟨hmodule, ?_, hmemory, fun r hr => ?_, fun r hr => ?_⟩
  · rw [hruns.getMemory, hmodule, hmemory, hmem]
  · rw [Store.seen?, hruns.getMemory, hr, hstore]
    exact List.getElem?_set_self hlt
  · rw [Store.seen?, hruns.getMemory, Store.seen?]
    cases hmem' : e.store.getMemory r with
    | none => rfl
    | some mem =>
        rw [hstore]
        exact List.getElem?_set_ne fun h : e.memory = mem => hr (h ▸ hmem')

/-- Growth of the cached memory keeps a running session sound. -/
theorem Session.Sound.grown (hs : s.Sound) (hrunning : s.engine.pc ≠ JumpTarget.sentinel)
    {m m' : Memory} (hm : s.engine.store.memories[s.engine.memory]? = some m)
    (hgrows : m.Grows m') {e : Engine η}
    (he : e.context =
      { s.engine.context with store := s.engine.store.setMemory s.engine.memory m' }) :
    (s.withEngine e).Sound := by
  have hruns : s.engine.store.Runs (s.engine.store.setMemory s.engine.memory m') :=
    .setMemory hm hgrows
  have hstore : e.store = s.engine.store.setMemory s.engine.memory m' :=
    (congrArg ModuleContext.store he :)
  have hcoherent := hs.coherent hrunning
  refine hs.runs (hstore.symm ▸ hruns) fun _ => ?_
  rw [he]
  exact ⟨(hruns.getMemory _).trans hcoherent.memory, (hruns.getTable _).trans hcoherent.table⟩

/-- `memory.grow` in a session, on a memory that the host holds at most once. It does
not trap, all modules share what it does, and what comes later sees it. -/
theorem Session.memoryGrow_shared {setup : HostSetup} (hbuilt : setup.Built)
    (hs : s.Reachable setup floats host) (hrunning : s.engine.pc ≠ JumpTarget.sentinel)
    (hunique : s.engine.store.hostMemories.count s.engine.memory ≤ 1)
    (houtside : host.memoryHandles s.engine.world s.engine.memory = 0) :
    (∀ b t, memoryGrow (s.env floats host) s.engine ≠ .error b t) ∧
    ∀ below n above, s.engine.stack.words = below ++ n :: above →
      s.engine.sp = below.length + 1 →
      ∃ m result m' e', s.engine.store.seen? s.engine.module = some m ∧
        m.Answers n result m' ∧ memoryGrow (s.env floats host) s.engine = .ok () e' ∧
        e'.stack.words = below ++ result :: above ∧ e'.sp = s.engine.sp ∧
        s.engine.GrowsShared e' m' ∧
        ∀ next, (s.withEngine (e'.afterInstr next)).SeesMemories floats host := by
  have hsound := hs.sound hbuilt
  have hmem : s.engine.store.getMemory s.engine.module = some s.engine.memory :=
    (hsound.coherent hrunning).memory
  obtain ⟨m, hm⟩ : ∃ m, s.engine.store.memories[s.engine.memory]? = some m :=
    ⟨_, List.getElem?_eq_getElem (hsound.bounded.linked.getMemory_lt hmem)⟩
  have hhandles : m.isZero = false →
      memoryHandles (s.env floats host) s.engine.clearMemory s.engine.memory = 1 := by
    intro hzero
    have hne : s.engine.memory ≠ s.engine.store.zeroMemory := by
      intro heq
      obtain ⟨zero, hget, hempty⟩ := hsound.memories.zero
      rw [← heq, hm] at hget
      cases hget
      rw [hzero] at hempty
      cases hempty
    have hone := hsound.memories.separate.memoryHandles_eq_one hmem hne hunique
    unfold memoryHandles
    change s.engine.store.memoryHandles s.engine.memory +
      (if s.engine.store.zeroMemory = s.engine.memory then 1 else 0) +
        host.memoryHandles s.engine.world s.engine.memory = 1
    rw [hone, if_neg hne.symm, houtside]
  refine ⟨fun b t herror => (memoryGrow_noTrap hmem hm hhandles).error rfl herror,
    fun below n above hwords hsp => ?_⟩
  obtain ⟨result, m', world, touched, hanswers, hrun⟩ :=
    memoryGrow_answers hmem hm hhandles hwords hsp
  refine ⟨m, result, m', _, ?_, hanswers, hrun, rfl, rfl,
    Engine.growsShared hmem hm hanswers rfl rfl rfl, fun next => ?_⟩
  · rw [Store.seen?, hmem]
    exact hm
  · exact (hsound.grown hrunning hm hanswers.grows (context_afterInstr _ next)).seesMemories

end Sessions

/-! ### A memory of the host -/

/-- A host module whose symbols all hold one memory of one byte. -/
def sharingModule (names : List Name) : HostModule :=
  ⟨[0x68], [], [], names.map fun name => ⟨name, 0⟩, []⟩

def sharingHost (names : List Name) (hlen : names.length ≤ 2 ^ 16) : HostSetup := {
  maxModules := 8
  hostModules := [sharingModule names]
  memories := [Memory.ofType ⟨1, none, .one⟩]
  tables := []
  hostModules_le := by simp
  functions_le := by simp [sharingModule]
  globals_le := by simp [sharingModule]
  memory_le := by simpa [sharingModule] using hlen
  table_le := by simp [sharingModule]
  memory := by simp [sharingModule]
  table := by simp [sharingModule] }

def sharingStore (names : List Name) : Store :=
  ⟨[], 8, [sharingModule names], [Memory.ofType ⟨1, none, .one⟩, Memory.zero], [[]], 1, 0⟩

/-- A module that imports the memory and grows it by one page. -/
def growingImport : List U8 :=
  [0x00, 0x61, 0x73, 0x6D, 0x01, 0x00, 0x00, 0x00, 0x01, 0x04, 0x01, 0x60, 0x00, 0x00, 0x02, 0x09,
    0x01, 0x01, 0x68, 0x01, 0x6D, 0x02, 0x08, 0x01, 0x00, 0x03, 0x02, 0x01, 0x00, 0x0A, 0x09, 0x01,
    0x07, 0x00, 0x41, 0x01, 0x40, 0x00, 0x1A, 0x0B]

/-- The session in which `memory.grow` is next, with its operand on the stack. -/
def sharingSession? (names : List Name) : Option (Session Unit) :=
  Session.call? ⟨Engine.new 16 (sharingStore names) (), emptyBuilder⟩ [0x61] growingImport 1

theorem sharingSession?_reachable {names : List Name} (hlen : names.length ≤ 2 ^ 16)
    {s : Session Unit} (h : sharingSession? names = some s) :
    s.Reachable (sharingHost names hlen) .none .quiet :=
  Session.Reachable.call? ⟨sharingStore names, emptyBuilder, 16, (), rfl, .refl⟩ h

theorem sharingHost_built (names : List Name) (hlen : names.length ≤ 2 ^ 16) :
    (sharingHost names hlen).Built := by
  intro m hm
  obtain rfl := List.mem_singleton.1 hm
  exact .new _

theorem Session.memoryGrow_soleSymbol : ∃ s, sharingSession? [[0x6D]] = some s ∧
    ∀ b t, memoryGrow (s.env .none .quiet) s.engine ≠ .error b t := by
  have hrun : (sharingSession? [[0x6D]]).map (fun s => (s.engine.pc != JumpTarget.sentinel,
      s.engine.store.hostMemories.count s.engine.memory)) = some (true, 1) := by decide +kernel
  obtain ⟨s, hs, h⟩ := Option.map_eq_some_iff.1 hrun
  obtain ⟨hpc, hcount⟩ := Prod.mk.inj h
  exact ⟨s, hs, (Session.memoryGrow_shared (sharingHost_built _ (by decide))
    (sharingSession?_reachable (by decide) hs) (bne_iff_ne.1 hpc) hcount.le rfl).1⟩

/-- Two symbols of the host that hold the memory: growth traps, with no handle outside
the store and the engine. -/
theorem Session.memoryGrow_twoSymbols : ∃ s t, sharingSession? [[0x6D], [0x6E]] = some s ∧
    s.Reachable (sharingHost [[0x6D], [0x6E]] (by decide)) .none .quiet ∧
    s.engine.pc ≠ JumpTarget.sentinel ∧
    HostEnv.quiet.memoryHandles s.engine.world s.engine.memory = 0 ∧
    memoryGrow (s.env .none .quiet) s.engine = .error (.trap .memoryRefNotUnique) t := by
  have hrun : (sharingSession? [[0x6D], [0x6E]]).map (fun s =>
      (s.engine.pc != JumpTarget.sentinel, match memoryGrow (s.env .none .quiet) s.engine with
        | .error (.trap .memoryRefNotUnique) _ => true
        | _ => false)) = some (true, true) := by decide +kernel
  obtain ⟨s, hs, h⟩ := Option.map_eq_some_iff.1 hrun
  obtain ⟨hpc, htrap⟩ := Prod.mk.inj h
  split at htrap
  · next t hgrow =>
      exact ⟨s, t, hs, sharingSession?_reachable (by decide) hs, bne_iff_ne.1 hpc, rfl, hgrow⟩
  · cases htrap

end SpaceWasm
