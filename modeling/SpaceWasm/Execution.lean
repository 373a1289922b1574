import SpaceWasm.Context
import SpaceWasm.Linking

/-!
# What execution does to a store

Code changes the values of globals and the bytes of memories, and a memory gets larger.
Everything else in a store stays as it is, so that a linked store stays linked and every
module sees the memory and the table that it saw before.
-/

namespace SpaceWasm

open Fallible Relation

/-- `m'` is `m` with other bytes and perhaps more of them. -/
structure Memory.Grows (m m' : Memory) : Prop where
  ty : m'.ty = m.ty
  allocator : m'.allocator = m.allocator
  len_le : m.len ≤ m'.len
  fixed : m.allocator = false → m'.len = m.len

theorem Memory.Grows.refl (m : Memory) : m.Grows m := ⟨rfl, rfl, Nat.le_refl _, fun _ => rfl⟩

theorem Memory.Grows.trans {m n o : Memory} (h : m.Grows n) (h' : n.Grows o) : m.Grows o :=
  ⟨h'.ty.trans h.ty, h'.allocator.trans h.allocator, Nat.le_trans h.len_le h'.len_le,
    fun hm => (h'.fixed (h.allocator.trans hm)).trans (h.fixed hm)⟩

/-- Other bytes of the same number. -/
theorem Memory.Grows.of_len {m m' : Memory} (hty : m'.ty = m.ty)
    (hallocator : m'.allocator = m.allocator) (hlen : m'.len = m.len) : m.Grows m' :=
  ⟨hty, hallocator, hlen ▸ Nat.le_refl _, fun _ => hlen⟩

theorem Memory.store_grows {m m' : Memory} {addr : ℕ} {data : List U8}
    (h : m.store addr data = .ok m') : m.Grows m' := by
  unfold Memory.store at h
  cases hbounds : m.checkInBounds addr data.length with
  | error e => simp [hbounds] at h
  | ok =>
      rw [hbounds] at h
      cases h
      refine .of_len rfl rfl ?_
      unfold Memory.checkInBounds at hbounds
      split at hbounds
      · cases hbounds
      · simp only [Memory.len, List.length_append, List.length_take, List.length_drop] at *
        omega

theorem Memory.grow_grows {m m' : Memory} {n oldSize : U32} {allocated : Bool}
    (h : m.grow n allocated = .ok (oldSize, m')) : m.Grows m' := by
  unfold Memory.grow at h
  simp only at h
  split at h
  · cases h
  · split at h
    · cases h
    · split at h
      · cases h
      · next hallocator =>
        split at h
        · cases h
          exact .refl m
        · split at h
          · cases h
          · cases h
            exact ⟨rfl, rfl, by simp [Memory.len], fun hm => absurd hm hallocator⟩

/-- `s'` is `s` after some code has run. -/
structure Store.Runs (s s' : Store) : Prop where
  modules : s'.modules.length = s.modules.length
  module : ∀ (i : ℕ) (m : Module), s.modules[i]? = some m →
    ∃ m', s'.modules[i]? = some m' ∧ m.Alike m'
  maxModules : s'.maxModules = s.maxModules
  hostModules : s'.hostModules = s.hostModules
  tables : s'.tables = s.tables
  zeroMemory : s'.zeroMemory = s.zeroMemory
  zeroTable : s'.zeroTable = s.zeroTable
  memories : s'.memories.length = s.memories.length
  memory : ∀ (i : ℕ) (m : Memory), s.memories[i]? = some m →
    ∃ m', s'.memories[i]? = some m' ∧ m.Grows m'

namespace Store.Runs

theorem refl (s : Store) : s.Runs s :=
  ⟨rfl, fun _ m h => ⟨m, h, .refl m⟩, rfl, rfl, rfl, rfl, rfl, rfl, fun _ m h => ⟨m, h, .refl m⟩⟩

theorem trans {s t u : Store} (h : s.Runs t) (h' : t.Runs u) : s.Runs u where
  modules := h'.modules.trans h.modules
  module i m hm := by
    obtain ⟨m', hm', halike⟩ := h.module i m hm
    obtain ⟨m'', hm'', halike'⟩ := h'.module i m' hm'
    exact ⟨m'', hm'', halike.trans halike'⟩
  maxModules := h'.maxModules.trans h.maxModules
  hostModules := h'.hostModules.trans h.hostModules
  tables := h'.tables.trans h.tables
  zeroMemory := h'.zeroMemory.trans h.zeroMemory
  zeroTable := h'.zeroTable.trans h.zeroTable
  memories := h'.memories.trans h.memories
  memory i m hm := by
    obtain ⟨m', hm', hgrows⟩ := h.memory i m hm
    obtain ⟨m'', hm'', hgrows'⟩ := h'.memory i m' hm'
    exact ⟨m'', hm'', hgrows.trans hgrows'⟩

theorem setMemory {s : Store} {mem : MemRef} {m m' : Memory} (hm : s.memories[mem]? = some m)
    (h : m.Grows m') : s.Runs (s.setMemory mem m') := by
  refine ⟨rfl, fun _ m h => ⟨m, h, .refl m⟩, rfl, rfl, rfl, rfl, rfl, List.length_set,
    fun i n hn => ?_⟩
  by_cases hi : mem = i
  · subst hi
    obtain rfl : m = n := Option.some.inj (hm.symm.trans hn)
    exact ⟨m', List.getElem?_set_self (List.getElem?_eq_some_iff.1 hm).1, h⟩
  · exact ⟨n, (List.getElem?_set_ne hi).trans hn, .refl n⟩

theorem setGlobal (s : Store) (r : ModuleRef) (x : U16) (v : RawValue) :
    s.Runs (s.setGlobal r x v) := by
  refine ⟨List.length_modify _ _ _, fun i m hm => ?_, rfl, rfl, rfl, rfl, rfl, rfl,
    fun _ m h => ⟨m, h, .refl m⟩⟩
  rw [Store.setGlobal]
  dsimp only
  rw [List.getElem?_modify, hm]
  refine ⟨_, rfl, ?_⟩
  dsimp only
  by_cases hr : r.toNat = i
  · rw [if_pos hr]
    refine ⟨rfl, ?_⟩
    apply List.ext_getElem?
    intro j
    simp only [List.getElem?_map, List.getElem?_modify]
    cases m.globals[j]? with
    | none => rfl
    | some g =>
        by_cases hx : x.toNat = j <;> simp [hx]
  · rw [if_neg hr]
    exact .refl m

theorem writeByte (s : Store) (w : ByteWrite) : s.Runs (s.writeByte w) := by
  unfold Store.writeByte
  split
  · exact .refl s
  · next m hm => exact setMemory hm (.of_len rfl rfl (by simp [Memory.len]))

theorem writeBytes (s : Store) (ws : List ByteWrite) : s.Runs (s.writeBytes ws) := by
  induction ws generalizing s with
  | nil => exact .refl s
  | cons w ws ih => exact (writeByte s w).trans (ih _)

variable {s t : Store} (h : s.Runs t)

include h

theorem module?_of (r : ModuleRef) {m : Module} (hm : s.module? r = some m) :
    ∃ m', t.module? r = some m' ∧ m.Alike m' := h.module _ m hm

theorem module?_none {r : ModuleRef} (hm : s.module? r = none) : t.module? r = none := by
  rw [Store.module?, List.getElem?_eq_none_iff] at hm ⊢
  rwa [h.modules]

theorem keeps : s.Keeps t where
  module r m hm := h.module _ m hm
  hostModules := h.hostModules
  tables_le := h.tables ▸ Nat.le_refl _
  memories_le := h.memories ▸ Nat.le_refl _
  memType mem ty hty := by
    obtain ⟨m, hm, rfl⟩ := Option.map_eq_some_iff.1 hty
    obtain ⟨m', hm', hgrows⟩ := h.memory mem m hm
    rw [Store.memType?, hm', Option.map_some, hgrows.ty]

theorem linked (hs : s.Linked) : t.Linked where
  modules_le := h.modules ▸ hs.modules_le
  hostModules_le := h.hostModules ▸ hs.hostModules_le
  modules m' hm' := by
    obtain ⟨i, hi⟩ := List.mem_iff_getElem?.1 hm'
    have hlt := h.modules ▸ (List.getElem?_eq_some_iff.1 hi).1
    obtain ⟨m'', hm'', halike⟩ := h.module i _ (List.getElem?_eq_getElem hlt)
    obtain rfl := Option.some.inj (hi.symm.trans hm'')
    have hm := (hs.modules _ (List.getElem_mem hlt)).keeps h.keeps
    rw [halike.eq]
    refine ⟨hm.imports, hm.functions_le, hm.types, ?_, hm.table, hm.memory⟩
    have hlength := congrArg List.length halike.types
    rw [List.length_map, List.length_map] at hlength
    exact hlength ▸ hm.globals_le
  hostModules hm hhm := (hs.hostModules hm (h.hostModules ▸ hhm)).keeps h.keeps
  zeroMemory := by
    rw [h.zeroMemory, h.memories]
    exact hs.zeroMemory
  zeroTable := by
    rw [h.zeroTable, h.tables]
    exact hs.zeroTable

/-- A look-up in a module that does not depend on the values of globals. -/
theorem module?_bind {β : Type} (r : ModuleRef) (f : Module → Option β)
    (hf : ∀ m globals, f { m with globals := globals } = f m) :
    (t.module? r).bind f = (s.module? r).bind f := by
  cases hm : s.module? r with
  | none => rw [h.module?_none hm]
  | some m =>
      obtain ⟨m', hm', halike⟩ := h.module?_of r hm
      rw [hm', halike.eq]
      exact hf m m'.globals

theorem ownedMemory? (r : ModuleRef) : t.ownedMemory? r = s.ownedMemory? r :=
  h.module?_bind r _ fun _ _ => rfl

theorem ownedTable? (r : ModuleRef) : t.ownedTable? r = s.ownedTable? r :=
  h.module?_bind r _ fun _ _ => rfl

/-- Every module sees the same memory. -/
theorem getMemory (r : ModuleRef) : t.getMemory r = s.getMemory r := by
  simp only [Store.getMemory, h.ownedMemory?, h.keeps.hostMemory?, h.zeroMemory]
  exact h.module?_bind r _ fun _ _ => rfl

theorem getTable (r : ModuleRef) : t.getTable r = s.getTable r := by
  simp only [Store.getTable, h.ownedTable?, h.keeps.hostTable?, h.zeroTable]
  exact h.module?_bind r _ fun _ _ => rfl

end Store.Runs

/-! ### Contexts -/

/-- `get_memory_mut` finds the memory that `get_memory` finds. -/
theorem Store.getMemoryMut_eq (s : Store) (r : ModuleRef) : s.getMemoryMut r = s.getMemory r := by
  unfold Store.getMemoryMut Store.getMemory
  cases hm : s.module? r with
  | none => rfl
  | some m =>
      simp only [Option.bind_eq_bind, Option.bind_some]
      cases hkind : m.memory with
      | none => rfl
      | some kind =>
          cases kind with
          | owned mem => simp [Store.ownedMemory?, hm, hkind]
          | import_ | importHost => rfl

/-- The cached memory and table are those of the current module. -/
structure ModuleContext.Coherent (c : ModuleContext) : Prop where
  memory : c.store.getMemory c.module = some c.memory
  table : c.store.getTable c.module = some c.table

theorem ContextStep.runs {c c' : ModuleContext} (h : ContextStep c c') :
    c.store.Runs c'.store := by
  cases h with
  | enter | keep => exact .refl _
  | setGlobal r x v => exact .setGlobal _ _ _ _
  | write hm hstore => exact .setMemory hm (Memory.store_grows hstore)
  | host writes => exact .writeBytes _ _
  | grow _ hm _ hgrow => exact .setMemory hm (Memory.grow_grows hgrow)

theorem ContextStep.coherent {c c' : ModuleContext} (h : ContextStep c c') (hc : c.Coherent) :
    c'.Coherent := by
  have hruns := h.runs
  have hkeep : c'.module = c.module → c'.memory = c.memory → c'.table = c.table →
      c'.Coherent := by
    intro hmodule hmemory htable
    refine ⟨?_, ?_⟩
    · rw [hruns.getMemory, hmodule, hmemory, hc.memory]
    · rw [hruns.getTable, hmodule, htable, hc.table]
  cases h with
  | enter hmem htable => exact ⟨hmem, htable⟩
  | setGlobal | write | host => exact hkeep rfl rfl rfl
  | grow hmem _ _ _ =>
      rw [Store.getMemoryMut_eq, hc.memory] at hmem
      exact hkeep rfl (Option.some.inj hmem).symm rfl
  | keep hmem =>
      rw [Store.getMemoryMut_eq, hc.memory] at hmem
      exact hkeep rfl (Option.some.inj hmem).symm rfl

theorem ModuleContext.Reaches.runs {c c' : ModuleContext} (h : c.Reaches c') :
    c.store.Runs c'.store := by
  induction h with
  | refl => exact .refl _
  | tail _ hstep ih => exact ih.trans hstep.runs

theorem ModuleContext.Reaches.coherent {c c' : ModuleContext} (h : c.Reaches c')
    (hc : c.Coherent) : c'.Coherent := by
  induction h with
  | refl => exact hc
  | tail _ hstep ih => exact hstep.coherent ih

end SpaceWasm
