import SpaceWasm.Module
import SpaceWasm.Refinement

/-!
# What linking relies on

A resolved import is a pair of indices, which the compiler, the linker of later
modules and the interpreter follow without a check. `Store.Linked` says that all
of them lead somewhere: every import of every module in the store designates an
entity of its owner, every table and memory field leads to a handle, and every
handle to an object. The indices are 8 and 16 bits wide, which is enough for the
entities that a store can hold.

From a linked store, the four link functions neither panic nor resolve an import
to an entity of another type than the one the import declares.
-/

namespace SpaceWasm

open Fallible

/-! ### The entity behind an import -/

/-- The handle that the table field of a module leads to. -/
def Store.tableOf? (s : Store) : TableKind → Option TableRef
  | .owned table _ => some table
  | .import_ m => (s.ownedTable? m).map Prod.fst
  | .importHost h => (s.hostTable? h).map HostTable.value

/-- The handle that the memory field of a module leads to. -/
def Store.memoryOf? (s : Store) : MemoryKind → Option MemRef
  | .owned mem => some mem
  | .import_ m => s.ownedMemory? m
  | .importHost h => s.hostMemory? h

/-- The type of the function that an import designates. -/
def Store.importFunc? (s : Store) : Import → Option FuncType
  | .func m i => do
      let em ← s.module? m
      let f ← em.functions[i.toNat]?
      em.types[f.ty]?
  | .hostFunc m i => do
      let hm ← s.hostModule? m
      let f ← hm.functions[i.toNat]?
      pure f.type
  | _ => none

/-- The type of the global that an import designates. -/
def Store.importGlobal? (s : Store) : Import → Option GlobalType
  | .global m i => do
      let em ← s.module? m
      let g ← em.globals[i.toNat]?
      pure g.type
  | .hostGlobal m i => do
      let hm ← s.hostModule? m
      let g ← hm.globals[i.toNat]?
      pure ⟨g.ty, g.mutable⟩
  | _ => none

/-- The limits of the table that an import designates. -/
def Store.importTable? (s : Store) : Import → Option Limit
  | .table m _ => (s.ownedTable? m).map fun t => t.2.limits
  | .hostTable m i => (s.hostTable? ⟨m, i⟩).map HostTable.limits
  | _ => none

/-- The type of the memory that an import designates. -/
def Store.importMemory? (s : Store) : Import → Option MemType
  | .memory m _ => s.ownedMemory? m >>= s.memType?
  | .hostMemory m i => s.hostMemory? ⟨m, i⟩ >>= s.memType?
  | _ => none

/-- The import designates an entity of the type it asks for. -/
def Import.Matches (s : Store) (types : List FuncType) (i : Import) : ImportDesc → Prop
  | .func x => ∃ ty, types[x]? = some ty ∧ s.importFunc? i = some ty
  | .global ty => s.importGlobal? i = some ty
  | .table ty => ∃ limits, s.importTable? i = some limits ∧ limits.matches ty.limits = true
  | .mem ty => ∃ memTy, s.importMemory? i = some memTy ∧ memTy.matches ty = true

/-- The import designates some entity. -/
def Import.Designates (s : Store) (i : Import) : Prop :=
  (s.importFunc? i).isSome ∨ (s.importGlobal? i).isSome ∨ (s.importTable? i).isSome ∨
    (s.importMemory? i).isSome

theorem Import.Matches.designates {s : Store} {types : List FuncType} {i : Import}
    {desc : ImportDesc} (h : i.Matches s types desc) : i.Designates s := by
  cases desc with
  | func x =>
      obtain ⟨ty, -, hty⟩ := h
      exact Or.inl (by rw [hty]; rfl)
  | global ty =>
      have hty : s.importGlobal? i = some ty := h
      exact Or.inr (Or.inl (by rw [hty]; rfl))
  | table ty =>
      obtain ⟨limits, hlimits, -⟩ := h
      exact Or.inr (Or.inr (Or.inl (by rw [hlimits]; rfl)))
  | mem ty =>
      obtain ⟨memTy, hty, -⟩ := h
      exact Or.inr (Or.inr (Or.inr (by rw [hty]; rfl)))

/-! ### Linked stores -/

/-- The indices in a module lead to entities of the store. -/
structure Module.Sound (s : Store) (m : Module) : Prop where
  imports : ∀ i ∈ m.imports, i.Designates s
  functions_le : m.functions.length ≤ 0xFFFF
  types : ∀ f ∈ m.functions, f.ty < m.types.length
  globals_le : m.globals.length ≤ 0xFFFF
  table : ∀ kind, m.table = some kind → ∃ t, s.tableOf? kind = some t ∧ t < s.tables.length
  memory : ∀ kind, m.memory = some kind → ∃ t, s.memoryOf? kind = some t ∧ t < s.memories.length

/-- A host module within the limits of the indices, with live handles. -/
structure HostModule.Sound (s : Store) (hm : HostModule) : Prop where
  globals_le : hm.globals.length ≤ 2 ^ 16
  functions_le : hm.functions.length ≤ 2 ^ 16
  memory_le : hm.memory.length ≤ 2 ^ 16
  table_le : hm.table.length ≤ 2 ^ 16
  memory : ∀ sym ∈ hm.memory, sym.value < s.memories.length
  table : ∀ sym ∈ hm.table, sym.value < s.tables.length

structure Store.Linked (s : Store) : Prop where
  modules_le : s.modules.length ≤ 256
  hostModules_le : s.hostModules.length ≤ 256
  modules : ∀ m ∈ s.modules, m.Sound s
  hostModules : ∀ hm ∈ s.hostModules, hm.Sound s
  zeroMemory : s.zeroMemory < s.memories.length
  zeroTable : s.zeroTable < s.tables.length

variable {s : Store}

theorem Store.Linked.module {r : ModuleRef} {m : Module} (hs : s.Linked)
    (h : s.module? r = some m) : m.Sound s :=
  hs.modules m (List.mem_of_getElem? h)

theorem Store.Linked.hostModule {r : HostModuleRef} {hm : HostModule} (hs : s.Linked)
    (h : s.hostModule? r = some hm) : hm.Sound s :=
  hs.hostModules hm (List.mem_of_getElem? h)

/-- An index below `2 ^ w` survives the narrowing to `w` bits. -/
theorem toNat_ofNat_of_lt {w i : ℕ} (h : i < 2 ^ w) : (BitVec.ofNat w i).toNat = i := by
  rw [BitVec.toNat_ofNat, Nat.mod_eq_of_lt h]

theorem Store.Linked.module?_ofNat {i : ℕ} {m : Module} (hs : s.Linked)
    (h : s.modules[i]? = some m) : s.module? (BitVec.ofNat 8 i) = some m := by
  have hlt := (List.getElem?_eq_some_iff.1 h).1
  have hle := hs.modules_le
  rw [Store.module?, toNat_ofNat_of_lt (by omega), h]

theorem Store.Linked.hostModule?_new {i : ℕ} {hm : HostModule} (hs : s.Linked)
    (h : s.hostModules[i]? = some hm) : s.hostModule? (HostModuleRef.new i) = some hm := by
  have hlt := (List.getElem?_eq_some_iff.1 h).1
  have hle := hs.hostModules_le
  rw [Store.hostModule?, HostModuleRef.new, toNat_ofNat_of_lt (by omega), h]

/-! ### Keeping what is linked -/

/-- The module `m'` is `m` up to the values of its globals. -/
structure Module.Alike (m m' : Module) : Prop where
  eq : m' = { m with globals := m'.globals }
  types : m'.globals.map Global.type = m.globals.map Global.type

theorem Module.Alike.refl (m : Module) : m.Alike m := ⟨rfl, rfl⟩

theorem Module.Alike.trans {m n o : Module} (h : m.Alike n) (h' : n.Alike o) : m.Alike o := by
  refine ⟨?_, h'.types.trans h.types⟩
  rw [h'.eq, h.eq]

/-- The entities of `s` are in `s'` too, with their types. -/
structure Store.Keeps (s s' : Store) : Prop where
  module : ∀ r m, s.module? r = some m → ∃ m', s'.module? r = some m' ∧ m.Alike m'
  hostModules : s'.hostModules = s.hostModules
  tables_le : s.tables.length ≤ s'.tables.length
  memories_le : s.memories.length ≤ s'.memories.length
  memType : ∀ mem ty, s.memType? mem = some ty → s'.memType? mem = some ty

theorem Store.Keeps.refl (s : Store) : s.Keeps s :=
  ⟨fun _ m h => ⟨m, h, .refl m⟩, rfl, Nat.le_refl _, Nat.le_refl _, fun _ _ h => h⟩

theorem Store.Keeps.trans {s t u : Store} (h : s.Keeps t) (h' : t.Keeps u) : s.Keeps u where
  module r m hm := by
    obtain ⟨m', hm', halike⟩ := h.module r m hm
    obtain ⟨m'', hm'', halike'⟩ := h'.module r m' hm'
    exact ⟨m'', hm'', halike.trans halike'⟩
  hostModules := h'.hostModules.trans h.hostModules
  tables_le := Nat.le_trans h.tables_le h'.tables_le
  memories_le := Nat.le_trans h.memories_le h'.memories_le
  memType mem ty hty := h'.memType mem ty (h.memType mem ty hty)

section Keeps

variable {s t : Store} (h : s.Keeps t)

include h

theorem Store.Keeps.hostModule? (r : HostModuleRef) : t.hostModule? r = s.hostModule? r := by
  rw [Store.hostModule?, Store.hostModule?, h.hostModules]

theorem Store.Keeps.hostTable? (r : HostRef) : t.hostTable? r = s.hostTable? r := by
  rw [Store.hostTable?, Store.hostTable?, h.hostModule?]

theorem Store.Keeps.hostMemory? (r : HostRef) : t.hostMemory? r = s.hostMemory? r := by
  rw [Store.hostMemory?, Store.hostMemory?, h.hostModule?]

theorem Store.Keeps.ownedTable? {r : ModuleRef} {table : TableRef × TableType}
    (ht : s.ownedTable? r = some table) : t.ownedTable? r = some table := by
  obtain ⟨m, hm, htable⟩ := Option.bind_eq_some_iff.1 ht
  obtain ⟨m', hm', halike⟩ := h.module r m hm
  rw [Store.ownedTable?, hm', halike.eq]
  exact htable

theorem Store.Keeps.ownedMemory? {r : ModuleRef} {mem : MemRef}
    (ht : s.ownedMemory? r = some mem) : t.ownedMemory? r = some mem := by
  obtain ⟨m, hm, hmem⟩ := Option.bind_eq_some_iff.1 ht
  obtain ⟨m', hm', halike⟩ := h.module r m hm
  rw [Store.ownedMemory?, hm', halike.eq]
  exact hmem

theorem Store.Keeps.tableOf? {kind : TableKind} {table : TableRef}
    (ht : s.tableOf? kind = some table) : t.tableOf? kind = some table := by
  cases kind with
  | owned => exact ht
  | import_ r =>
      obtain ⟨p, hp, heq⟩ := Option.map_eq_some_iff.1 ht
      rw [Store.tableOf?, h.ownedTable? hp, Option.map_some, heq]
  | importHost r => rwa [Store.tableOf?, h.hostTable?]

theorem Store.Keeps.memoryOf? {kind : MemoryKind} {mem : MemRef}
    (ht : s.memoryOf? kind = some mem) : t.memoryOf? kind = some mem := by
  cases kind with
  | owned => exact ht
  | import_ r => exact h.ownedMemory? ht
  | importHost r => rwa [Store.memoryOf?, h.hostMemory?]

theorem Store.Keeps.importFunc? {i : Import} {ty : FuncType} (hi : s.importFunc? i = some ty) :
    t.importFunc? i = some ty := by
  cases i with
  | func r x =>
      obtain ⟨m, hm, hty⟩ := Option.bind_eq_some_iff.1 hi
      obtain ⟨m', hm', halike⟩ := h.module r m hm
      rw [Store.importFunc?, hm', halike.eq]
      exact hty
  | hostFunc r x => rwa [Store.importFunc?, h.hostModule?]
  | table | hostTable | memory | hostMemory | global | hostGlobal => cases hi

theorem Store.Keeps.importGlobal? {i : Import} {ty : GlobalType}
    (hi : s.importGlobal? i = some ty) : t.importGlobal? i = some ty := by
  cases i with
  | global r x =>
      obtain ⟨m, hm, hty⟩ := Option.bind_eq_some_iff.1 hi
      obtain ⟨g, hg, hty⟩ := Option.bind_eq_some_iff.1 hty
      obtain ⟨m', hm', halike⟩ := h.module r m hm
      have htypes : (m'.globals.map Global.type)[x.toNat]? = some ty := by
        rw [halike.types, List.getElem?_map, hg]
        exact hty
      rw [List.getElem?_map] at htypes
      obtain ⟨g', hg', hty'⟩ := Option.map_eq_some_iff.1 htypes
      rw [Store.importGlobal?, hm', Option.bind_eq_bind, Option.bind_some, hg', ← hty']
      rfl
  | hostGlobal r x => rwa [Store.importGlobal?, h.hostModule?]
  | func | hostFunc | table | hostTable | memory | hostMemory => cases hi

theorem Store.Keeps.importTable? {i : Import} {limits : Limit}
    (hi : s.importTable? i = some limits) : t.importTable? i = some limits := by
  cases i with
  | table r x =>
      obtain ⟨p, hp, heq⟩ := Option.map_eq_some_iff.1 hi
      rw [Store.importTable?, h.ownedTable? hp, Option.map_some, heq]
  | hostTable r x => rwa [Store.importTable?, h.hostTable?]
  | func | hostFunc | memory | hostMemory | global | hostGlobal => cases hi

theorem Store.Keeps.importMemory? {i : Import} {ty : MemType}
    (hi : s.importMemory? i = some ty) : t.importMemory? i = some ty := by
  cases i with
  | memory r x =>
      obtain ⟨mem, hmem, hty⟩ := Option.bind_eq_some_iff.1 hi
      rw [Store.importMemory?, h.ownedMemory? hmem]
      exact h.memType mem ty hty
  | hostMemory r x =>
      obtain ⟨mem, hmem, hty⟩ := Option.bind_eq_some_iff.1 hi
      rw [Store.importMemory?, h.hostMemory?, hmem]
      exact h.memType mem ty hty
  | func | hostFunc | table | hostTable | global | hostGlobal => cases hi

/-- What an import designates stays of the type it had. -/
theorem Import.Matches.keeps {types : List FuncType} {i : Import} {desc : ImportDesc}
    (hi : i.Matches s types desc) : i.Matches t types desc := by
  cases desc with
  | func x =>
      obtain ⟨ty, hty, hfunc⟩ := hi
      exact ⟨ty, hty, h.importFunc? hfunc⟩
  | global ty => exact h.importGlobal? hi
  | table ty =>
      obtain ⟨limits, hlimits, hmatches⟩ := hi
      exact ⟨limits, h.importTable? hlimits, hmatches⟩
  | mem ty =>
      obtain ⟨memTy, hmem, hmatches⟩ := hi
      exact ⟨memTy, h.importMemory? hmem, hmatches⟩

theorem Import.Designates.keeps {i : Import} (hi : i.Designates s) : i.Designates t := by
  rcases hi with hi | hi | hi | hi <;> obtain ⟨ty, hty⟩ := Option.isSome_iff_exists.1 hi
  · exact Or.inl (Option.isSome_iff_exists.2 ⟨ty, h.importFunc? hty⟩)
  · exact Or.inr (Or.inl (Option.isSome_iff_exists.2 ⟨ty, h.importGlobal? hty⟩))
  · exact Or.inr (Or.inr (Or.inl (Option.isSome_iff_exists.2 ⟨ty, h.importTable? hty⟩)))
  · exact Or.inr (Or.inr (Or.inr (Option.isSome_iff_exists.2 ⟨ty, h.importMemory? hty⟩)))

theorem Module.Sound.keeps {m : Module} (hm : m.Sound s) : m.Sound t where
  imports i hi := (hm.imports i hi).keeps h
  functions_le := hm.functions_le
  types := hm.types
  globals_le := hm.globals_le
  table kind hkind := by
    obtain ⟨table, htable, hlt⟩ := hm.table kind hkind
    exact ⟨table, h.tableOf? htable, Nat.lt_of_lt_of_le hlt h.tables_le⟩
  memory kind hkind := by
    obtain ⟨mem, hmem, hlt⟩ := hm.memory kind hkind
    exact ⟨mem, h.memoryOf? hmem, Nat.lt_of_lt_of_le hlt h.memories_le⟩

theorem HostModule.Sound.keeps {hm : HostModule} (hs : hm.Sound s) : hm.Sound t where
  globals_le := hs.globals_le
  functions_le := hs.functions_le
  memory_le := hs.memory_le
  table_le := hs.table_le
  memory sym hsym := Nat.lt_of_lt_of_le (hs.memory sym hsym) h.memories_le
  table sym hsym := Nat.lt_of_lt_of_le (hs.table sym hsym) h.tables_le

end Keeps

/-! ### Index spaces -/

/-- The reference that an import adds to the function index space. -/
def Import.funcRef? : Import → Option Ref
  | .func m i => some (.extern_ m i)
  | .hostFunc m i => some (.host m i)
  | _ => none

/-- The reference that an import adds to the global index space. -/
def Import.globalRef? : Import → Option Ref
  | .global m i => some (.extern_ m i)
  | .hostGlobal m i => some (.host m i)
  | _ => none

/-- The references of the definitions of a module itself. -/
def ownRefs (n : ℕ) : List Ref := (List.range n).map fun i => .module (BitVec.ofNat 16 i)

/-- The function index space: the imported functions in order, then the module's own. -/
def Module.funcSpace (m : Module) : List Ref :=
  m.imports.filterMap Import.funcRef? ++ ownRefs m.functions.length

/-- The global index space. -/
def Module.globalSpace (m : Module) : List Ref :=
  m.imports.filterMap Import.globalRef? ++ ownRefs m.globals.length

/-- Walk the imports for the one with index `x` among those that `ref?` selects. -/
def importIndex (ref? : Import → Option Ref) : List Import → Idx → ℕ → Ref ⊕ ℕ
  | [], _, n => .inr n
  | i :: rest, x, n =>
      match ref? i with
      | some r => if x = n then .inl r else importIndex ref? rest x (n + 1)
      | none => importIndex ref? rest x n

theorem funcImport_eq (imports : List Import) (x n : ℕ) :
    Module.funcImport imports x n = importIndex Import.funcRef? imports x n := by
  induction imports generalizing n with
  | nil => rfl
  | cons i rest ih =>
      cases i <;> simp [Module.funcImport, importIndex, Import.funcRef?, ih]

theorem globalImport_eq (imports : List Import) (x n : ℕ) :
    Module.globalImport imports x n = importIndex Import.globalRef? imports x n := by
  induction imports generalizing n with
  | nil => rfl
  | cons i rest ih =>
      cases i <;> simp [Module.globalImport, importIndex, Import.globalRef?, ih]

/-- The walk finds the selected import at the index, or counts the selected ones. -/
theorem importIndex_eq {ref? : Import → Option Ref} {imports : List Import} {x n : ℕ} (h : n ≤ x) :
    importIndex ref? imports x n =
      match (imports.filterMap ref?)[x - n]? with
      | some r => .inl r
      | none => .inr (n + (imports.filterMap ref?).length) := by
  induction imports generalizing n with
  | nil => rfl
  | cons i rest ih =>
      unfold importIndex
      cases hi : ref? i with
      | none =>
          rw [List.filterMap_cons_none hi]
          exact ih h
      | some r =>
          rw [List.filterMap_cons_some hi]
          simp only
          by_cases hx : x = n
          · rw [if_pos hx, hx, Nat.sub_self]
            rfl
          · rw [if_neg hx, ih (by omega), show x - n = (x - (n + 1)) + 1 by omega,
              List.getElem?_cons_succ, List.length_cons, Nat.add_assoc, Nat.add_comm 1]

/-- Own references follow the imported ones. -/
theorem getElem?_append_ownRefs (refs : List Ref) (n x : ℕ) :
    (refs ++ ownRefs n)[x]? =
      match refs[x]? with
      | some r => some r
      | none => if n ≤ x - refs.length then none else
          some (.module (BitVec.ofNat 16 (x - refs.length))) := by
  by_cases hx : x < refs.length
  · rw [List.getElem?_append_left hx, List.getElem?_eq_getElem hx]
  · have hx := Nat.le_of_not_lt hx
    rw [List.getElem?_append_right hx, List.getElem?_eq_none hx, ownRefs, List.getElem?_map]
    simp only
    by_cases hn : n ≤ x - refs.length
    · rw [if_pos hn, List.getElem?_eq_none (by rwa [List.length_range])]
      rfl
    · rw [if_neg hn, List.getElem?_range (Nat.lt_of_not_le hn)]
      rfl

theorem Module.getFuncRef_eq (m : Module) (x : Idx) : m.getFuncRef x = m.funcSpace[x]? := by
  unfold getFuncRef funcSpace
  rw [funcImport_eq, importIndex_eq (Nat.zero_le x), getElem?_append_ownRefs, Nat.sub_zero]
  cases (m.imports.filterMap Import.funcRef?)[x]? with
  | some r => rfl
  | none => simp only [Nat.zero_add]

theorem Module.getGlobalRef_eq (m : Module) (x : Idx) : m.getGlobalRef x = m.globalSpace[x]? := by
  unfold getGlobalRef globalSpace
  rw [globalImport_eq, importIndex_eq (Nat.zero_le x), getElem?_append_ownRefs, Nat.sub_zero]
  cases (m.imports.filterMap Import.globalRef?)[x]? with
  | some r => rfl
  | none => simp only [Nat.zero_add]

/-! ### References of a sound module -/

theorem Store.refFuncType?_import {m : Module} {i : Import} {r : Ref} (h : i.funcRef? = some r) :
    s.refFuncType? m r = s.importFunc? i := by
  cases i <;> cases h <;> rfl

theorem Store.refGlobal?_import {m : Module} {i : Import} {r : Ref} (h : i.globalRef? = some r) :
    s.refGlobal? m r = (s.importGlobal? i).map fun ty => ⟨r, ty.ty, ty.mutable⟩ := by
  cases i <;> cases h <;> simp [refGlobal?, importGlobal?, Option.map_bind]

theorem Import.Designates.func {i : Import} {r : Ref} (h : i.Designates s)
    (hr : i.funcRef? = some r) : (s.importFunc? i).isSome := by
  cases i <;> cases hr <;> simpa [Import.Designates, Store.importGlobal?, Store.importTable?,
    Store.importMemory?] using h

theorem Import.Designates.global {i : Import} {r : Ref} (h : i.Designates s)
    (hr : i.globalRef? = some r) : (s.importGlobal? i).isSome := by
  cases i <;> cases hr <;> simpa [Import.Designates, Store.importFunc?, Store.importTable?,
    Store.importMemory?] using h

theorem Import.Designates.table {m : ModuleRef} {i : U16} (h : (Import.table m i).Designates s) :
    (s.ownedTable? m).isSome := by
  simpa [Import.Designates, Store.importFunc?, Store.importGlobal?, Store.importTable?,
    Store.importMemory?] using h

theorem Import.Designates.hostTable {m : HostModuleRef} {i : U16}
    (h : (Import.hostTable m i).Designates s) : (s.hostTable? ⟨m, i⟩).isSome := by
  simpa [Import.Designates, Store.importFunc?, Store.importGlobal?, Store.importTable?,
    Store.importMemory?] using h

theorem mem_ownRefs {n : ℕ} {r : Ref} (h : r ∈ ownRefs n) :
    ∃ i < n, r = .module (BitVec.ofNat 16 i) := by
  obtain ⟨i, hi, rfl⟩ := List.mem_map.1 h
  exact ⟨i, List.mem_range.1 hi, rfl⟩

/-- The references of a sound module designate symbols. -/
theorem Module.Sound.linked {m : Module} (h : m.Sound s) : m.Linked s := by
  constructor
  · intro x r hr
    rw [getFuncRef_eq] at hr
    rcases List.mem_append.1 (List.mem_of_getElem? hr) with himport | hown
    · obtain ⟨i, hi, hir⟩ := List.mem_filterMap.1 himport
      rw [s.refFuncType?_import hir]
      exact (h.imports i hi).func hir
    · obtain ⟨i, hi, rfl⟩ := mem_ownRefs hown
      have hle := h.functions_le
      have hf := List.getElem?_eq_getElem hi
      have hty := h.types _ (List.mem_of_getElem? hf)
      simp only [Store.refFuncType?, toNat_ofNat_of_lt (show i < 2 ^ 16 by omega), hf,
        Option.bind_eq_bind, Option.bind_some, List.getElem?_eq_getElem hty, Option.isSome_some]
  · intro x r hr
    rw [getGlobalRef_eq] at hr
    rcases List.mem_append.1 (List.mem_of_getElem? hr) with himport | hown
    · obtain ⟨i, hi, hir⟩ := List.mem_filterMap.1 himport
      rw [s.refGlobal?_import hir, Option.isSome_map]
      exact (h.imports i hi).global hir
    · obtain ⟨i, hi, rfl⟩ := mem_ownRefs hown
      have hle := h.globals_le
      simp only [Store.refGlobal?, toNat_ofNat_of_lt (show i < 2 ^ 16 by omega),
        List.getElem?_eq_getElem hi, Option.bind_eq_bind, Option.bind_some]
      rfl

/-! ### The link functions -/

/-- A look-up ends. If the store is linked, it does not panic, and the import that
it returns satisfies `P`. -/
def Links (s : Store) (P : Import → Prop) (x : LinkM Import) : Prop :=
  Guarded s.Linked (fun _ => True) x (fun i _ => s.Linked → P i) fun _ _ => True

theorem Links.pure {P : Import → Prop} {i : Import} (h : s.Linked → P i) :
    Links s P (Pure.pure i) :=
  fun _ _ => h

theorem Links.throw {P : Import → Prop} (e : ValidationError) : Links s P (Fallible.throw e) :=
  fun _ _ => trivial

theorem Links.unwrap {β : Type} {P : Import → Prop} {o : Option β} {f : β → LinkM Import}
    (ho : s.Linked → o.isSome) (h : ∀ b, o = some b → Links s P (f b)) :
    Links s P (Fallible.unwrap o >>= f) := by
  cases o with
  | none => exact fun _ _ hs => nomatch ho hs
  | some b => exact h b rfl

theorem Links.okOr {β : Type} {P : Import → Prop} {o : Option β} {e : ValidationError}
    {f : β → LinkM Import} (h : ∀ b, o = some b → Links s P (f b)) :
    Links s P (Fallible.okOr o e >>= f) := by
  cases o with
  | none => exact fun _ _ => trivial
  | some b => exact h b rfl

theorem Links.ite {P : Import → Prop} {p : Prop} [Decidable p] {x y : LinkM Import}
    (hx : p → Links s P x) (hy : ¬p → Links s P y) : Links s P (if p then x else y) := by
  split
  · exact hx ‹_›
  · exact hy ‹_›

theorem findFirst_some {α β : Type} {f : ℕ → α → Option β} {as : List α} {n : ℕ} {b : β}
    (h : findFirst f as n = some b) : ∃ i a, as[i]? = some a ∧ f (n + i) a = some b := by
  induction as generalizing n with
  | nil => cases h
  | cons a as ih =>
      unfold findFirst at h
      cases ha : f n a with
      | some b' =>
          rw [ha] at h
          cases h
          exact ⟨0, a, rfl, ha⟩
      | none =>
          rw [ha] at h
          obtain ⟨i, a', hi, hf⟩ := ih h
          exact ⟨i + 1, a', hi, by rwa [show n + (i + 1) = n + 1 + i by omega]⟩

/-- A host symbol that the look-up finds. -/
theorem Store.findHost_some {α : Type} {symbols : HostModule → List α} {symbolName : α → Name}
    {moduleName name : Name} {mi i : ℕ} {sym : α}
    (h : s.findHost symbols symbolName moduleName name = some (mi, i, sym)) :
    ∃ hm, s.hostModules[mi]? = some hm ∧ (symbols hm)[i]? = some sym ∧ hm.name = moduleName ∧
      symbolName sym = name := by
  obtain ⟨mi', hm, hhm, h⟩ := findFirst_some h
  split at h
  · next hname =>
    obtain ⟨i', sym', hsym, h⟩ := findFirst_some h
    split at h
    · next hsymName =>
      simp only [Nat.zero_add, Option.some.injEq, Prod.mk.injEq] at h
      obtain ⟨rfl, rfl, rfl⟩ := h
      exact ⟨hm, hhm, hsym, hname, hsymName⟩
    · cases h
  · cases h

/-- An export that the look-up finds. -/
theorem Store.findExport_some {moduleName name : Name} {mi : ℕ} {m : Module} {desc : ExportDesc}
    (h : s.findExport moduleName name = some (mi, m, desc)) :
    s.modules[mi]? = some m ∧ m.name = moduleName ∧ ⟨name, desc⟩ ∈ m.exports := by
  obtain ⟨mi', m', hm, h⟩ := findFirst_some h
  split at h
  · next hname =>
    obtain ⟨i, e, he, h⟩ := findFirst_some h
    split at h
    · next heName =>
      simp only [Nat.zero_add, Option.some.injEq, Prod.mk.injEq] at h
      obtain ⟨rfl, rfl, rfl⟩ := h
      subst heName
      exact ⟨hm, hname, List.mem_of_getElem? he⟩
    · cases h
  · cases h

/-- A reference to a function, followed to its owner. -/
theorem Store.refFuncType?_isSome {m : Module} {r : Ref} (h : (s.refFuncType? m r).isSome) :
    match r with
    | .module i => ∃ f ty, m.functions[i.toNat]? = some f ∧ m.types[f.ty]? = some ty
    | .host hr i => ∃ hm f, s.hostModule? hr = some hm ∧ hm.functions[i.toNat]? = some f
    | .extern_ mr i => ∃ em f ty, s.module? mr = some em ∧ em.functions[i.toNat]? = some f ∧
        em.types[f.ty]? = some ty := by
  obtain ⟨ty, hty⟩ := Option.isSome_iff_exists.1 h
  cases r with
  | module i =>
      obtain ⟨f, hf, hty⟩ := Option.bind_eq_some_iff.1 hty
      exact ⟨f, ty, hf, hty⟩
  | host hr i =>
      obtain ⟨hm, hhm, hty⟩ := Option.bind_eq_some_iff.1 hty
      obtain ⟨f, hf, -⟩ := Option.bind_eq_some_iff.1 hty
      exact ⟨hm, f, hhm, hf⟩
  | extern_ mr i =>
      obtain ⟨em, hem, hty⟩ := Option.bind_eq_some_iff.1 hty
      obtain ⟨f, hf, hty⟩ := Option.bind_eq_some_iff.1 hty
      exact ⟨em, f, ty, hem, hf, hty⟩

/-- A reference to a global, followed to its owner. -/
theorem Store.refGlobal?_isSome {m : Module} {r : Ref} (h : (s.refGlobal? m r).isSome) :
    match r with
    | .module i => ∃ g, m.globals[i.toNat]? = some g
    | .host hr i => ∃ hm g, s.hostModule? hr = some hm ∧ hm.globals[i.toNat]? = some g
    | .extern_ mr i => ∃ em g, s.module? mr = some em ∧ em.globals[i.toNat]? = some g := by
  obtain ⟨ty, hty⟩ := Option.isSome_iff_exists.1 h
  cases r with
  | module i =>
      obtain ⟨g, hg, -⟩ := Option.bind_eq_some_iff.1 hty
      exact ⟨g, hg⟩
  | host hr i =>
      obtain ⟨hm, hhm, hty⟩ := Option.bind_eq_some_iff.1 hty
      obtain ⟨g, hg, -⟩ := Option.bind_eq_some_iff.1 hty
      exact ⟨hm, g, hhm, hg⟩
  | extern_ mr i =>
      obtain ⟨em, hem, hty⟩ := Option.bind_eq_some_iff.1 hty
      obtain ⟨g, hg, -⟩ := Option.bind_eq_some_iff.1 hty
      exact ⟨em, g, hem, hg⟩

theorem links_checkFunction {ty expectedTy : FuncType} {i : Import}
    (h : s.Linked → s.importFunc? i = some ty) :
    Links s (fun i => s.importFunc? i = some expectedTy) (Store.checkFunction ty expectedTy i) :=
  .ite (fun heq => .pure (heq ▸ h)) fun _ => .throw _

theorem links_linkFunction (s : Store) (moduleName name : Name) (ty : FuncType) :
    Links s (fun i => s.importFunc? i = some ty) (s.linkFunction moduleName name ty) := by
  unfold Store.linkFunction
  cases hhost : s.findHost HostModule.functions HostFunction.name moduleName name with
  | some found =>
      obtain ⟨mi, fi, f⟩ := found
      obtain ⟨hm, hhm, hf, -, -⟩ := Store.findHost_some hhost
      apply links_checkFunction
      intro hs
      have hlt := (List.getElem?_eq_some_iff.1 hf).1
      have hle := (hs.hostModules hm (List.mem_of_getElem? hhm)).functions_le
      simp [Store.importFunc?, hs.hostModule?_new hhm,
        toNat_ofNat_of_lt (show fi < 2 ^ 16 by omega), hf]
  | none =>
      cases hexport : s.findExport moduleName name with
      | none => exact .throw _
      | some found =>
          obtain ⟨mi, m, desc⟩ := found
          obtain ⟨hm, -, -⟩ := Store.findExport_some hexport
          cases desc with
          | func fi =>
              refine Links.okOr fun r hr => ?_
              have href := fun hs : s.Linked => Store.refFuncType?_isSome
                ((hs.modules m (List.mem_of_getElem? hm)).linked.funcs fi r hr)
              cases r with
              | module i =>
                  refine Links.unwrap (fun hs => ?_) fun f hf => Links.okOr fun fty hty => ?_
                  · obtain ⟨f, -, hf, -⟩ := href hs
                    rw [hf]
                    rfl
                  · apply links_checkFunction
                    intro hs
                    simp [Store.importFunc?, hs.module?_ofNat hm, hf, hty]
              | extern_ mr i =>
                  refine Links.unwrap (fun hs => ?_) fun em hem => Links.unwrap (fun hs => ?_)
                    fun f hf => Links.unwrap (fun hs => ?_) fun fty hty => ?_
                  · obtain ⟨em, -, -, hem, -, -⟩ := href hs
                    rw [hem]
                    rfl
                  · obtain ⟨em', f, -, hem', hf, -⟩ := href hs
                    obtain rfl : em = em' := Option.some.inj (hem.symm.trans hem')
                    rw [hf]
                    rfl
                  · obtain ⟨em', f', fty, hem', hf', hty⟩ := href hs
                    obtain rfl : em = em' := Option.some.inj (hem.symm.trans hem')
                    obtain rfl : f = f' := Option.some.inj (hf.symm.trans hf')
                    rw [hty]
                    rfl
                  · apply links_checkFunction
                    intro hs
                    simp [Store.importFunc?, hem, hf, hty]
              | host hr i =>
                  refine Links.unwrap (fun hs => ?_) fun hm hhm => Links.unwrap (fun hs => ?_)
                    fun f hf => ?_
                  · obtain ⟨hm, -, hhm, -⟩ := href hs
                    rw [hhm]
                    rfl
                  · obtain ⟨hm', f, hhm', hf⟩ := href hs
                    obtain rfl : hm = hm' := Option.some.inj (hhm.symm.trans hhm')
                    rw [hf]
                    rfl
                  · apply links_checkFunction
                    intro hs
                    simp [Store.importFunc?, hhm, hf]
          | table | mem | global => exact .throw _

theorem links_checkGlobal {ty : ValType} {mutable : Bool} {expectedTy : GlobalType} {i : Import}
    (h : s.Linked → s.importGlobal? i = some ⟨ty, mutable⟩) :
    Links s (fun i => s.importGlobal? i = some expectedTy)
      (Store.checkGlobal ty mutable expectedTy i) := by
  refine .ite (fun _ => .throw _) fun hty => .ite (fun _ => .throw _) fun hmutable => .pure ?_
  intro hs
  rw [h hs, not_not.1 hty, not_not.1 hmutable]

theorem links_linkGlobal (s : Store) (moduleName name : Name) (ty : GlobalType) :
    Links s (fun i => s.importGlobal? i = some ty) (s.linkGlobal moduleName name ty) := by
  unfold Store.linkGlobal
  cases hhost : s.findHost HostModule.globals HostGlobal.name moduleName name with
  | some found =>
      obtain ⟨mi, gi, g⟩ := found
      obtain ⟨hm, hhm, hg, -, -⟩ := Store.findHost_some hhost
      apply links_checkGlobal
      intro hs
      have hlt := (List.getElem?_eq_some_iff.1 hg).1
      have hle := (hs.hostModules hm (List.mem_of_getElem? hhm)).globals_le
      simp [Store.importGlobal?, hs.hostModule?_new hhm,
        toNat_ofNat_of_lt (show gi < 2 ^ 16 by omega), hg]
  | none =>
      cases hexport : s.findExport moduleName name with
      | none => exact .throw _
      | some found =>
          obtain ⟨mi, m, desc⟩ := found
          obtain ⟨hm, -, -⟩ := Store.findExport_some hexport
          cases desc with
          | global gi =>
              refine Links.okOr fun r hr => ?_
              have href := fun hs : s.Linked => Store.refGlobal?_isSome
                ((hs.modules m (List.mem_of_getElem? hm)).linked.globals gi r hr)
              cases r with
              | module i =>
                  refine Links.unwrap (fun hs => ?_) fun g hg => ?_
                  · obtain ⟨g, hg⟩ := href hs
                    rw [hg]
                    rfl
                  · apply links_checkGlobal
                    intro hs
                    simp [Store.importGlobal?, hs.module?_ofNat hm, hg]
              | extern_ mr i =>
                  refine Links.unwrap (fun hs => ?_) fun em hem => Links.unwrap (fun hs => ?_)
                    fun g hg => ?_
                  · obtain ⟨em, -, hem, -⟩ := href hs
                    rw [hem]
                    rfl
                  · obtain ⟨em', g, hem', hg⟩ := href hs
                    obtain rfl : em = em' := Option.some.inj (hem.symm.trans hem')
                    rw [hg]
                    rfl
                  · apply links_checkGlobal
                    intro hs
                    simp [Store.importGlobal?, hem, hg]
              | host hr i =>
                  refine Links.unwrap (fun hs => ?_) fun hm hhm => Links.unwrap (fun hs => ?_)
                    fun g hg => ?_
                  · obtain ⟨hm, -, hhm, -⟩ := href hs
                    rw [hhm]
                    rfl
                  · obtain ⟨hm', g, hhm', hg⟩ := href hs
                    obtain rfl : hm = hm' := Option.some.inj (hhm.symm.trans hhm')
                    rw [hg]
                    rfl
                  · apply links_checkGlobal
                    intro hs
                    simp [Store.importGlobal?, hhm, hg]
          | table | mem | func => exact .throw _

/-- What is asked of a table import. -/
def TableLinks (s : Store) (ty : TableType) (i : Import) : Prop :=
  ∃ limits, s.importTable? i = some limits ∧ limits.matches ty.limits = true

theorem links_checkTable {limits : Limit} {ty : TableType} {i : Import}
    (h : s.Linked → s.importTable? i = some limits) :
    Links s (TableLinks s ty) (Store.checkTable limits ty i) :=
  .ite (fun hmatch => .pure fun hs => ⟨limits, h hs, hmatch⟩) fun _ => .throw _

theorem links_linkTable (s : Store) (moduleName name : Name) (ty : TableType) :
    Links s (TableLinks s ty) (s.linkTable moduleName name ty) := by
  unfold Store.linkTable
  cases hhost : s.findHost HostModule.table HostTable.name moduleName name with
  | some found =>
      obtain ⟨mi, ti, table⟩ := found
      obtain ⟨hm, hhm, ht, -, -⟩ := Store.findHost_some hhost
      apply links_checkTable
      intro hs
      have hlt := (List.getElem?_eq_some_iff.1 ht).1
      have hle := (hs.hostModules hm (List.mem_of_getElem? hhm)).table_le
      simp [Store.importTable?, Store.hostTable?, hs.hostModule?_new hhm,
        toNat_ofNat_of_lt (show ti < 2 ^ 16 by omega), ht]
  | none =>
      cases hexport : s.findExport moduleName name with
      | none => exact .throw _
      | some found =>
          obtain ⟨mi, m, desc⟩ := found
          obtain ⟨hm, -, -⟩ := Store.findExport_some hexport
          cases desc with
          | table ti =>
              refine .ite (fun _ => .throw _) fun _ => ?_
              have hkind := fun hs : s.Linked => (hs.modules m (List.mem_of_getElem? hm)).table
              cases htable : m.table with
              | none => exact .throw _
              | some kind =>
                  cases kind with
                  | owned table tty =>
                      apply links_checkTable
                      intro hs
                      simp [Store.importTable?, Store.ownedTable?, hs.module?_ofNat hm, htable]
                  | import_ mr =>
                      refine Links.unwrap (fun hs => ?_) fun owned howned => ?_
                      · obtain ⟨t, ht, -⟩ := hkind hs _ htable
                        obtain ⟨owned, howned, -⟩ := Option.map_eq_some_iff.1 ht
                        rw [howned]
                        rfl
                      · apply links_checkTable
                        intro hs
                        simp [Store.importTable?, howned]
                  | importHost h =>
                      refine Links.unwrap (fun hs => ?_) fun sym hsym => ?_
                      · obtain ⟨t, ht, -⟩ := hkind hs _ htable
                        obtain ⟨sym, hsym, -⟩ := Option.map_eq_some_iff.1 ht
                        rw [hsym]
                        rfl
                      · apply links_checkTable
                        intro hs
                        simp [Store.importTable?, hsym]
          | func | mem | global => exact .throw _

/-- What is asked of a memory import. -/
def MemoryLinks (s : Store) (ty : MemType) (i : Import) : Prop :=
  ∃ memTy, s.importMemory? i = some memTy ∧ memTy.matches ty = true

theorem links_checkMemory {mem : MemRef} {ty : MemType} {i : Import}
    (hmem : s.Linked → mem < s.memories.length)
    (hi : s.Linked → s.importMemory? i = s.memType? mem) :
    Links s (MemoryLinks s ty) (s.checkMemory mem ty i) := by
  refine Links.unwrap (fun hs => ?_) fun memTy hmemTy => ?_
  · rw [Store.memType?, List.getElem?_eq_getElem (hmem hs)]
    rfl
  · refine .ite (fun hmatch => .pure fun hs => ?_) fun _ => .throw _
    exact ⟨memTy, (hi hs).trans hmemTy, hmatch⟩

theorem links_linkMemory (s : Store) (moduleName name : Name) (ty : MemType) :
    Links s (MemoryLinks s ty) (s.linkMemory moduleName name ty) := by
  unfold Store.linkMemory
  cases hhost : s.findHost HostModule.memory HostMemory.name moduleName name with
  | some found =>
      obtain ⟨mi, i, sym⟩ := found
      obtain ⟨hm, hhm, hsym, -, -⟩ := Store.findHost_some hhost
      have hsound := fun hs : s.Linked => hs.hostModules hm (List.mem_of_getElem? hhm)
      refine links_checkMemory (fun hs => (hsound hs).memory sym (List.mem_of_getElem? hsym))
        fun hs => ?_
      have hlt := (List.getElem?_eq_some_iff.1 hsym).1
      have hle := (hsound hs).memory_le
      simp [Store.importMemory?, Store.hostMemory?, hs.hostModule?_new hhm,
        toNat_ofNat_of_lt (show i < 2 ^ 16 by omega), hsym]
  | none =>
      cases hexport : s.findExport moduleName name with
      | none => exact .throw _
      | some found =>
          obtain ⟨mi, m, desc⟩ := found
          obtain ⟨hm, -, -⟩ := Store.findExport_some hexport
          cases desc with
          | mem i =>
              refine .ite (fun _ => .throw _) fun _ => ?_
              have hkind := fun hs : s.Linked => (hs.modules m (List.mem_of_getElem? hm)).memory
              cases hmemory : m.memory with
              | none => exact .throw _
              | some kind =>
                  have hlive : ∀ {mem}, s.memoryOf? kind = some mem → s.Linked →
                      mem < s.memories.length := by
                    intro mem hmem hs
                    obtain ⟨t, ht, hlt⟩ := hkind hs kind hmemory
                    obtain rfl : mem = t := Option.some.inj (hmem.symm.trans ht)
                    exact hlt
                  cases kind with
                  | owned mem =>
                      refine links_checkMemory (hlive rfl) fun hs => ?_
                      simp [Store.importMemory?, Store.ownedMemory?, hs.module?_ofNat hm, hmemory]
                  | import_ mr =>
                      refine Links.unwrap (fun hs => ?_) fun mem hmem => ?_
                      · obtain ⟨t, ht, -⟩ := hkind hs _ hmemory
                        have ht : s.ownedMemory? mr = some t := ht
                        rw [ht]
                        rfl
                      · refine links_checkMemory (hlive hmem) fun hs => ?_
                        simp [Store.importMemory?, hmem]
                  | importHost h =>
                      refine Links.unwrap (fun hs => ?_) fun mem hmem => ?_
                      · obtain ⟨t, ht, -⟩ := hkind hs _ hmemory
                        have ht : s.hostMemory? h = some t := ht
                        rw [ht]
                        rfl
                      · refine links_checkMemory (hlive hmem) fun hs => ?_
                        simp [Store.importMemory?, hmem]
          | func | table | global => exact .throw _

/-- An import that resolves designates an entity of the type it asks for. -/
theorem links_linkImport (s : Store) (m : Module) (moduleName name : Name) (desc : ImportDesc) :
    Links s (fun i => i.Matches s m.types desc) (linkImport m moduleName name desc s) := by
  cases desc with
  | func x =>
      refine Links.okOr fun ty hty => ?_
      have hlink := links_linkFunction s moduleName name ty
      exact hlink.weaken id (fun _ h => h) (fun _ _ h hs => ⟨ty, hty, h hs⟩) fun _ _ h => h
  | table ty => exact links_linkTable s moduleName name ty
  | mem ty => exact links_linkMemory s moduleName name ty
  | global ty => exact links_linkGlobal s moduleName name ty

end SpaceWasm
