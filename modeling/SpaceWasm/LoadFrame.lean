import SpaceWasm.LoadSteps

/-!
# What a section does to the rest of the world

A section advances the stream, appends code, sets the fields of the module that
belong to it, and adds a table or a memory to the store. The modules that are in
the store already stay as they are. Only element and data segments write to
objects of the store, and what they may write is a footprint `W`: the entries of
tables and the bytes of memories outside `W` keep their values.
-/

namespace SpaceWasm

open Fallible

/-! ### Relations between stores and modules -/

/-- What may be written to the entries of tables, and the bytes of memories that
may be written. -/
structure Footprint where
  table : TableRef → ℕ → TableElement → Prop
  byte : MemRef → ℕ → Prop

/-- The table `t'` is `t` up to entries in `W`. -/
structure SameTable (W : ℕ → TableElement → Prop) (t t' : List TableElement) : Prop where
  length : t'.length = t.length
  entry : ∀ k, t'[k]? = t[k]? ∨ ∃ e, t'[k]? = some e ∧ W k e

/-- The memory `m'` is `m` up to the bytes in `W`. -/
structure SameMemory (W : ℕ → Prop) (m m' : Memory) : Prop where
  ty : m'.ty = m.ty
  allocator : m'.allocator = m.allocator
  length : m'.bytes.length = m.bytes.length
  byte : ∀ k, ¬W k → m'.bytes[k]? = m.bytes[k]?

/-- `s'` is `s` with more tables and memories, and with changes in `W`. -/
structure Store.Evolves (W : Footprint) (s s' : Store) : Prop where
  modules : s'.modules = s.modules
  maxModules : s'.maxModules = s.maxModules
  hostModules : s'.hostModules = s.hostModules
  zeroMemory : s'.zeroMemory = s.zeroMemory
  zeroTable : s'.zeroTable = s.zeroTable
  table : ∀ i t, s.tables[i]? = some t → ∃ t', s'.tables[i]? = some t' ∧ SameTable (W.table i) t t'
  fresh : ∀ i t', s.tables.length ≤ i → s'.tables[i]? = some t' →
    ∀ k e, t'[k]? = some e → e = .uninitialized ∨ W.table i k e
  memory : ∀ i m, s.memories[i]? = some m →
    ∃ m', s'.memories[i]? = some m' ∧ SameMemory (W.byte i) m m'
  /-- A new memory has its initial pages. -/
  added : ∀ i m', s.memories.length ≤ i → s'.memories[i]? = some m' →
    Memory.initialSize m'.ty ≤ m'.len

/-- What calls need to know of a function; its code may be missing. -/
def Func.decl (f : Func) : Idx × ℕ × ResultType := (f.ty, f.parameterSize, f.returnTy)

/-- `m'` is `m` with the fields of a section set. -/
structure Module.Changes (kind : SectionKind) (m m' : Module) : Prop where
  name : m'.name = m.name
  types : kind ≠ .type → m'.types = m.types
  imports : kind ≠ .import_ → m'.imports = m.imports
  decls : kind ≠ .function → m'.functions.map Func.decl = m.functions.map Func.decl
  functions : kind ≠ .function → kind ≠ .code → m'.functions = m.functions
  table : kind ≠ .import_ → kind ≠ .table → m'.table = m.table
  memory : kind ≠ .import_ → kind ≠ .memory → m'.memory = m.memory
  globals : kind ≠ .global → m'.globals = m.globals
  exports : kind ≠ .export_ → m'.exports = m.exports
  start : kind ≠ .start → m'.start = m.start

variable {W : Footprint} {kind : SectionKind}

theorem SameTable.refl (P : ℕ → TableElement → Prop) (t : List TableElement) : SameTable P t t :=
  ⟨rfl, fun _ => Or.inl rfl⟩

theorem SameTable.trans {P : ℕ → TableElement → Prop} {t u v : List TableElement}
    (h : SameTable P t u) (h' : SameTable P u v) : SameTable P t v := by
  refine ⟨h'.length.trans h.length, fun k => ?_⟩
  rcases h'.entry k with heq | hw
  · rw [heq]
    exact h.entry k
  · exact Or.inr hw

/-- One entry is replaced. -/
theorem SameTable.set {P : ℕ → TableElement → Prop} {t : List TableElement} {k : ℕ}
    {e : TableElement} (h : P k e) : SameTable P t (t.set k e) := by
  refine ⟨List.length_set, fun i => ?_⟩
  by_cases hi : k = i
  · subst hi
    by_cases hk : k < t.length
    · exact Or.inr ⟨e, List.getElem?_set_self hk, h⟩
    · rw [List.set_eq_of_length_le (Nat.le_of_not_lt hk)]
      exact Or.inl rfl
  · exact Or.inl (List.getElem?_set_ne hi)

theorem SameMemory.refl (P : ℕ → Prop) (m : Memory) : SameMemory P m m :=
  ⟨rfl, rfl, rfl, fun _ _ => rfl⟩

theorem SameMemory.trans {P : ℕ → Prop} {m n o : Memory} (h : SameMemory P m n)
    (h' : SameMemory P n o) : SameMemory P m o :=
  ⟨h'.ty.trans h.ty, h'.allocator.trans h.allocator, h'.length.trans h.length,
    fun k hk => (h'.byte k hk).trans (h.byte k hk)⟩

namespace Store.Evolves

theorem refl (W : Footprint) (s : Store) : s.Evolves W s where
  modules := rfl
  maxModules := rfl
  hostModules := rfl
  zeroMemory := rfl
  zeroTable := rfl
  table _ t h := ⟨t, h, .refl _ t⟩
  fresh _ _ hi h := absurd (List.getElem?_eq_some_iff.1 h).1 (Nat.not_lt.2 hi)
  memory _ m h := ⟨m, h, .refl _ m⟩
  added _ _ hi h := absurd (List.getElem?_eq_some_iff.1 h).1 (Nat.not_lt.2 hi)

theorem trans {s t u : Store} (h : s.Evolves W t) (h' : t.Evolves W u) : s.Evolves W u where
  modules := h'.modules.trans h.modules
  maxModules := h'.maxModules.trans h.maxModules
  hostModules := h'.hostModules.trans h.hostModules
  zeroMemory := h'.zeroMemory.trans h.zeroMemory
  zeroTable := h'.zeroTable.trans h.zeroTable
  table i a ha := by
    obtain ⟨b, hb, hab⟩ := h.table i a ha
    obtain ⟨c, hc, hbc⟩ := h'.table i b hb
    exact ⟨c, hc, hab.trans hbc⟩
  fresh i c hi hc k e he := by
    cases hb : t.tables[i]? with
    | none => exact h'.fresh i c (List.getElem?_eq_none_iff.1 hb) hc k e he
    | some b =>
        obtain ⟨c', hc', hbc⟩ := h'.table i b hb
        obtain rfl : c' = c := Option.some.inj (hc'.symm.trans hc)
        rcases hbc.entry k with heq | ⟨e', he', hw⟩
        · exact h.fresh i b hi hb k e (heq.symm.trans he)
        · obtain rfl : e' = e := Option.some.inj (he'.symm.trans he)
          exact Or.inr hw
  memory i a ha := by
    obtain ⟨b, hb, hab⟩ := h.memory i a ha
    obtain ⟨c, hc, hbc⟩ := h'.memory i b hb
    exact ⟨c, hc, hab.trans hbc⟩
  added i c hi hc := by
    cases hb : t.memories[i]? with
    | none => exact h'.added i c (List.getElem?_eq_none_iff.1 hb) hc
    | some b =>
        obtain ⟨c', hc', hbc⟩ := h'.memory i b hb
        obtain rfl : c' = c := Option.some.inj (hc'.symm.trans hc)
        rw [hbc.ty, Memory.len, hbc.length]
        exact h.added i b hi hb

theorem tables_le {s t : Store} (h : s.Evolves W t) : s.tables.length ≤ t.tables.length := by
  by_contra hlt
  obtain ⟨u, hu, -⟩ := h.table _ _ (List.getElem?_eq_getElem (Nat.lt_of_not_le hlt))
  exact Nat.lt_irrefl _ (List.getElem?_eq_some_iff.1 hu).1

theorem memories_le {s t : Store} (h : s.Evolves W t) :
    s.memories.length ≤ t.memories.length := by
  by_contra hlt
  obtain ⟨u, hu, -⟩ := h.memory _ _ (List.getElem?_eq_getElem (Nat.lt_of_not_le hlt))
  exact Nat.lt_irrefl _ (List.getElem?_eq_some_iff.1 hu).1

/-- A table is added. -/
theorem addTable (s : Store) (n : ℕ) :
    s.Evolves W { s with tables := s.tables ++ [List.replicate n .uninitialized] } := by
  refine ⟨rfl, rfl, rfl, rfl, rfl, fun i u hu => ⟨u, ?_, .refl _ u⟩, fun i u hi hu k e he => ?_,
    fun i m hm => ⟨m, hm, .refl _ m⟩,
    fun i u hi hu => absurd (List.getElem?_eq_some_iff.1 hu).1 (Nat.not_lt.2 hi)⟩
  · rw [List.getElem?_append_left (List.getElem?_eq_some_iff.1 hu).1, hu]
  · rw [List.getElem?_append_right hi, List.getElem?_singleton] at hu
    split at hu
    · cases hu
      exact Or.inl (List.eq_of_mem_replicate (List.mem_of_getElem? he))
    · cases hu

theorem addMemory (s : Store) {m : Memory} (h : Memory.initialSize m.ty ≤ m.len) :
    s.Evolves W { s with memories := s.memories ++ [m] } := by
  refine ⟨rfl, rfl, rfl, rfl, rfl, fun i t ht => ⟨t, ht, .refl _ t⟩,
    fun i u hi hu => absurd (List.getElem?_eq_some_iff.1 hu).1 (Nat.not_lt.2 hi),
    fun i n hn => ⟨n, ?_, .refl _ n⟩, fun i n hi hn => ?_⟩
  · rw [List.getElem?_append_left (List.getElem?_eq_some_iff.1 hn).1, hn]
  · rw [List.getElem?_append_right hi, List.getElem?_singleton] at hn
    split at hn
    · cases hn
      exact h
    · cases hn

theorem setTable {s : Store} {table : TableRef} {t t' : List TableElement}
    (ht : s.tables[table]? = some t) (h : SameTable (W.table table) t t') :
    s.Evolves W (s.setTable table t') := by
  have hlt := (List.getElem?_eq_some_iff.1 ht).1
  refine ⟨rfl, rfl, rfl, rfl, rfl, fun i u hu => ?_, fun i u hi hu => ?_,
    fun i m hm => ⟨m, hm, .refl _ m⟩,
    fun i u hi hu => absurd (List.getElem?_eq_some_iff.1 hu).1 (Nat.not_lt.2 hi)⟩
  · by_cases hi : table = i
    · subst hi
      obtain rfl : t = u := Option.some.inj (ht.symm.trans hu)
      exact ⟨t', List.getElem?_set_self hlt, h⟩
    · exact ⟨u, (List.getElem?_set_ne hi).trans hu, .refl _ u⟩
  · have hlt' := (List.getElem?_eq_some_iff.1 hu).1
    rw [Store.setTable, List.length_set] at hlt'
    exact absurd hlt' (Nat.not_lt.2 hi)

theorem setMemory {s : Store} {mem : MemRef} {m m' : Memory}
    (hm : s.memories[mem]? = some m) (h : SameMemory (W.byte mem) m m') :
    s.Evolves W (s.setMemory mem m') := by
  have hlt := (List.getElem?_eq_some_iff.1 hm).1
  refine ⟨rfl, rfl, rfl, rfl, rfl, fun i t ht => ⟨t, ht, .refl _ t⟩,
    fun i u hi hu => absurd (List.getElem?_eq_some_iff.1 hu).1 (Nat.not_lt.2 hi),
    fun i n hn => ?_, fun i n hi hn => ?_⟩
  · by_cases hi : mem = i
    · subst hi
      obtain rfl : m = n := Option.some.inj (hm.symm.trans hn)
      exact ⟨m', List.getElem?_set_self hlt, h⟩
    · exact ⟨n, (List.getElem?_set_ne hi).trans hn, .refl _ n⟩
  · have hlt' := (List.getElem?_eq_some_iff.1 hn).1
    rw [Store.setMemory, List.length_set] at hlt'
    exact absurd hlt' (Nat.not_lt.2 hi)

end Store.Evolves

theorem Module.Changes.refl (kind : SectionKind) (m : Module) : m.Changes kind m :=
  ⟨rfl, fun _ => rfl, fun _ => rfl, fun _ => rfl, fun _ _ => rfl, fun _ _ => rfl, fun _ _ => rfl,
    fun _ => rfl, fun _ => rfl, fun _ => rfl⟩

theorem Module.Changes.trans {m n o : Module} (h : m.Changes kind n) (h' : n.Changes kind o) :
    m.Changes kind o where
  name := h'.name.trans h.name
  types hk := (h'.types hk).trans (h.types hk)
  imports hk := (h'.imports hk).trans (h.imports hk)
  decls hk := (h'.decls hk).trans (h.decls hk)
  functions hk hk' := (h'.functions hk hk').trans (h.functions hk hk')
  table hk hk' := (h'.table hk hk').trans (h.table hk hk')
  memory hk hk' := (h'.memory hk hk').trans (h.memory hk hk')
  globals hk := (h'.globals hk).trans (h.globals hk)
  exports hk := (h'.exports hk).trans (h.exports hk)
  start hk := (h'.start hk).trans (h.start hk)

/-! ### Linked stores stay linked -/

section Linked

variable {s t : Store} (h : s.Evolves W t)

include h

theorem Store.Evolves.module? (r : ModuleRef) : t.module? r = s.module? r := by
  rw [Store.module?, Store.module?, h.modules]

theorem Store.Evolves.hostModule? (r : HostModuleRef) : t.hostModule? r = s.hostModule? r := by
  rw [Store.hostModule?, Store.hostModule?, h.hostModules]

theorem Store.Evolves.ownedTable? (r : ModuleRef) : t.ownedTable? r = s.ownedTable? r := by
  rw [Store.ownedTable?, Store.ownedTable?, h.module?]

theorem Store.Evolves.ownedMemory? (r : ModuleRef) : t.ownedMemory? r = s.ownedMemory? r := by
  rw [Store.ownedMemory?, Store.ownedMemory?, h.module?]

theorem Store.Evolves.hostTable? (r : HostRef) : t.hostTable? r = s.hostTable? r := by
  rw [Store.hostTable?, Store.hostTable?, h.hostModule?]

theorem Store.Evolves.hostMemory? (r : HostRef) : t.hostMemory? r = s.hostMemory? r := by
  rw [Store.hostMemory?, Store.hostMemory?, h.hostModule?]

theorem Store.Evolves.tableOf? (kind : TableKind) : t.tableOf? kind = s.tableOf? kind := by
  cases kind with
  | owned => rfl
  | import_ r => rw [Store.tableOf?, Store.tableOf?, h.ownedTable?]
  | importHost r => rw [Store.tableOf?, Store.tableOf?, h.hostTable?]

theorem Store.Evolves.memoryOf? (kind : MemoryKind) : t.memoryOf? kind = s.memoryOf? kind := by
  cases kind with
  | owned => rfl
  | import_ r => rw [Store.memoryOf?, Store.memoryOf?, h.ownedMemory?]
  | importHost r => rw [Store.memoryOf?, Store.memoryOf?, h.hostMemory?]

theorem Store.Evolves.keeps : s.Keeps t where
  module r m hm := ⟨m, (h.module? r).trans hm, .refl m⟩
  hostModules := h.hostModules
  tables_le := h.tables_le
  memories_le := h.memories_le
  memType mem ty hty := by
    obtain ⟨m, hm, hmty⟩ := Option.map_eq_some_iff.1 hty
    obtain ⟨m', hm', hsame⟩ := h.memory mem m hm
    rw [Store.memType?, hm', Option.map_some, hsame.ty, hmty]

theorem Store.Linked.evolves (hs : s.Linked) : t.Linked where
  modules_le := h.modules ▸ hs.modules_le
  hostModules_le := h.hostModules ▸ hs.hostModules_le
  modules m hm := (hs.modules m (h.modules ▸ hm)).keeps h.keeps
  hostModules hm hhm := (hs.hostModules hm (h.hostModules ▸ hhm)).keeps h.keeps
  zeroMemory := h.zeroMemory ▸ Nat.lt_of_lt_of_le hs.zeroMemory h.memories_le
  zeroTable := h.zeroTable ▸ Nat.lt_of_lt_of_le hs.zeroTable h.tables_le

end Linked

/-! ### Inside a section -/

/-- What a section of the kind needs so as not to panic: types are not replaced
under the functions that use them. -/
structure LoadState.Ready (kind : SectionKind) (s : LoadState) : Prop where
  linked : s.Linked
  types : kind = .type → s.module.functions = []

/-- A memory that the module owns in `s` is one that it owned in `s₀`, or a new one. -/
def LoadState.Owns (s₀ s : LoadState) : Prop :=
  ∀ mem, s.module.memory = some (.owned mem) →
    s₀.module.memory = some (.owned mem) ∨ s₀.store.memories.length ≤ mem

theorem LoadState.Owns.trans {s t u : LoadState} (h : s.Owns t) (h' : t.Owns u)
    (hle : s.store.memories.length ≤ t.store.memories.length) : s.Owns u := by
  intro mem hmem
  obtain hmem | hmem := h' mem hmem
  · exact h mem hmem
  · exact .inr (Nat.le_trans hle hmem)

/-- `s` is a state inside a section that started in `s₀`. -/
structure LoadState.Within (W : Footprint) (kind : SectionKind) (s₀ s : LoadState) : Prop where
  wasm : s₀.wasm.Advances s.wasm
  code : s₀.code.Extends s.code
  store : s₀.store.Evolves W s.store
  module : s₀.module.Changes kind s.module
  linked : s₀.Ready kind → s.Linked
  owns : s₀.Owns s

variable {α β : Type} {s₀ : LoadState}

theorem LoadState.Within.refl (s : LoadState) : s.Within W kind s :=
  ⟨.refl _, .refl _, .refl _ _, .refl _ _, fun h => h.linked, fun _ => .inl⟩

theorem LoadState.Within.continues {s t : LoadState} (h : s₀.Within W kind s)
    (h' : s.Continues t) : s₀.Within W kind t := by
  refine ⟨h.wasm.trans h'.wasm, h.code.trans h'.code, ?_, ?_, fun hs => h'.linked (h.linked hs),
    fun mem => ?_⟩
  · rw [h'.store]
    exact h.store
  · rw [h'.module]
    exact h.module
  · rw [h'.module]
    exact h.owns mem

theorem LoadState.Continues.within {s : LoadState} (h : s₀.Continues s) : s₀.Within W kind s :=
  (LoadState.Within.refl s₀).continues h

theorem LoadState.Within.ready {s : LoadState} (h : s₀.Within W kind s) (hs : s₀.Ready kind) :
    s.Ready kind :=
  ⟨h.linked hs, fun hkind =>
    (h.module.functions (by rw [hkind]; decide) (by rw [hkind]; decide)).trans
    (hs.types hkind)⟩

theorem LoadState.Within.trans {s t : LoadState} (h : s₀.Within W kind s)
    (h' : s.Within W kind t) : s₀.Within W kind t :=
  ⟨h.wasm.trans h'.wasm, h.code.trans h'.code, h.store.trans h'.store, h.module.trans h'.module,
    fun hs => h'.linked (h.ready hs), h.owns.trans h'.owns h.store.memories_le⟩

/-- A change of the module alone. -/
theorem LoadState.Within.setModule {s : LoadState} {m : Module} (h : s₀.Within W kind s)
    (hchange : s.module.Changes kind m) (hsound : s₀.Ready kind → m.Sound s.store)
    (howns : s₀.Owns { s with module := m }) : s₀.Within W kind { s with module := m } :=
  ⟨h.wasm, h.code, h.store, h.module.trans hchange, fun hs => ⟨(h.linked hs).store, hsound hs⟩,
    howns⟩

/-- A change of the store alone. -/
theorem LoadState.Within.setStore {s : LoadState} {store : Store} (h : s₀.Within W kind s)
    (hevolves : s.store.Evolves W store) : s₀.Within W kind { s with store := store } :=
  ⟨h.wasm, h.code, h.store.trans hevolves, h.module, fun hs =>
    ⟨(h.linked hs).store.evolves hevolves, (h.linked hs).module.keeps hevolves.keeps⟩, h.owns⟩

/-- A step inside a section that started in `s₀`, from a state in `P` into one in `Q`. -/
def InSection (W : Footprint) (kind : SectionKind) (s₀ : LoadState) (P : LoadState → Prop)
    (x : LoadM α) (Q : α → LoadState → Prop) : Prop :=
  Guarded (s₀.Ready kind) P x (fun a s => s₀.Within W kind s ∧ Q a s) fun _ => s₀.Within W kind

namespace InSection

variable {P : LoadState → Prop} {Q : α → LoadState → Prop}

theorem pure {a : α} (h : ∀ s, P s → s₀.Within W kind s ∧ Q a s) :
    InSection W kind s₀ P (Pure.pure a) Q :=
  h

theorem throw {e : ValidationError} (h : ∀ s, P s → s₀.Within W kind s) :
    InSection W kind s₀ P (Fallible.throw e : LoadM α) Q :=
  h

theorem bind {M : α → LoadState → Prop} {Q : β → LoadState → Prop} {x : LoadM α}
    {f : α → LoadM β} (hx : InSection W kind s₀ P x M)
    (hf : ∀ a, InSection W kind s₀ (fun s => s₀.Within W kind s ∧ M a s) (f a) Q) :
    InSection W kind s₀ P (x >>= f) Q :=
  Guarded.bind hx hf

/-- A quiet start. -/
theorem quiet_start {M : α → Prop} {Q : β → LoadState → Prop} {x : LoadM α} {f : α → LoadM β}
    (hx : Quiet s₀ x M) (hf : ∀ a, M a → InSection W kind s₀ s₀.Continues (f a) Q) :
    InSection W kind s₀ s₀.Continues (x >>= f) Q := by
  refine Guarded.bind (Guarded.weaken hx (fun h => h.linked) (fun _ hs => hs) (fun _ _ hs => hs)
    fun _ _ hs => hs.within) fun a s hs => ?_
  exact hf a hs.2 s hs.1

/-- A step of a run from one state. -/
theorem bind_run {M : α → LoadState → Prop} {Q : β → LoadState → Prop} {x : LoadM α}
    {f : α → LoadM β} {s : LoadState} (hx : InSection W kind s₀ (fun t => t = s) x M)
    (hf : ∀ a t, x s = .ok a t → s₀.Within W kind t → M a t →
      InSection W kind s₀ (fun u => u = t) (f a) Q) :
    InSection W kind s₀ (fun t => t = s) (x >>= f) Q :=
  Guarded.bind_run hx fun a t hr ht => hf a t hr ht.1 ht.2

/-- A quiet step in the middle. -/
theorem quiet {M : α → Prop} {x : LoadM α} (hP : ∀ s, P s → s₀.Within W kind s)
    (hx : ∀ s, P s → Quiet s x M) :
    InSection W kind s₀ P x fun a t => M a ∧ ∃ s, P s ∧ s.Continues t := by
  intro s hs
  have h := hx s hs s (.refl s)
  cases hr : x s <;> rw [hr] at h
  · exact ⟨(hP s hs).continues h.1, h.2, s, hs, h.1⟩
  · exact (hP s hs).continues h
  · exact fun hready => h ((hP s hs).linked hready)
  · exact h

theorem quiet_bind {M : α → Prop} {Q : β → LoadState → Prop} {x : LoadM α} {f : α → LoadM β}
    (hx : ∀ s, s₀.Within W kind s → Quiet s x M)
    (hf : ∀ a, M a → InSection W kind s₀ (s₀.Within W kind) (f a) Q) :
    InSection W kind s₀ (s₀.Within W kind) (x >>= f) Q :=
  bind (quiet (fun _ hs => hs) hx) fun a s hs => hf a hs.2.1 s hs.1

theorem ite {p : Prop} [Decidable p] {x y : LoadM α} (hx : p → InSection W kind s₀ P x Q)
    (hy : ¬p → InSection W kind s₀ P y Q) : InSection W kind s₀ P (if p then x else y) Q :=
  Guarded.ite hx hy

theorem get_bind {f : LoadState → LoadM α}
    (h : ∀ s, P s → InSection W kind s₀ (fun t => t = s) (f s) Q) :
    InSection W kind s₀ P (get >>= f) Q :=
  Guarded.get_bind h

/-- A look at the state whose result stays true. -/
theorem get_within {f : LoadState → LoadM α}
    (h : ∀ s, s₀.Within W kind s → InSection W kind s₀ (s₀.Within W kind) (f s) Q) :
    InSection W kind s₀ (s₀.Within W kind) (get >>= f) Q :=
  fun s hs => by
    rw [bind_of_ok (get_apply s)]
    exact h s hs s hs

/-- A look at the state before anything has changed. -/
theorem get_start {f : LoadState → LoadM α}
    (h : ∀ s, s.store = s₀.store → s.module = s₀.module →
      InSection W kind s₀ s₀.Continues (f s) Q) :
    InSection W kind s₀ s₀.Continues (get >>= f) Q :=
  fun s hs => by
    rw [bind_of_ok (get_apply s)]
    exact h s hs.store hs.module s hs

theorem unwrap {o : Option α} (hsome : s₀.Ready kind → o.isSome)
    (h : ∀ a, o = some a → ∀ s, P s → s₀.Within W kind s ∧ Q a s) :
    InSection W kind s₀ P (Fallible.unwrap o) Q := by
  cases o with
  | none => exact fun _ _ hready => nomatch hsome hready
  | some a => exact pure (h a rfl)

theorem weaken {P' : LoadState → Prop} {Q' : α → LoadState → Prop} {x : LoadM α}
    (h : InSection W kind s₀ P x Q) (hP : ∀ s, P' s → P s) (hQ : ∀ a s, Q a s → Q' a s) :
    InSection W kind s₀ P' x Q' :=
  Guarded.weaken h id hP (fun a s hs => ⟨hs.1, hQ a s hs.2⟩) fun _ _ hs => hs

/-- The middle of a section is the start of the rest of the section. -/
theorem restart {x : LoadM α} {s : LoadState} (hs : s₀.Within W kind s)
    (h : InSection W kind s (fun t => t = s) x Q) :
    InSection W kind s₀ (fun t => t = s) x Q :=
  Guarded.weaken h hs.ready (fun _ ht => ht) (fun _ _ ht => ⟨hs.trans ht.1, ht.2⟩)
    fun _ _ ht => hs.trans ht

theorem forEach {f : α → LoadM Unit} (as : List α)
    (hf : ∀ a ∈ as, InSection W kind s₀ (s₀.Within W kind) (f a) fun _ _ => True) :
    InSection W kind s₀ (s₀.Within W kind) (Fallible.forEach as f) fun _ _ => True := by
  induction as with
  | nil => exact pure fun _ hs => ⟨hs, trivial⟩
  | cons a as ih =>
      refine bind (hf a List.mem_cons_self) fun _ s hs => ?_
      exact ih (fun b hb => hf b (List.mem_cons_of_mem a hb)) s hs.1

end InSection

end SpaceWasm
