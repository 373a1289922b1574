import SpaceWasm.LoadFrame

/-!
# The sections of a module

Every section stays within its frame: `Section W kind s₀` says that the section
`x` which starts in `s₀` ends in a state within the frame of its kind. It neither
diverges nor, from a linked state, panics.
-/

namespace SpaceWasm

open Fallible

variable {α β : Type} {W : Footprint} {kind : SectionKind} {s₀ : LoadState}

/-! ### Quiet steps of sections -/

theorem quiet_readShortName : Quiet s₀ (decoding readShortName) fun _ => True :=
  quiet_decoding decoder_readShortName

theorem quiet_readName : Quiet s₀ Name.read fun _ => True := by
  refine .bind (quiet_readVec (quiet_decoding .readU8)) fun bytes _ => ?_
  exact .ite (fun _ => .pure trivial) fun _ => .throw _

theorem quiet_readFuncType : Quiet s₀ FuncType.read fun _ => True := by
  refine .bind (quiet_decoding .readU8) fun tag _ => .ite (fun _ => ?_) fun _ => .throw _
  refine .bind (quiet_readVec (quiet_decoding decoder_valType)) fun params _ => ?_
  refine .bind (quiet_readVec (quiet_decoding decoder_valType)) fun returns _ => ?_
  exact .ite (fun _ => .throw _) fun _ => .pure trivial

theorem quiet_readCustomSection (size : ℕ) : Quiet s₀ (readCustomSection size) fun _ => True := by
  refine .bind quiet_offset fun start _ => .bind quiet_readShortName fun name _ => ?_
  refine .bind quiet_offset fun stop _ => .ite (fun _ => .throw _) fun _ => ?_
  exact quiet_limited _ fun s₁ => quiet_decoding (decoder_skip _)

/-- An import of a linked store resolves to an entity of the type it asks for. -/
theorem quiet_readImport : Quiet s₀ Import.read fun i =>
    ∃ desc, s₀.Linked → i.Matches s₀.store s₀.module.types desc := by
  refine .bind quiet_readShortName fun moduleName _ => .bind quiet_readShortName fun name _ => ?_
  refine .bind (quiet_decoding decoder_importDesc) fun desc _ => .get_bind fun s _ hmodule => ?_
  refine .get_bind fun s' hstore _ => fun t ht => ?_
  have hlink := links_linkImport s'.store s.module moduleName name desc () trivial
  unfold zoom
  cases hr : linkImport s.module moduleName name desc s'.store () <;> rw [hr] at hlink
  · refine ⟨ht, desc, fun h => ?_⟩
    rw [hstore, hmodule] at hlink
    exact hlink h.store
  · exact ht
  · rw [hstore] at hlink
    exact fun h => hlink h.store
  · exact hlink

theorem quiet_readFuncDecl :
    Quiet s₀ readFuncDecl fun f => f.ty < s₀.module.types.length := by
  refine .bind (quiet_decoding decoder_idx) fun tyIdx _ => .get_bind fun s _ hmodule => ?_
  rw [hmodule]
  refine .bind (.okOr _ (P := fun ty => s₀.module.types[tyIdx]? = some ty) fun _ h => h)
    fun ty hty => ?_
  refine .ite (fun _ => .throw _) fun _ => .ite (fun _ => .throw _) fun _ => .pure ?_
  exact (List.getElem?_eq_some_iff.1 hty).1

theorem quiet_readGlobal (env : LoadEnv) : Quiet s₀ (Global.read env) fun _ => True := by
  refine .bind (quiet_decoding decoder_globalType) fun type _ => ?_
  refine .bind (quiet_readConstant env) fun init _ => ?_
  exact .ite (fun _ => .throw _) fun _ => .pure trivial

theorem quiet_readExport : Quiet s₀ Export.read fun _ => True := by
  refine .bind quiet_readName fun name _ =>
    .bind (quiet_decoding decoder_exportDesc) fun desc _ => ?_
  refine .get_bind fun s _ _ => ?_
  exact .bind (.ofExcept (P := fun _ => True) fun _ _ => trivial) fun _ _ => .pure trivial

theorem quiet_readExports (n : ℕ) (out : List Export) :
    Quiet s₀ (readExports n out) fun _ => True := by
  induction n generalizing out with
  | zero => exact .pure trivial
  | succ n ih =>
      exact .bind quiet_readExport fun e _ => .ite (fun _ => .throw _) fun _ => ih _

theorem quiet_checkStart (ty : FuncType) : Quiet s₀ (checkStart ty) fun _ => True :=
  .ite (fun _ => .throw _) fun _ => .pure trivial

/-! ### Sections that set a field of the module -/

/-- The last step of a section that sets a field of the module. -/
theorem InSection.setModule {f : LoadState → LoadState}
    (h : ∀ s, s₀.Continues s → ∃ m, f s = { s with module := m } ∧ s₀.module.Changes kind m ∧
      (s₀.Ready kind → m.Sound s₀.store) ∧ (m.memory = s₀.module.memory ∨ m.memory = none)) :
    InSection W kind s₀ s₀.Continues (modify f) fun _ _ => True := by
  intro s hs
  obtain ⟨m, hf, hchange, hsound, hmemory⟩ := h s hs
  rw [modify_apply, hf]
  rw [← hs.module] at hchange
  rw [← hs.store] at hsound
  refine ⟨hs.within.setModule hchange hsound fun mem hmem => ?_, trivial⟩
  obtain hsame | hnone := hmemory
  · exact .inl (hsame.symm.trans hmem)
  · cases hnone.symm.trans hmem

theorem readCustomSection_frame (size : ℕ) :
    InSection W .custom s₀ s₀.Continues (readCustomSection size) fun _ _ => True :=
  Guarded.weaken (quiet_readCustomSection size) (fun h => h.linked) (fun _ hs => hs)
    (fun _ _ hs => ⟨hs.1.within, trivial⟩) fun _ _ hs => hs.within

theorem readTypeSection_frame :
    InSection W .type s₀ s₀.Continues readTypeSection fun _ _ => True := by
  refine .quiet_start (quiet_readVec quiet_readFuncType) fun types _ => .setModule fun s hs => ?_
  refine ⟨{ s₀.module with types := types }, by rw [hs.module], ?_, fun hready => ?_, .inl rfl⟩
  · exact { Module.Changes.refl .type s₀.module with types := fun h => absurd rfl h }
  · have hsound := hready.linked.module
    refine ⟨hsound.imports, hsound.functions_le, ?_, hsound.globals_le, hsound.table,
      hsound.memory⟩
    change ∀ f ∈ s₀.module.functions, _
    rw [hready.types rfl]
    exact nofun

theorem readFunctionSection_frame :
    InSection W .function s₀ s₀.Continues readFunctionSection fun _ _ => True := by
  refine .quiet_start (quiet_readVec quiet_readFuncDecl) fun functions htypes => ?_
  refine .ite (fun _ => .throw fun _ hs => hs.within) fun hle => .setModule fun s hs => ?_
  refine ⟨{ s₀.module with functions := functions }, by rw [hs.module], ?_, fun hready => ?_,
    .inl rfl⟩
  · exact { Module.Changes.refl .function s₀.module with
      decls := fun h => absurd rfl h, functions := fun h => absurd rfl h }
  · have hsound := hready.linked.module
    exact ⟨hsound.imports, Nat.le_of_not_lt hle, htypes, hsound.globals_le, hsound.table,
      hsound.memory⟩

theorem readGlobalSection_frame (env : LoadEnv) :
    InSection W .global s₀ s₀.Continues (readGlobalSection env) fun _ _ => True := by
  refine .quiet_start (quiet_readVec (quiet_readGlobal env)) fun globals _ => ?_
  refine .ite (fun _ => .throw fun _ hs => hs.within) fun hle => .setModule fun s hs => ?_
  refine ⟨{ s₀.module with globals := globals }, by rw [hs.module], ?_, fun hready => ?_, .inl rfl⟩
  · exact { Module.Changes.refl .global s₀.module with globals := fun h => absurd rfl h }
  · have hsound := hready.linked.module
    exact ⟨hsound.imports, hsound.functions_le, hsound.types, Nat.le_of_not_lt hle, hsound.table,
      hsound.memory⟩

theorem readExportSection_frame :
    InSection W .export_ s₀ s₀.Continues readExportSection fun _ _ => True := by
  refine .quiet_start (quiet_decoding decoder_readU32) fun len _ => ?_
  refine .quiet_start (quiet_newVec _) fun _ _ => ?_
  refine .quiet_start (quiet_readExports _ _) fun exports _ => .setModule fun s hs => ?_
  refine ⟨{ s₀.module with exports := exports }, by rw [hs.module], ?_, fun hready => ?_, .inl rfl⟩
  · exact { Module.Changes.refl .export_ s₀.module with exports := fun h => absurd rfl h }
  · have hsound := hready.linked.module
    exact ⟨hsound.imports, hsound.functions_le, hsound.types, hsound.globals_le, hsound.table,
      hsound.memory⟩

theorem readStartSection_frame :
    InSection W .start s₀ s₀.Continues readStartSection fun _ _ => True := by
  have hset : ∀ r, InSection W .start s₀ s₀.Continues
      (modify fun s => { s with module := { s.module with start := some r } }) fun _ _ => True := by
    refine fun r => .setModule fun s hs => ?_
    refine ⟨{ s₀.module with start := some r }, by rw [hs.module], ?_, fun hready => ?_, .inl rfl⟩
    · exact { Module.Changes.refl .start s₀.module with start := fun h => absurd rfl h }
    · have hsound := hready.linked.module
      exact ⟨hsound.imports, hsound.functions_le, hsound.types, hsound.globals_le, hsound.table,
        hsound.memory⟩
  refine .quiet_start (quiet_decoding decoder_idx) fun idx _ =>
    .get_start fun s hstore hmodule => ?_
  rw [hmodule, hstore]
  refine .quiet_start (.okOr _ (P := fun r => s₀.module.getFuncRef idx = some r) fun _ h => h)
    fun r hr => ?_
  have hlinked := fun h : s₀.Linked => h.module.linked.funcs idx r hr
  cases r with
  | module index =>
      refine .quiet_start (.unwrap (P := fun f => s₀.module.functions[index.toNat]? = some f)
        (fun h => ?_) fun _ h => h) fun f hf => ?_
      · obtain ⟨f, ty, hf, hty⟩ := Store.refFuncType?_isSome (hlinked h)
        rw [hf]
        rfl
      · refine .quiet_start (.unwrap (P := fun _ => True) (fun h => ?_) fun _ _ => trivial)
          fun ty _ => .quiet_start (quiet_checkStart ty) fun _ _ => hset _
        obtain ⟨f', ty, hf', hty⟩ := Store.refFuncType?_isSome (hlinked h)
        cases hf.symm.trans hf'
        rw [hty]
        rfl
  | host m index => exact .throw fun _ hs => hs.within
  | extern_ m index =>
      refine .quiet_start (.unwrap (P := fun em => s₀.store.module? m = some em)
        (fun h => ?_) fun _ h => h) fun em hem => ?_
      · obtain ⟨em, f, ty, hem, -, -⟩ := Store.refFuncType?_isSome (hlinked h)
        rw [hem]
        rfl
      refine .quiet_start (.unwrap (P := fun f => em.functions[index.toNat]? = some f)
        (fun h => ?_) fun _ h => h) fun f hf => ?_
      · obtain ⟨em', f, ty, hem', hf, -⟩ := Store.refFuncType?_isSome (hlinked h)
        cases hem.symm.trans hem'
        rw [hf]
        rfl
      · refine .quiet_start (.unwrap (P := fun _ => True) (fun h => ?_) fun _ _ => trivial)
          fun ty _ => .quiet_start (quiet_checkStart ty) fun _ _ => hset _
        obtain ⟨em', f', ty, hem', hf', hty⟩ := Store.refFuncType?_isSome (hlinked h)
        cases hem.symm.trans hem'
        cases hf.symm.trans hf'
        rw [hty]
        rfl

/-! ### Imports -/

/-- A designated memory exists. -/
theorem Import.Designates.liveMemory {s : Store} {m : ModuleRef} {i : U16}
    (h : (Import.memory m i).Designates s) :
    ∃ mem, s.memoryOf? (.import_ m) = some mem ∧ mem < s.memories.length := by
  have h : (s.importMemory? (.memory m i)).isSome := by
    simpa [Import.Designates, Store.importFunc?, Store.importGlobal?, Store.importTable?] using h
  obtain ⟨ty, hty⟩ := Option.isSome_iff_exists.1 h
  obtain ⟨mem, hmem, hty⟩ := Option.bind_eq_some_iff.1 hty
  obtain ⟨bytes, hbytes, -⟩ := Option.map_eq_some_iff.1 hty
  exact ⟨mem, hmem, (List.getElem?_eq_some_iff.1 hbytes).1⟩

theorem Import.Designates.liveHostMemory {s : Store} {m : HostModuleRef} {i : U16}
    (h : (Import.hostMemory m i).Designates s) :
    ∃ mem, s.memoryOf? (.importHost ⟨m, i⟩) = some mem ∧ mem < s.memories.length := by
  have h : (s.importMemory? (.hostMemory m i)).isSome := by
    simpa [Import.Designates, Store.importFunc?, Store.importGlobal?, Store.importTable?] using h
  obtain ⟨ty, hty⟩ := Option.isSome_iff_exists.1 h
  obtain ⟨mem, hmem, hty⟩ := Option.bind_eq_some_iff.1 hty
  obtain ⟨bytes, hbytes, -⟩ := Option.map_eq_some_iff.1 hty
  exact ⟨mem, hmem, (List.getElem?_eq_some_iff.1 hbytes).1⟩

theorem Import.Designates.liveTable {s : Store} {m : ModuleRef} {i : U16} (hs : s.Linked)
    (h : (Import.table m i).Designates s) :
    ∃ table, s.tableOf? (.import_ m) = some table ∧ table < s.tables.length := by
  obtain ⟨⟨table, ty⟩, htable⟩ := Option.isSome_iff_exists.1 h.table
  refine ⟨table, by rw [Store.tableOf?, htable]; rfl, ?_⟩
  obtain ⟨em, hem, htable⟩ := Option.bind_eq_some_iff.1 htable
  split at htable
  · next t ty' hkind =>
    cases htable
    obtain ⟨table', heq, hlt⟩ := (hs.module hem).table _ hkind
    cases heq
    exact hlt
  · cases htable

theorem Import.Designates.liveHostTable {s : Store} {m : HostModuleRef} {i : U16} (hs : s.Linked)
    (h : (Import.hostTable m i).Designates s) :
    ∃ table, s.tableOf? (.importHost ⟨m, i⟩) = some table ∧ table < s.tables.length := by
  obtain ⟨sym, hsym⟩ := Option.isSome_iff_exists.1 h.hostTable
  refine ⟨sym.value, by rw [Store.tableOf?, hsym]; rfl, ?_⟩
  obtain ⟨hm, hhm, hsym⟩ := Option.bind_eq_some_iff.1 hsym
  exact (hs.hostModule hhm).table sym (List.mem_of_getElem? hsym)

theorem importMemory_frame {mem : MemoryKind} (himport : ∀ t, mem ≠ .owned t)
    (h : s₀.Ready .import_ → ∃ t, s₀.store.memoryOf? mem = some t ∧ t < s₀.store.memories.length) :
    InSection W .import_ s₀ (s₀.Within W .import_) (importMemory mem) fun _ _ => True := by
  refine .get_bind fun s hs => .ite (fun _ => .throw ?_) fun _ => ?_
  · rintro t rfl
    exact hs
  · refine fun t _ => ⟨hs.setModule ?_ (fun hready => ?_) fun t ht => ?_, trivial⟩
    · exact { Module.Changes.refl .import_ s.module with memory := fun h => absurd rfl h }
    · have hsound := (hs.linked hready).module
      refine ⟨hsound.imports, hsound.functions_le, hsound.types, hsound.globals_le, hsound.table,
        ?_⟩
      rintro kind ⟨⟩
      obtain ⟨t, ht, hlt⟩ := h hready
      exact ⟨t, (hs.store.memoryOf? mem).trans ht, Nat.lt_of_lt_of_le hlt hs.store.memories_le⟩
    · exact absurd (Option.some.inj ht) (himport t)

theorem importTable_frame {table : TableKind}
    (h : s₀.Ready .import_ → ∃ t, s₀.store.tableOf? table = some t ∧ t < s₀.store.tables.length) :
    InSection W .import_ s₀ (s₀.Within W .import_) (importTable table) fun _ _ => True := by
  refine .get_bind fun s hs => .ite (fun _ => .throw ?_) fun _ => ?_
  · rintro t rfl
    exact hs
  · refine fun t _ => ⟨hs.setModule ?_ (fun hready => ?_) hs.owns, trivial⟩
    · exact { Module.Changes.refl .import_ s.module with table := fun h => absurd rfl h }
    · have hsound := (hs.linked hready).module
      refine ⟨hsound.imports, hsound.functions_le, hsound.types, hsound.globals_le, ?_,
        hsound.memory⟩
      rintro kind ⟨⟩
      obtain ⟨t, ht, hlt⟩ := h hready
      exact ⟨t, (hs.store.tableOf? table).trans ht, Nat.lt_of_lt_of_le hlt hs.store.tables_le⟩

/-- The check that the entity of an import is there. -/
theorem present_frame {β : Type} (f : Store → Option β)
    (hf : ∀ s, s₀.Within W kind s → f s.store = f s₀.store)
    (h : s₀.Ready kind → (f s₀.store).isSome) :
    InSection W kind s₀ (fun s => s₀.Within W kind s ∧ True) (do
      let s ← get
      present (f s.store)) fun _ _ => True := by
  refine .get_bind fun s hs => .bind (M := fun _ _ => True) (.unwrap (fun hready => ?_) ?_)
    fun _ => .pure fun t ht => ht
  · rw [hf s hs.1]
    exact h hready
  · rintro a - t rfl
    exact hs

theorem resolveImport_frame {i : Import} (h : s₀.Ready .import_ → i.Designates s₀.store) :
    InSection W .import_ s₀ (s₀.Within W .import_) (resolveImport i) fun _ _ => True := by
  cases i with
  | memory m j =>
      refine .bind (importMemory_frame nofun fun hready => (h hready).liveMemory) fun _ => ?_
      refine present_frame (fun s => s.ownedMemory? m) (fun s hs => hs.store.ownedMemory? m)
        fun hready => ?_
      obtain ⟨mem, hmem, -⟩ := (h hready).liveMemory
      exact Option.isSome_iff_exists.2 ⟨mem, hmem⟩
  | hostMemory m j =>
      refine .bind (importMemory_frame nofun fun hready => (h hready).liveHostMemory) fun _ => ?_
      refine present_frame (fun s => s.hostMemory? ⟨m, j⟩) (fun s hs => hs.store.hostMemory? _)
        fun hready => ?_
      obtain ⟨mem, hmem, -⟩ := (h hready).liveHostMemory
      exact Option.isSome_iff_exists.2 ⟨mem, hmem⟩
  | table m j =>
      refine .bind (importTable_frame fun hready => (h hready).liveTable hready.linked.store)
        fun _ => ?_
      exact present_frame (fun s => s.ownedTable? m) (fun s hs => hs.store.ownedTable? m)
        fun hready => (h hready).table
  | hostTable m j =>
      refine .bind (importTable_frame fun hready => (h hready).liveHostTable hready.linked.store)
        fun _ => ?_
      exact present_frame (fun s => s.hostTable? ⟨m, j⟩) (fun s hs => hs.store.hostTable? _)
        fun hready => (h hready).hostTable
  | func | hostFunc | global | hostGlobal => exact .pure fun s hs => ⟨hs, trivial⟩

theorem readImportSection_frame :
    InSection W .import_ s₀ s₀.Continues readImportSection fun _ _ => True := by
  refine .quiet_start (quiet_readVec quiet_readImport) fun imports hmatches => ?_
  have hdesignates : s₀.Ready .import_ → ∀ i ∈ imports, i.Designates s₀.store := by
    intro hready i hi
    obtain ⟨desc, hdesc⟩ := hmatches i hi
    exact (hdesc hready.linked).designates
  refine .bind (.setModule fun s hs => ?_) fun _ s hs => ?_
  · refine ⟨{ s₀.module with imports := imports }, by rw [hs.module], ?_, fun hready => ?_,
      .inl rfl⟩
    · exact { Module.Changes.refl .import_ s₀.module with imports := fun h => absurd rfl h }
    · have hsound := hready.linked.module
      exact ⟨hdesignates hready, hsound.functions_le, hsound.types, hsound.globals_le,
        hsound.table, hsound.memory⟩
  · exact InSection.forEach imports
      (fun i hi => resolveImport_frame fun hready => hdesignates hready i hi) s hs.1

/-! ### Tables and memories -/

theorem newTable_frame (n : ℕ) :
    InSection W kind s₀ s₀.Continues (newTable n) fun table s =>
      table < s.store.tables.length := by
  refine .quiet_start (quiet_allocate n) fun _ _ => .get_bind fun s hs => ?_
  refine .bind (M := fun _ t => t.store.tables.length = s.store.tables.length + 1) ?_ fun _ => ?_
  · exact fun _ _ => ⟨hs.within.setStore (.addTable s.store n), List.length_append⟩
  · refine .pure fun t ht => ⟨ht.1, ?_⟩
    rw [ht.2]
    exact Nat.lt_succ_self _

theorem newMemory_frame (env : LoadEnv) (ty : MemType) :
    InSection W kind s₀ s₀.Continues (newMemory env ty) fun mem s =>
      mem < s.store.memories.length ∧ s₀.store.memories.length ≤ mem := by
  refine .ite (fun _ => .throw fun _ hs => hs.within) fun _ => ?_
  refine .quiet_start (quiet_allocate 1) fun _ _ => .get_bind fun s hs => ?_
  refine .bind (M := fun _ t => t.store.memories.length = s.store.memories.length + 1) ?_
    fun _ => ?_
  · exact fun _ _ =>
      ⟨hs.within.setStore (.addMemory s.store (by simp [Memory.ofType, Memory.len])),
        List.length_append⟩
  · refine .pure fun t ht => ⟨ht.1, ?_, ?_⟩
    · rw [ht.2]
      exact Nat.lt_succ_self _
    · rw [hs.store]

theorem readTableSection_frame :
    InSection W .table s₀ s₀.Continues readTableSection fun _ _ => True := by
  refine .get_start fun s _ hmodule => .ite (fun _ => .throw fun _ hs => hs.within) fun _ => ?_
  refine .quiet_start (quiet_decoding decoder_readU32) fun n _ => .ite (fun _ => ?_) fun _ => ?_
  · refine .setModule fun s hs => ?_
    refine ⟨{ s₀.module with table := none }, by rw [hs.module], ?_, fun hready => ?_, .inl rfl⟩
    · exact { Module.Changes.refl .table s₀.module with table := fun _ h => absurd rfl h }
    · have hsound := hready.linked.module
      exact ⟨hsound.imports, hsound.functions_le, hsound.types, hsound.globals_le, nofun,
        hsound.memory⟩
  · refine .ite (fun _ => ?_) fun _ => .throw fun _ hs => hs.within
    refine .quiet_start (quiet_decoding decoder_tableType) fun ty _ => ?_
    refine .bind (newTable_frame _) fun table s hs =>
      ⟨hs.1.setModule ?_ (fun hready => ?_) hs.1.owns, trivial⟩
    · exact { Module.Changes.refl .table s.module with table := fun _ h => absurd rfl h }
    · have hsound := (hs.1.linked hready).module
      refine ⟨hsound.imports, hsound.functions_le, hsound.types, hsound.globals_le, ?_,
        hsound.memory⟩
      rintro kind ⟨⟩
      exact ⟨table, rfl, hs.2⟩

theorem readMemorySection_frame (env : LoadEnv) :
    InSection W .memory s₀ s₀.Continues (readMemorySection env) fun _ _ => True := by
  refine .quiet_start (quiet_decoding decoder_readU32) fun len _ => ?_
  refine .ite (fun _ => .throw fun _ hs => hs.within) fun _ => .ite (fun _ => ?_) fun _ => ?_
  · refine .setModule fun s hs => ?_
    refine ⟨{ s₀.module with memory := none }, by rw [hs.module], ?_, fun hready => ?_, .inr rfl⟩
    · exact { Module.Changes.refl .memory s₀.module with memory := fun _ h => absurd rfl h }
    · have hsound := hready.linked.module
      exact ⟨hsound.imports, hsound.functions_le, hsound.types, hsound.globals_le, hsound.table,
        nofun⟩
  · refine .get_start fun s _ hmodule => .ite (fun _ => .throw fun _ hs => hs.within) fun _ => ?_
    refine .quiet_start (quiet_decoding decoder_memType) fun ty _ => ?_
    refine .bind (newMemory_frame env ty) fun mem s hs => 
      ⟨hs.1.setModule ?_ (fun hready => ?_) fun t ht => ?_, trivial⟩
    · exact { Module.Changes.refl .memory s.module with memory := fun _ h => absurd rfl h }
    · have hsound := (hs.1.linked hready).module
      refine ⟨hsound.imports, hsound.functions_le, hsound.types, hsound.globals_le, hsound.table,
        ?_⟩
      rintro kind ⟨⟩
      exact ⟨mem, rfl, hs.2.1⟩
    · cases ht
      exact .inr hs.2.2

/-! ### Code -/

/-- A function of the module under construction is replaced by one that is called alike. -/
theorem LoadState.Within.setFunction {s : LoadState} {i : ℕ} {f : Func}
    (h : s₀.Within W .code s) (hf : (s.module.functions.map Func.decl)[i]? = some f.decl) :
    s₀.Within W .code
      { s with module := { s.module with functions := s.module.functions.set i f } } := by
  have hdecl : (s.module.functions.set i f).map Func.decl = s.module.functions.map Func.decl := by
    obtain ⟨hi, hget⟩ := List.getElem?_eq_some_iff.1 hf
    rw [List.map_set, ← hget, List.set_getElem_self]
  refine h.setModule ?_ (fun hready => ?_) h.owns
  · exact { Module.Changes.refl .code s.module with
      decls := fun _ => hdecl, functions := fun _ h => absurd rfl h }
  · have hsound := (h.linked hready).module
    refine ⟨hsound.imports, ?_, fun g hg => ?_, hsound.globals_le, hsound.table, hsound.memory⟩
    · rw [List.length_set]
      exact hsound.functions_le
    · have hmem : g.decl ∈ s.module.functions.map Func.decl := hdecl ▸ List.mem_map_of_mem hg
      obtain ⟨g', hg', heq⟩ := List.mem_map.1 hmem
      have hty : g'.ty = g.ty := congrArg Prod.fst heq
      rw [← hty]
      exact hsound.types g' hg'

theorem LoadState.Within.decls {s : LoadState} (h : s₀.Within W .code s) :
    s.module.functions.map Func.decl = s₀.module.functions.map Func.decl :=
  h.module.decls nofun

theorem setFunction_frame {i : ℕ} {f : Func}
    (hf : (s₀.module.functions.map Func.decl)[i]? = some f.decl) :
    InSection W .code s₀ (s₀.Within W .code) (setFunction i f) fun _ _ => True :=
  fun _ hs => ⟨hs.setFunction (hs.decls ▸ hf), trivial⟩

/-- The part of `read_function_code` that is limited to the size of the body. -/
def readFunctionBody (env : LoadEnv) (f : Func) : LoadM Func := do
  let locals ← readVec (decoding readLocals)
  let totalSize ← okOr (localsSize locals 0) .tooManyLocals
  let sizeInWords := totalSize / 4
  if 0xFFFF < sizeInWords then throw .tooManyLocals
  else do
    let f := { f with locals := locals, localSize := sizeInWords }
    let (expr, stackUsage) ← readExpr env f
    pure { f with expr := expr, stackUsage := stackUsage }

/-- The body of a function leaves its declaration alone. -/
theorem quiet_functionBody (env : LoadEnv) (f : Func) :
    Quiet s₀ (readFunctionBody env f) fun g => g.decl = f.decl := by
  refine .bind (quiet_readVec (quiet_decoding decoder_readLocals)) fun locals _ => ?_
  refine .bind (.okOr _ (P := fun _ => True) fun _ _ => trivial) fun totalSize _ => ?_
  refine .ite (fun _ => .throw _) fun _ => .bind (quiet_readExpr env _) fun e _ => ?_
  exact .pure rfl

theorem readFunctionCode_frame (env : LoadEnv) {i : ℕ} (hi : i < s₀.module.functions.length) :
    InSection W .code s₀ (s₀.Within W .code) (readFunctionCode env i) fun _ _ => True := by
  refine .quiet_bind (fun _ _ => quiet_decoding decoder_readU32) fun size _ => ?_
  refine .quiet_bind (fun _ _ => quiet_offset) fun start _ => .get_within fun s hs => ?_
  have hlength : s.module.functions.length = s₀.module.functions.length := by
    simpa using congrArg List.length hs.decls
  obtain ⟨f, hf⟩ : ∃ f, s.module.functions[i]? = some f :=
    ⟨_, List.getElem?_eq_getElem (hlength ▸ hi)⟩
  have hdecl : (s₀.module.functions.map Func.decl)[i]? = some f.decl := by
    rw [← hs.decls, List.getElem?_map, hf]
    rfl
  rw [hf, unwrap_some, pure_bind]
  refine .bind (setFunction_frame hdecl) fun _ => .weaken ?_ (fun t ht => ht.1) fun _ _ h => h
  refine .quiet_bind (fun _ _ => quiet_limited _ fun _ => quiet_functionBody env _) fun g hg => ?_
  refine .ite (fun _ => .throw fun _ ht => ht) fun _ => ?_
  refine .bind (setFunction_frame (hdecl.trans (congrArg some hg.symm))) fun _ => ?_
  refine .weaken (.quiet_bind (fun _ _ => quiet_offset) fun stop _ => ?_) (fun t ht => ht.1)
    fun _ _ h => h
  exact .ite (fun _ => .throw fun _ ht => ht) fun _ => .pure fun _ ht => ⟨ht, trivial⟩

theorem readFunctionCodes_frame (env : LoadEnv) (n i : ℕ)
    (h : i + n ≤ s₀.module.functions.length) :
    InSection W .code s₀ (s₀.Within W .code) (readFunctionCodes env n i) fun _ _ => True := by
  induction n generalizing i with
  | zero => exact .pure fun _ hs => ⟨hs, trivial⟩
  | succ n ih =>
      refine .bind (readFunctionCode_frame env (by omega)) fun _ s hs => ?_
      exact ih (i + 1) (by omega) s hs.1

theorem readCodeSection_frame (env : LoadEnv) :
    InSection W .code s₀ s₀.Continues (readCodeSection env) fun _ _ => True := by
  refine .quiet_start (quiet_decoding decoder_readU32) fun n _ => .get_start fun s _ hmodule => ?_
  rw [hmodule]
  refine .ite (fun _ => .throw fun _ hs => hs.within) fun hn => ?_
  rw [Decidable.not_not.1 hn]
  exact .weaken (readFunctionCodes_frame env _ 0 (by omega)) (fun _ hs => hs.within) fun _ _ h => h

/-! ### Element segments -/

/-- Sections of some kinds leave the module alone. -/
theorem Module.Changes.eq {m m' : Module} (h : m.Changes kind m')
    (hkind : kind = .element ∨ kind = .data) : m' = m := by
  obtain ⟨name, types, functions, table, memory, globals, imports, exports, start⟩ := m
  obtain ⟨name', types', functions', table', memory', globals', imports', exports', start'⟩ := m'
  rcases hkind with rfl | rfl <;>
    exact Module.mk.injEq .. ▸ ⟨h.name, h.types nofun, h.functions nofun nofun, h.table nofun nofun,
      h.memory nofun nofun, h.globals nofun, h.imports nofun, h.exports nofun, h.start nofun⟩

theorem quiet_getTableMut (env : LoadEnv) : Quiet s₀ (getTableMut env) fun table? =>
    ∀ table, table? = some table →
      ∃ kind, s₀.module.table = some kind ∧ s₀.store.tableOf? kind = some table := by
  refine .get_bind fun s hstore hmodule => ?_
  rw [hmodule, hstore]
  cases hkind : s₀.module.table with
  | none => exact .pure nofun
  | some kind =>
      have hlive : s₀.Linked → _ := fun h => h.module.table kind hkind
      have hrest : ∀ table own, s₀.store.tableOf? kind = some table →
          Quiet s₀ (if s₀.store.tableHandles table + env.tableHandles table + own = 1 then
            pure (some table) else throw .tableRefNotUnique) fun table? =>
            ∀ table, table? = some table →
              ∃ kind', some kind = some kind' ∧ s₀.store.tableOf? kind' = some table := by
        refine fun table own htable => .ite (fun _ => .pure ?_) fun _ => .throw _
        rintro _ ⟨⟩
        exact ⟨kind, rfl, htable⟩
      cases kind with
      | owned table ty => exact hrest table 1 rfl
      | import_ m =>
          refine .bind (.unwrap (P := fun t => s₀.store.ownedTable? m = some t) (fun h => ?_)
            fun _ h => h) fun t ht => hrest t.1 0 (by rw [Store.tableOf?, ht]; rfl)
          obtain ⟨table, htable, -⟩ := hlive h
          obtain ⟨t, ht, -⟩ := Option.map_eq_some_iff.1 htable
          rw [ht]
          rfl
      | importHost r =>
          refine .bind (.unwrap (P := fun t => s₀.store.hostTable? r = some t) (fun h => ?_)
            fun _ h => h) fun t ht => hrest t.value 0 (by rw [Store.tableOf?, ht]; rfl)
          obtain ⟨table, htable, -⟩ := hlive h
          obtain ⟨t, ht, -⟩ := Option.map_eq_some_iff.1 htable
          rw [ht]
          rfl

/-- The head of an element segment: the table it is written to, from which entry on,
and the number of entries. -/
def readElementHead (env : LoadEnv) : LoadM (TableRef × ℕ × ℕ) := do
  let table ← decoding Idx.read
  if table ≠ 0 then throw .invalidTableIndex
  else do
    let value ← readConstant env
    let offset ← segmentOffset .invalidElementOffset value
    let initLen ← decoding readU32
    match ← getTableMut env with
    | none => throw .tableNotDefined
    | some table => do
        let s ← get
        let entries ← unwrap s.store.tables[table]?
        if entries.length < offset.toNat then throw .invalidElementOffset
        else if entries.length < offset.toNat + initLen.toNat then
          throw .invalidElementOutOfBounds
        else pure (table, offset.toNat, initLen.toNat)

theorem readElement_eq (env : LoadEnv) :
    readElement env = readElementHead env >>= fun p => readElementFuncs env p.2.2 p.2.1 := by
  unfold readElement readElementHead
  simp only [bind_assoc]
  congr 1
  funext table
  split
  · rfl
  · simp only [bind_assoc]
    congr 1
    funext value
    congr 1
    funext offset
    congr 1
    funext initLen
    congr 1
    funext table?
    cases table? with
    | none => rfl
    | some table =>
        simp only [bind_assoc]
        congr 1
        funext s
        congr 1
        funext entries
        split
        · rfl
        · split <;> rfl

theorem quiet_segmentOffset (e : ValidationError) (value : Value) :
    Quiet s₀ (segmentOffset e value) fun _ => True := by
  cases value <;> first | exact .pure trivial | exact .throw _

/-- The table field of a linked module leads to a table. -/
theorem LoadState.Linked.table {table : TableKind} (h : s₀.Linked)
    (hkind : s₀.module.table = some table) {ref : TableRef}
    (href : s₀.store.tableOf? table = some ref) :
    (s₀.store.tables[ref]?).isSome := by
  obtain ⟨ref', href', hlt⟩ := h.module.table table hkind
  cases href.symm.trans href'
  rw [List.getElem?_eq_getElem hlt]
  rfl

/-- The segment lies within the table of the module. -/
theorem quiet_readElementHead (env : LoadEnv) : Quiet s₀ (readElementHead env) fun p =>
    ∃ kind entries, s₀.module.table = some kind ∧ s₀.store.tableOf? kind = some p.1 ∧
      s₀.store.tables[p.1]? = some entries ∧ p.2.1 + p.2.2 ≤ entries.length := by
  refine .bind (quiet_decoding decoder_idx) fun table _ => .ite (fun _ => .throw _) fun _ => ?_
  refine .bind (quiet_readConstant env) fun value _ => ?_
  refine .bind (quiet_segmentOffset _ value) fun offset _ => ?_
  refine .bind (quiet_decoding decoder_readU32) fun len _ => ?_
  refine .bind (quiet_getTableMut env) fun table? htable => ?_
  cases table? with
  | none => exact .throw _
  | some ref =>
      obtain ⟨kind, hkind, href⟩ := htable ref rfl
      refine .get_bind fun s hstore _ => ?_
      rw [hstore]
      refine .bind (.unwrap (P := fun entries => s₀.store.tables[ref]? = some entries)
        (fun h => h.table hkind href) fun _ h => h) fun entries hentries => ?_
      refine .ite (fun _ => .throw _) fun _ => .ite (fun _ => .throw _) fun hle => .pure ?_
      exact ⟨kind, entries, hkind, href, hentries, Nat.le_of_not_lt hle⟩

/-- Any function of the module may be written to entry `k` of the table. -/
def LoadState.Writes (W : Footprint) (s : LoadState) (table : TableRef) (k : ℕ) : Prop :=
  ∀ x r, s.module.getFuncRef x = some r → W.table table k (tableElementOf s.store.modules.length r)

theorem readElementFunc_frame (env : LoadEnv) {index : ℕ}
    (hW : ∀ kind table, s₀.module.table = some kind → s₀.store.tableOf? kind = some table →
      s₀.Writes W table index) :
    InSection W .element s₀ s₀.Continues (readElementFunc env index) fun _ _ => True := by
  refine .quiet_start (quiet_decoding decoder_idx) fun idx _ =>
    .get_start fun s hstore hmodule => ?_
  rw [hmodule, hstore]
  refine .quiet_start (.okOr _ (P := fun r => s₀.module.getFuncRef idx = some r) fun _ h => h)
    fun r hr => .quiet_start (quiet_getTableMut env) fun table? htable => ?_
  cases table? with
  | none => exact .throw fun _ ht => ht.within
  | some table =>
      obtain ⟨kind, hkind, href⟩ := htable table rfl
      refine .quiet_start (.unwrap (P := fun entries => s₀.store.tables[table]? = some entries)
        (fun h => h.table hkind href) fun _ h => h) fun entries hentries => ?_
      refine .ite (fun _ => .throw fun _ ht => ht.within) fun _ t ht => ?_
      rw [← ht.store] at hentries
      refine ⟨ht.within.setStore (.setTable hentries (.set ?_)), trivial⟩
      exact hW kind table hkind href idx r hr

theorem readElementFuncs_frame (env : LoadEnv) (n index : ℕ)
    (hW : ∀ kind table, s₀.module.table = some kind → s₀.store.tableOf? kind = some table →
      ∀ k, index ≤ k → k < index + n → s₀.Writes W table k) :
    InSection W .element s₀ (fun s => s = s₀) (readElementFuncs env n index) fun _ _ => True := by
  induction n generalizing index s₀ with
  | zero => exact .pure fun s hs => ⟨hs ▸ .refl s, trivial⟩
  | succ n ih =>
      refine .bind_run (.weaken (readElementFunc_frame env fun kind table hkind htable =>
        hW kind table hkind htable index (Nat.le_refl _) (by omega)) ?_ fun _ _ h => h)
        fun _ s _ hs _ => .restart hs (ih (index + 1) fun kind table hkind htable k hk hk' => ?_)
      · rintro s rfl
        exact .refl s
      · have hmodule := hs.module.eq (Or.inl rfl)
        rw [hmodule] at hkind
        rw [hs.store.tableOf?] at htable
        intro x r hr
        rw [hmodule] at hr
        rw [hs.store.modules]
        exact hW kind table hkind htable k (by omega) (by omega) x r hr

/-- A quiet step of a run from one state. -/
theorem InSection.quiet_run {M : α → Prop} {Q : β → LoadState → Prop} {x : LoadM α}
    {f : α → LoadM β}
    (hx : Quiet s₀ x M) (hf : ∀ a t, x s₀ = .ok a t → s₀.Continues t → M a →
      InSection W kind s₀ (fun u => u = t) (f a) Q) :
    InSection W kind s₀ (fun t => t = s₀) (x >>= f) Q := by
  refine .bind_run (M := fun a t => M a ∧ s₀.Continues t) (.weaken (.quiet (M := M) ?_ ?_)
    (fun _ h => h) ?_) fun a t hr _ ht => hf a t hr ht.2 ht.1
  · rintro s rfl
    exact .refl s
  · rintro s rfl
    exact hx
  · rintro a t ⟨ha, s, rfl, ht⟩
    exact ⟨ha, ht⟩

/-- A segment writes to its range in the table of the module. -/
theorem readElement_frame (env : LoadEnv)
    (hW : ∀ table offset len t, readElementHead env s₀ = .ok (table, offset, len) t →
      ∀ k, offset ≤ k → k < offset + len → s₀.Writes W table k) :
    InSection W .element s₀ (fun s => s = s₀) (readElement env) fun _ _ => True := by
  rw [readElement_eq]
  refine .quiet_run (quiet_readElementHead env) ?_
  rintro ⟨table, offset, len⟩ t hr ht ⟨kind, entries, hkind, htable, -, -⟩
  refine .restart ht.within (readElementFuncs_frame env len offset ?_)
  intro kind' table' hkind' htable' k hk hk' x r hr'
  rw [ht.module] at hkind' hr'
  rw [ht.store] at htable' ⊢
  cases hkind.symm.trans hkind'
  cases htable.symm.trans htable'
  exact hW table offset len t hr k hk hk' x r hr'

/-- A loop whose rounds are known one by one. -/
theorem InSection.rounds {x : LoadM Unit} (n : ℕ)
    (hx : ∀ i < n, ∀ s, Fallible.iterate i x s₀ = .ok () s → s₀.Within W kind s →
      InSection W kind s (fun t => t = s) x fun _ _ => True) :
    InSection W kind s₀ (fun s => s = s₀) (Fallible.iterate n x) fun _ _ => True := by
  induction n with
  | zero => exact .pure fun s hs => ⟨hs ▸ .refl s, trivial⟩
  | succ n ih =>
      rw [iterate_succ']
      refine .bind_run (ih fun i hi => hx i (Nat.lt_succ_of_lt hi)) fun _ t hr ht _ => ?_
      exact .restart ht (hx n (Nat.lt_succ_self n) t hr ht)

/-- An element section that starts in `s₀` has come to a segment, in state `s`. -/
def AtElement (env : LoadEnv) (s₀ s : LoadState) : Prop :=
  ∃ len t i, decoding readU32 s₀ = .ok len t ∧ i < len.toNat ∧
    iterate i (readElement env) t = .ok () s

theorem readElementSection_frame (env : LoadEnv)
    (hW : ∀ s, AtElement env s₀ s → ∀ table offset len t,
      readElementHead env s = .ok (table, offset, len) t →
        ∀ k, offset ≤ k → k < offset + len → s.Writes W table k) :
    InSection W .element s₀ (fun s => s = s₀) (readElementSection env) fun _ _ => True := by
  refine .quiet_run (quiet_decoding decoder_readU32) fun len t hr ht _ => .restart ht.within ?_
  refine .rounds len.toNat fun i hi s hs _ => readElement_frame env ?_
  exact hW s ⟨len, t, i, hr, hi, hs⟩

/-! ### Data segments -/

/-- A store changes the bytes of its range. -/
theorem Memory.store_same {m m' : Memory} {addr : ℕ} {data : List U8}
    (h : m.store addr data = .ok m') :
    SameMemory (fun k => addr ≤ k ∧ k < addr + data.length) m m' := by
  unfold Memory.store Memory.checkInBounds Memory.len at h
  by_cases hin : m.bytes.length < data.length ∨ m.bytes.length - data.length < addr
  · rw [if_pos hin] at h
    cases h
  · rw [if_neg hin] at h
    cases h
    have htake : (m.bytes.take addr).length = addr := by
      rw [List.length_take]
      omega
    refine ⟨rfl, rfl, ?_, fun k hk => ?_⟩
    · simp only [List.length_append, List.length_take, List.length_drop]
      omega
    · change (m.bytes.take addr ++ data ++ m.bytes.drop (addr + data.length))[k]? = m.bytes[k]?
      rcases Nat.lt_or_ge k addr with hlt | hge
      · rw [List.append_assoc, List.getElem?_append_left (by omega), List.getElem?_take_of_lt hlt]
      · rw [List.getElem?_append_right (by rw [List.length_append]; omega), List.length_append,
          htake, List.getElem?_drop]
        congr 1
        omega

theorem quiet_memoryResult (x : Except MemoryError α) :
    Quiet s₀ (memoryResult x) fun a => x = .ok a := by
  cases x with
  | ok a => exact .pure rfl
  | error e => exact .throw _

/-- The memory of the module is the one behind the handle. -/
def LoadState.HasMemory (s : LoadState) (mem : MemRef) : Prop :=
  ∃ kind, s.module.memory = some kind ∧ s.store.memoryOf? kind = some mem

namespace LoadState.HasMemory

variable {s : LoadState} {mem : MemRef}

theorem within (h : s₀.HasMemory mem) (hs : s₀.Within W .data s) : s.HasMemory mem := by
  obtain ⟨kind, hkind, hmem⟩ := h
  refine ⟨kind, ?_, (hs.store.memoryOf? kind).trans hmem⟩
  rw [hs.module.eq (Or.inr rfl), hkind]

theorem live (h : s.HasMemory mem) (hs : s.Linked) : mem < s.store.memories.length := by
  obtain ⟨kind, hkind, hmem⟩ := h
  obtain ⟨mem', hmem', hlt⟩ := hs.module.memory kind hkind
  cases hmem.symm.trans hmem'
  exact hlt

end LoadState.HasMemory

theorem storeBytes_frame {mem : MemRef} {addr : ℕ} {data : List U8} (hmem : s₀.HasMemory mem)
    (hW : ∀ k, addr ≤ k → k < addr + data.length → W.byte mem k) :
    InSection W kind s₀ (fun s => s = s₀) (storeBytes mem addr data) fun _ _ => True := by
  rintro s rfl
  unfold storeBytes
  rw [bind_of_ok (get_apply s)]
  cases hm : s.store.memories[mem]? with
  | none =>
      have hle := List.getElem?_eq_none_iff.1 hm
      exact fun hready => absurd (hmem.live hready.linked) (Nat.not_lt.2 hle)
  | some m =>
      rw [unwrap_some, pure_bind]
      cases hm' : m.store addr data with
      | error e => exact .refl s
      | ok m' =>
          refine ⟨(LoadState.Within.refl s).setStore (.setMemory hm ?_), trivial⟩
          have hsame := Memory.store_same hm'
          exact ⟨hsame.ty, hsame.allocator, hsame.length, fun k hk =>
            hsame.byte k fun h => hk (hW k h.1 h.2)⟩

/-- The address of a byte of a segment. -/
theorem effectiveAddress_eq {offset : U32} {i addr : ℕ} (hi : i < 2 ^ 32)
    (h : Memory.effectiveAddress offset (BitVec.ofNat 32 i) = .ok addr) :
    addr = offset.toNat + i := by
  unfold Memory.effectiveAddress at h
  rw [toNat_ofNat_of_lt hi] at h
  simp only at h
  split at h
  · cases h
    rfl
  · cases h

theorem readDataBytes_frame {mem : MemRef} {offset : U32} (n i : ℕ) (hn : i + n < 2 ^ 32)
    (hmem : s₀.HasMemory mem)
    (hW : ∀ k, offset.toNat + i ≤ k → k < offset.toNat + i + n → W.byte mem k) :
    InSection W .data s₀ (fun s => s = s₀) (readDataBytes mem offset n i) fun _ _ => True := by
  induction n generalizing i s₀ with
  | zero => exact .pure fun s hs => ⟨hs ▸ .refl s, trivial⟩
  | succ n ih =>
      refine .quiet_run (quiet_memoryResult _) fun addr s _ hs haddr => ?_
      have haddr := effectiveAddress_eq (by omega) haddr
      refine .restart hs.within (.quiet_run (quiet_decoding .readU8) fun b t _ ht _ => ?_)
      have hmemt := (hmem.within (W := W) hs.within).within (W := W) ht.within
      refine .restart ht.within (.bind_run (storeBytes_frame hmemt fun k hk hk' => ?_) ?_)
      · rw [List.length_singleton] at hk'
        exact hW k (by omega) (by omega)
      · intro _ u _ hu _
        exact .restart hu (ih (i + 1) (by omega) (hmemt.within hu) fun k hk hk' =>
          hW k (by omega) (by omega))

/-- The head of a data segment: where it starts in the memory, and its length. -/
def readDataHead (env : LoadEnv) : LoadM (U32 × ℕ) := do
  let mem ← decoding Idx.read
  if mem ≠ 0 then throw .invalidMemIndex
  else do
    let s ← get
    if s.module.memory = none then throw .memoryNotDefined
    else do
      let value ← readConstant env
      let offset ← segmentOffset .invalidMemOffsetType value
      let len ← decoding readU32
      pure (offset, len.toNat)

theorem readData_eq (env : LoadEnv) (memory : MemRef) :
    readData env memory = (do
      let (offset, len) ← readDataHead env
      readDataBytes memory offset len 0
      if len = 0 then storeBytes memory offset.toNat [] else pure ()) := by
  unfold readData readDataHead
  rw [bind_assoc]
  congr 1
  funext mem
  split
  · rfl
  · rw [bind_assoc]
    congr 1
    funext s
    split
    · rfl
    · simp only [bind_assoc, pure_bind]

theorem quiet_readDataHead (env : LoadEnv) :
    Quiet s₀ (readDataHead env) fun p => p.2 < 2 ^ 32 := by
  refine .bind (quiet_decoding decoder_idx) fun mem _ => .ite (fun _ => .throw _) fun _ => ?_
  refine .get_bind fun s _ _ => .ite (fun _ => .throw _) fun _ => ?_
  refine .bind (quiet_readConstant env) fun value _ => ?_
  refine .bind (quiet_segmentOffset _ value) fun offset _ => ?_
  exact .bind (quiet_decoding decoder_readU32) fun len _ => .pure len.isLt

/-- A segment writes to its range in the memory. -/
theorem readData_frame (env : LoadEnv) {memory : MemRef} (hmem : s₀.HasMemory memory)
    (hW : ∀ offset len t, readDataHead env s₀ = .ok (offset, len) t →
      ∀ k, offset.toNat ≤ k → k < offset.toNat + len → W.byte memory k) :
    InSection W .data s₀ (fun s => s = s₀) (readData env memory) fun _ _ => True := by
  rw [readData_eq]
  refine .quiet_run (quiet_readDataHead env) ?_
  rintro ⟨offset, len⟩ t hr ht hlen
  have hmemt := hmem.within (W := W) ht.within
  refine .restart ht.within (.bind_run (readDataBytes_frame len 0 (by simpa using hlen) hmemt
    fun k hk hk' => hW offset len t hr k (by omega) (by omega)) fun _ u _ hu _ => ?_)
  refine .ite (fun _ => .restart hu (storeBytes_frame (hmemt.within hu) fun k hk hk' => ?_))
    fun _ => .pure fun s hs => ⟨hs ▸ hu, trivial⟩
  exact absurd hk' (Nat.not_lt.2 hk)

/-- A data section that starts in `s₀` has come to a segment, in state `s`. -/
def AtData (env : LoadEnv) (s₀ : LoadState) (memory : MemRef) (s : LoadState) : Prop :=
  ∃ len t i, decoding readU32 s₀ = .ok len t ∧ i < len.toNat ∧
    iterate i (readData env memory) t = .ok () s

theorem readDataSection_frame (env : LoadEnv)
    (hW : ∀ memory s, s₀.HasMemory memory → AtData env s₀ memory s → ∀ offset len t,
      readDataHead env s = .ok (offset, len) t →
        ∀ k, offset.toNat ≤ k → k < offset.toNat + len → W.byte memory k) :
    InSection W .data s₀ (fun s => s = s₀) (readDataSection env) fun _ _ => True := by
  refine .quiet_run (quiet_decoding decoder_readU32) fun len t hr ht _ => ?_
  refine .ite (fun _ => .pure fun s hs => ⟨hs ▸ ht.within, trivial⟩) fun _ => ?_
  have hloop : ∀ memory, s₀.HasMemory memory →
      InSection W .data s₀ (fun u => u = t) (iterate len.toNat (readData env memory))
        fun _ _ => True := by
    refine fun memory hmem => .restart ht.within (.rounds len.toNat fun i hi s hs hst => ?_)
    refine readData_frame env ((hmem.within (W := W) ht.within).within hst) ?_
    exact hW memory s hmem ⟨len, t, i, hr, hi, hs⟩
  have hunwrap : ∀ {o : Option MemRef} {kind : MemoryKind}, s₀.module.memory = some kind →
      s₀.store.memoryOf? kind = o → InSection W .data s₀ (fun u => u = t)
        (unwrap o >>= fun memory => iterate len.toNat (readData env memory)) fun _ _ => True := by
    intro o kind hkind ho
    cases o with
    | none =>
        intro s _ hready
        obtain ⟨mem, hmem, -⟩ := hready.linked.module.memory kind hkind
        cases ho.symm.trans hmem
    | some memory => exact hloop memory ⟨kind, hkind, ho⟩
  intro s hs
  rw [hs, bind_of_ok (get_apply t), ht.module, ht.store]
  cases hkind : s₀.module.memory with
  | none => exact ht.within
  | some kind =>
      cases kind with
      | owned mem => exact hloop mem ⟨_, hkind, rfl⟩ t rfl
      | import_ i => exact hunwrap hkind rfl t rfl
      | importHost i => exact hunwrap hkind rfl t rfl

/-! ### All sections -/

/-- The writes of the segments that a section comes to. -/
structure LoadState.SectionWrites (env : LoadEnv) (W : Footprint) (kind : SectionKind)
    (s₀ : LoadState) : Prop where
  element : kind = .element → ∀ s, AtElement env s₀ s → ∀ table offset len t,
    readElementHead env s = .ok (table, offset, len) t →
      ∀ k, offset ≤ k → k < offset + len → s.Writes W table k
  data : kind = .data → ∀ memory s, s₀.HasMemory memory → AtData env s₀ memory s →
    ∀ offset len t, readDataHead env s = .ok (offset, len) t →
      ∀ k, offset.toNat ≤ k → k < offset.toNat + len → W.byte memory k

/-- A section ends within its frame. -/
theorem readSection_frame (env : LoadEnv) (size : ℕ) (hW : s₀.SectionWrites env W kind) :
    InSection W kind s₀ (fun s => s = s₀) (readSection env size kind) fun _ _ => True := by
  have hstart : ∀ {x : LoadM Unit}, InSection W kind s₀ s₀.Continues x (fun _ _ => True) →
      InSection W kind s₀ (fun s => s = s₀) x fun _ _ => True := by
    refine fun h => .weaken h ?_ fun _ _ h => h
    rintro s rfl
    exact .refl s
  cases kind with
  | custom => exact hstart (readCustomSection_frame size)
  | type => exact hstart readTypeSection_frame
  | import_ => exact hstart readImportSection_frame
  | function => exact hstart readFunctionSection_frame
  | table => exact hstart readTableSection_frame
  | memory => exact hstart (readMemorySection_frame env)
  | global => exact hstart (readGlobalSection_frame env)
  | export_ => exact hstart readExportSection_frame
  | start => exact hstart readStartSection_frame
  | element => exact readElementSection_frame env (hW.element rfl)
  | code => exact hstart (readCodeSection_frame env)
  | data => exact readDataSection_frame env (hW.data rfl)

end SpaceWasm
