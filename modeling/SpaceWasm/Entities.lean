import SpaceWasm.HostReferences
import SpaceWasm.Session

/-!
# The entities that imports mean

An import names a module and one of its exports; that module may import the entity
itself, under other names. `Denotes` follows these names, by the import declarations
of the modules, to the owner: a symbol of a host module, or a definition of a loaded
module. The entry that the linker has stored for an item of an index space holds the
position of that owner, whatever the number of re-exports on the way, and its type is
the one that the import has declared.
-/

namespace SpaceWasm

open Fallible Relation

/-- An entity of a store: a symbol of a host module, or a definition of a loaded module.
Positions are counted among the symbols, or definitions, of the kind. -/
inductive Entity where
  | host (mi : ℕ) (item : ExportDesc)
  | own (k : ℕ) (item : ExportDesc)
  deriving DecidableEq

/-- The entry for an entity. -/
def Entity.entry : Entity → Import
  | .host mi (.func i) => .hostFunc (HostModuleRef.new mi) (BitVec.ofNat 16 i)
  | .host mi (.global i) => .hostGlobal (HostModuleRef.new mi) (BitVec.ofNat 16 i)
  | .host mi (.table i) => .hostTable (HostModuleRef.new mi) (BitVec.ofNat 16 i)
  | .host mi (.mem i) => .hostMemory (HostModuleRef.new mi) (BitVec.ofNat 16 i)
  | .own k (.func i) => .func (BitVec.ofNat 8 k) (BitVec.ofNat 16 i)
  | .own k (.global i) => .global (BitVec.ofNat 8 k) (BitVec.ofNat 16 i)
  | .own k (.table i) => .table (BitVec.ofNat 8 k) (BitVec.ofNat 16 i)
  | .own k (.mem i) => .memory (BitVec.ofNat 8 k) (BitVec.ofNat 16 i)

/-- The symbol of the host module. -/
def HostModule.Has (hm : HostModule) : ExportDesc → Prop
  | .func i => i < hm.functions.length
  | .global i => i < hm.globals.length
  | .table i => i < hm.table.length
  | .mem i => i < hm.memory.length

/-- The definition of the module; there is one table and one memory. -/
def Module.Has (m : Module) : ExportDesc → Prop
  | .func i => i < m.functions.length
  | .global i => i < m.globals.length
  | .table i => i = 0 ∧ ∃ table ty, m.table = some (.owned table ty)
  | .mem i => i = 0 ∧ ∃ mem, m.memory = some (.owned mem)

/-- The entity is there. -/
def Entity.Exists (s : Store) : Entity → Prop
  | .host mi item => ∃ hm, s.hostModules[mi]? = some hm ∧ hm.Has item
  | .own k item => ∃ m, s.modules[k]? = some m ∧ m.Has item

/-- An index of the space of a kind, counted from the definitions of the module itself,
which follow the imports. -/
def ExportDesc.ownItem (decls : List ImportDecl) : ExportDesc → ExportDesc
  | .func x => .func (x - (decls.filter fun d => d.desc.isFunc).length)
  | .global x => .global (x - (decls.filter fun d => d.desc.isGlobal).length)
  | .table x => .table (x - (decls.filter fun d => d.desc.isTable).length)
  | .mem x => .mem (x - (decls.filter fun d => d.desc.isMemory).length)

/-- The `i`-th symbol of the kind that is asked for. -/
def ImportDesc.item (i : ℕ) : ImportDesc → ExportDesc
  | .func _ => .func i
  | .global _ => .global i
  | .table _ => .table i
  | .mem _ => .mem i

/-- The entity behind an item of the index spaces of the module at position `k`, in a
store whose modules have these import declarations: a definition of the module itself,
or the entity that an import of it means. -/
inductive Denotes (s : Store) (decls : List (List ImportDecl)) :
    ℕ → ExportDesc → Entity → Prop where
  | own {k : ℕ} {ds : List ImportDecl} {item : ExportDesc} : decls[k]? = some ds →
      item.reexports ds = none → Denotes s decls k item (.own k (item.ownItem ds))
  | host {k mi i : ℕ} {ds : List ImportDecl} {item : ExportDesc} {d : ImportDecl} :
      decls[k]? = some ds → item.reexports ds = some d →
      s.hostLookup d.module d.name d.desc = some (mi, i) →
      Denotes s decls k item (.host mi (d.desc.item i))
  | reexport {k k' : ℕ} {ds : List ImportDecl} {item item' : ExportDesc} {d : ImportDecl}
      {em : Module} {entity : Entity} : decls[k]? = some ds → item.reexports ds = some d →
      s.hostLookup d.module d.name d.desc = none →
      s.findExport d.module d.name = some (k', em, item') →
      Denotes s decls k' item' entity → Denotes s decls k item entity

variable {s : Store} {m : Module} {decls : List (List ImportDecl)} {ds : List ImportDecl}
  {d : ImportDecl} {i j : Import} {k : ℕ} {item : ExportDesc}

theorem hostEntry_eq (desc : ImportDesc) (mi i : ℕ) :
    desc.hostEntry mi i = (Entity.host mi (desc.item i)).entry := by
  cases desc <;> rfl

/-- A symbol that is found is there. -/
theorem Store.hostLookup_exists {moduleName name : Name} {desc : ImportDesc} {mi i : ℕ}
    (h : s.hostLookup moduleName name desc = some (mi, i)) :
    (Entity.host mi (desc.item i)).Exists s := by
  cases desc <;>
  · obtain ⟨hm, _, -, hhm, hsym, -, -⟩ := findHost_isSome h
    exact ⟨hm, hhm, (List.getElem?_eq_some_iff.1 hsym).1⟩

/-- An item that stands for no import is a definition of the module. -/
theorem Module.Declares.own (hm : m.Declares s ds) (hr : m.Resolved)
    (hentry : m.exportEntry k item = some j) (hown : item.reexports ds = none) :
    j = (Entity.own k (item.ownItem ds)).entry ∧ m.Has (item.ownItem ds) := by
  cases item with
  | func x =>
      obtain ⟨r, href, rfl⟩ := exportEntry_func.1 hentry
      rw [getFuncRef_eq, funcSpace, getElem?_append_ownRefs] at href
      have hfilter := forall₂_filter hm fun d i h => (selects_eq h.2).1
      rw [forall₂_getElem?_none hfilter hown, ← hfilter.length_eq] at href
      simp only [Option.ite_none_left_eq_some, Option.some.injEq, Nat.not_le] at href
      obtain ⟨hlt, rfl⟩ := href
      exact ⟨rfl, hlt⟩
  | global x =>
      obtain ⟨r, href, rfl⟩ := exportEntry_global.1 hentry
      rw [getGlobalRef_eq, globalSpace, getElem?_append_ownRefs] at href
      have hfilter := forall₂_filter hm fun d i h => (selects_eq h.2).2.1
      rw [forall₂_getElem?_none hfilter hown, ← hfilter.length_eq] at href
      simp only [Option.ite_none_left_eq_some, Option.some.injEq, Nat.not_le] at href
      obtain ⟨hlt, rfl⟩ := href
      exact ⟨rfl, hlt⟩
  | table x =>
      obtain ⟨hx, kind, hkind, rfl⟩ := exportEntry_table.1 hentry
      obtain rfl : x = 0 := Nat.eq_zero_of_not_pos hx
      have hfilter := forall₂_filter hm fun d i h => (selects_eq h.2).2.2.1
      have hnone := forall₂_getElem?_none hfilter hown
      rw [List.getElem?_eq_none_iff, Nat.le_zero, List.length_eq_zero_iff] at hnone
      rcases hr.ownTable kind hkind with ⟨t, ty, rfl⟩ | ⟨i, himport, hik⟩
      · simp only [ExportDesc.ownItem, Nat.zero_sub]
        exact ⟨rfl, rfl, t, ty, hkind⟩
      · rw [List.filterMap_eq_nil_iff.1 hnone i himport] at hik
        cases hik
  | mem x =>
      obtain ⟨hx, kind, hkind, rfl⟩ := exportEntry_mem.1 hentry
      obtain rfl : x = 0 := Nat.eq_zero_of_not_pos hx
      have hfilter := forall₂_filter hm fun d i h => (selects_eq h.2).2.2.2
      have hnone := forall₂_getElem?_none hfilter hown
      rw [List.getElem?_eq_none_iff, Nat.le_zero, List.length_eq_zero_iff] at hnone
      rcases hr.ownMemory kind hkind with ⟨mem, rfl⟩ | ⟨i, himport, hik⟩
      · simp only [ExportDesc.ownItem, Nat.zero_sub]
        exact ⟨rfl, rfl, mem, hkind⟩
      · rw [List.filterMap_eq_nil_iff.1 hnone i himport] at hik
        cases hik

theorem ExportDesc.reexports_mem (h : item.reexports ds = some d) : d ∈ ds := by
  cases item <;> exact List.mem_of_mem_filter (List.mem_of_getElem? h)

/-- The entry that an import declaration is linked to is that of the entity it denotes, if this
is so of what it finds in a module. -/
theorem Denotes.of_linked (hds : decls[k]? = some ds) (hitem : item.reexports ds = some d)
    (hlinked : s.linked? d = some j)
    (hexported : ∀ {k' em item'}, s.hostLookup d.module d.name d.desc = none →
      s.findExport d.module d.name = some (k', em, item') → em.exportEntry k' item' = some j →
        ∃ entity, Denotes s decls k' item' entity ∧ entity.entry = j ∧ entity.Exists s) :
    ∃ entity, Denotes s decls k item entity ∧ entity.entry = j ∧ entity.Exists s := by
  cases hhost : s.hostLookup d.module d.name d.desc with
  | some p =>
      obtain ⟨mi, i⟩ := p
      rw [entry_of_host hhost, Option.some.injEq] at hlinked
      refine ⟨_, .host hds hitem hhost, ?_, Store.hostLookup_exists hhost⟩
      rw [← hlinked, hostEntry_eq]
  | none =>
      rw [Store.linked?, hhost] at hlinked
      obtain ⟨⟨k', em, item'⟩, hexport, hlinked⟩ := Option.bind_eq_some_iff.1 hlinked
      obtain ⟨entity, hdenotes, hj, hexists⟩ := hexported hhost hexport hlinked
      exact ⟨entity, .reexport hds hitem hhost hexport hdenotes, hj, hexists⟩

/-- The entry for an item of the index spaces of a module is that of the entity it
denotes, which is there. -/
theorem Store.Faithful.denotes (hs : s.Faithful decls) (hm : s.modules[k]? = some m)
    (hentry : m.exportEntry k item = some j) :
    ∃ entity, Denotes s decls k item entity ∧ entity.entry = j ∧ entity.Exists s := by
  -- by induction on the position of the module: what it imports is exported by earlier ones
  induction k using Nat.strong_induction_on generalizing m item with
  | _ k ih =>
      obtain ⟨ds, hds⟩ : ∃ ds, decls[k]? = some ds := by
        have hlt := (List.getElem?_eq_some_iff.1 hm).1
        exact ⟨_, List.getElem?_eq_getElem (hs.length ▸ hlt)⟩
      have hdeclares := hs.declares k m ds hm hds
      have hresolved := hs.resolved m (List.mem_of_getElem? hm)
      cases hd : item.reexports ds with
      | none =>
          obtain ⟨rfl, hhas⟩ := hdeclares.own hresolved hentry hd
          exact ⟨_, .own hds hd, rfl, m, hm, hhas⟩
      | some d =>
          have hlinked := (hdeclares.reexports hresolved hentry).1 d hd
          refine Denotes.of_linked hds hd hlinked fun hhost hexport hlinked => ?_
          have hlt := hs.earlier k ds d _ hds (ExportDesc.reexports_mem hd) hhost hexport
          exact ih _ hlt (Store.findExport_some hexport).1 hlinked

/-- The entry is that of the one entity behind the item. -/
def Store.EntryDenotes (s : Store) (decls : List (List ImportDecl)) (k : ℕ) (item : ExportDesc)
    (j : Import) : Prop :=
  ∃ entity, Denotes s decls k item entity ∧ entity.entry = j ∧ entity.Exists s ∧
    ∀ other, other.Exists s → other.entry = j → other = entity

/-- Every import declaration is behind an item of the index space of its kind. -/
theorem ImportDecl.exists_item (h : d ∈ ds) : ∃ item : ExportDesc, item.reexports ds = some d := by
  have hitem : ∀ {p : ImportDecl → Bool}, p d = true → ∃ x, (ds.filter p)[x]? = some d :=
    fun hp => List.mem_iff_getElem?.1 (List.mem_filter.2 ⟨h, hp⟩)
  cases hd : d.desc with
  | func ty =>
      obtain ⟨x, hx⟩ := hitem (p := fun d => d.desc.isFunc) (by rw [hd]; rfl)
      exact ⟨.func x, hx⟩
  | global ty =>
      obtain ⟨x, hx⟩ := hitem (p := fun d => d.desc.isGlobal) (by rw [hd]; rfl)
      exact ⟨.global x, hx⟩
  | table ty =>
      obtain ⟨x, hx⟩ := hitem (p := fun d => d.desc.isTable) (by rw [hd]; rfl)
      exact ⟨.table x, hx⟩
  | mem ty =>
      obtain ⟨x, hx⟩ := hitem (p := fun d => d.desc.isMemory) (by rw [hd]; rfl)
      exact ⟨.mem x, hx⟩

/-- The entity that the positions in an entry lead to. -/
def Import.entity : Import → Entity
  | .func r i => .own r.toNat (.func i.toNat)
  | .global r i => .own r.toNat (.global i.toNat)
  | .table r i => .own r.toNat (.table i.toNat)
  | .memory r i => .own r.toNat (.mem i.toNat)
  | .hostFunc r i => .host r.toNat (.func i.toNat)
  | .hostGlobal r i => .host r.toNat (.global i.toNat)
  | .hostTable r i => .host r.toNat (.table i.toNat)
  | .hostMemory r i => .host r.toNat (.mem i.toNat)

/-- The indices of an entry are wide enough for the entities of a linked store. -/
theorem Entity.entity_entry (hs : s.Linked) {e : Entity} (he : e.Exists s) :
    e.entry.entity = e := by
  cases e with
  | host mi item =>
      obtain ⟨hm, hhm, hhas⟩ := he
      have hlt := (List.getElem?_eq_some_iff.1 hhm).1
      have hsound := hs.hostModules hm (List.mem_of_getElem? hhm)
      have hmi : (HostModuleRef.new mi).toNat = mi :=
        toNat_ofNat_of_lt (Nat.lt_of_lt_of_le hlt hs.hostModules_le)
      have hitem : ∀ i n : ℕ, i < n → n ≤ 2 ^ 16 → (BitVec.ofNat 16 i).toNat = i :=
        fun i n hi hn => toNat_ofNat_of_lt (Nat.lt_of_lt_of_le hi hn)
      cases item with
      | func i => simp only [entry, Import.entity, hmi, hitem i _ hhas hsound.functions_le]
      | global i => simp only [entry, Import.entity, hmi, hitem i _ hhas hsound.globals_le]
      | table i => simp only [entry, Import.entity, hmi, hitem i _ hhas hsound.table_le]
      | mem i => simp only [entry, Import.entity, hmi, hitem i _ hhas hsound.memory_le]
  | own k item =>
      obtain ⟨m, hm, hhas⟩ := he
      have hlt := (List.getElem?_eq_some_iff.1 hm).1
      have hsound := hs.modules m (List.mem_of_getElem? hm)
      have hk : (BitVec.ofNat 8 k).toNat = k :=
        toNat_ofNat_of_lt (Nat.lt_of_lt_of_le hlt hs.modules_le)
      have hitem : ∀ i n : ℕ, i < n → n ≤ 0xFFFF → (BitVec.ofNat 16 i).toNat = i :=
        fun i n hi hn => toNat_ofNat_of_lt (by omega)
      cases item with
      | func i => simp only [entry, Import.entity, hk, hitem i _ hhas hsound.functions_le]
      | global i => simp only [entry, Import.entity, hk, hitem i _ hhas hsound.globals_le]
      | table i =>
          obtain ⟨rfl, -⟩ := hhas
          simp only [entry, Import.entity, hk]
          rfl
      | mem i =>
          obtain ⟨rfl, -⟩ := hhas
          simp only [entry, Import.entity, hk]
          rfl

/-! ### Declared types -/

/-- The imports of the module are of the types that it has declared. -/
def Module.Typed (s : Store) (ds : List ImportDecl) (m : Module) : Prop :=
  List.Forall₂ (fun d i => i.Matches s m.types d.desc) ds m.imports

theorem Module.Typed.keeps {s' : Store} (h : m.Typed s ds) (hs : s.Keeps s') : m.Typed s' ds :=
  h.imp fun _ _ hi => hi.keeps hs

/-- A load after sections up to `last` whose imports are of their declared types. The types
of the module come before its imports. -/
structure LoadState.Typed (ds : List ImportDecl) (last : SectionKind) (s : LoadState) : Prop where
  track : s.OnTrack last
  fresh : last.toNat < SectionKind.import_.toNat → ds = [] ∧ s.module.imports = []
  typed : s.module.Typed s.store ds

section Load

variable {env : LoadEnv} {s t : LoadState} {last next kind : SectionKind} {ds : List ImportDecl}

theorem LoadState.Typed.continues (hs : s.Typed ds last) (h : s.Continues t) : t.Typed ds last := by
  obtain ⟨htrack, hfresh, htyped⟩ := hs
  refine ⟨htrack.continues h, ?_, ?_⟩
  · rw [h.module]
    exact hfresh
  · rw [h.store, h.module]
    exact htyped

theorem LoadState.Typed.body (hs : s.Typed ds last) (hne : kind ≠ .import_)
    (horder : checkOrder last kind = .ok next) (hbody : readSectionBody env kind s = .ok () t) :
    t.Typed ds next := by
  have hwithin := (readSectionBody_frame (W := .all) env fun _ _ _ =>
    LoadState.sectionWrites_all env kind _).ok rfl hbody
  have himports := hwithin.module.imports hne
  refine ⟨hs.track.next horder hwithin, fun hnext => ?_, ?_⟩
  · rw [himports]
    exact hs.fresh (Nat.lt_of_le_of_lt (checkOrder_le horder) hnext)
  · rw [Module.Typed, himports]
    by_cases htype : kind = .type
    · subst htype
      obtain ⟨-, hlt, -⟩ := (checkOrder_eq_ok.1 horder).resolve_left fun h => by cases h.1
      obtain ⟨rfl, hnil⟩ := hs.fresh (Nat.lt_trans hlt (by decide))
      rw [hnil]
      exact .nil
    · rw [hwithin.module.types htype]
      exact hs.typed.keeps hwithin.store.keeps

/-- The imports that an import section reads are of the types that it declares. -/
theorem LoadState.Typed.importSection (hs : s.Typed ds last)
    (horder : checkOrder last .import_ = .ok next)
    (hbody : readSectionBody env .import_ s = .ok () t) {size : U32} {s₁ : LoadState}
    (hsize : decoding readU32 s = .ok size s₁) {ds' : List ImportDecl} {r : Reader}
    (hdecls : readImportDecls (s₁.enter size.toNat).wasm = .ok ds' r) : t.Typed ds' next := by
  have hwithin := (readSectionBody_frame (W := .all) env fun _ _ _ =>
    LoadState.sectionWrites_all env .import_ _).ok rfl hbody
  obtain ⟨size', s₁', v, hsize', -, hsection, rfl, -⟩ := readSectionBody_eq_ok hbody
  cases hsize.symm.trans hsize'
  have hs₁ : s.Continues s₁ := ((quiet_decoding decoder_readU32).ok (.refl s) hsize).1
  obtain ⟨imports, u, hu, hrest⟩ := bind_eq_ok.1 hsection
  obtain ⟨_, w, hw, hrest⟩ := bind_eq_ok.1 hrest
  cases hw
  obtain ⟨decls, hdecls', hstore, hmodule, hlinks⟩ := readVec_importRead hu
  cases hdecls.symm.trans hdecls'
  obtain ⟨hstore', himports⟩ := forEach_resolveImport_frame hrest
  replace himports : v.module.imports = imports := himports
  have hvstore : v.store = s.store :=
    hstore'.trans (hstore.trans hs₁.store)
  have hvtypes : v.module.types = s.module.types := hwithin.module.types nofun
  refine ⟨hs.track.next horder hwithin, fun hnext => ?_, ?_⟩
  · obtain ⟨-, -, rfl⟩ := (checkOrder_eq_ok.1 horder).resolve_left fun h => by cases h.1
    exact absurd hnext (Nat.lt_irrefl _)
  · change List.Forall₂ (fun d i => i.Matches v.store v.module.types d.desc) ds' v.module.imports
    rw [himports, hvstore, hvtypes]
    refine hlinks.imp fun d i hlink => ?_
    have hmatches := links_linkImport (s₁.enter size.toNat).store (s₁.enter size.toNat).module
      d.module d.name d.desc () trivial
    rw [show linkImport _ d.module d.name d.desc _ () = .ok i () from hlink] at hmatches
    have hlinked : (s₁.enter size.toNat).store.Linked := hs₁.store ▸ hs.track.linked.store
    have hmatches := hmatches hlinked
    change i.Matches s₁.store s₁.module.types d.desc at hmatches
    rwa [hs₁.store, hs₁.module] at hmatches

/-- The imports after the last section are of the types that the import section declares
which the load comes to; without one they are those from before. -/
theorem readSections_typed {fuel : ℕ} {seenCode b : Bool} (hs : s.Typed ds last)
    (h : readSections env fuel last seenCode s = .ok b t) :
    (∀ s' ds' r, AtSection env s last .import_ s' → readImportDecls s'.wasm = .ok ds' r →
        t.module.Typed t.store ds') ∧
      ((∀ s', ¬AtSection env s last .import_ s') → t.module.Typed t.store ds) := by
  induction fuel generalizing last seenCode s ds with
  | zero => cases h
  | succ fuel ih =>
      have hquiet := (quiet_decoding decoder_sectionKind : Quiet s _ _) s (.refl s)
      unfold readSections at h
      cases hr : decoding SectionKind.read s with
      | error e u =>
          rw [hr] at h hquiet
          cases e <;> cases h
          refine ⟨fun s' ds' r hat => ?_, fun _ => (hs.continues hquiet).typed⟩
          cases hat with
          | here hk | later hk => cases hr.symm.trans hk
      | panic | diverge =>
          rw [hr] at h
          cases h
      | ok kind u =>
          rw [hr] at h hquiet
          obtain ⟨next, v, hnext, h⟩ := bind_eq_ok.1 h
          obtain ⟨horder, rfl⟩ := ofExcept_eq_ok.1 (mapError_eq_ok.1 hnext)
          obtain ⟨_, w, hbody, h⟩ := bind_eq_ok.1 h
          have hu := hs.continues hquiet.1
          by_cases hkind : kind = .import_
          · subst hkind
            obtain ⟨-, -, rfl⟩ := (checkOrder_eq_ok.1 horder).resolve_left fun h => by cases h.1
            have hlater : ∀ s', ¬AtSection env w .import_ .import_ s' := fun s' hat =>
              Nat.lt_irrefl _ (hat.lt (by decide))
            constructor
            · intro s' ds' r hat hdecls
              cases hat with
              | here hk ho hsize =>
                  cases hr.symm.trans hk
                  exact (ih (hu.importSection horder hbody hsize hdecls) h).2 hlater
              | later hk ho hb hat =>
                  cases hr.symm.trans hk
                  cases hbody.symm.trans hb
                  cases horder.symm.trans ho
                  exact absurd hat (hlater _)
            · intro hnone
              obtain ⟨size, s₁, _, hsize, -⟩ := readSectionBody_eq_ok hbody
              exact absurd (.here hr horder hsize) (hnone _)
          · obtain ⟨hat', hnone'⟩ := ih (hu.body hkind horder hbody) h
            constructor
            · intro s' ds' r hat hdecls
              cases hat with
              | here hk =>
                  cases hr.symm.trans hk
                  exact absurd rfl hkind
              | later hk ho hb hat =>
                  cases hr.symm.trans hk
                  cases hbody.symm.trans hb
                  cases horder.symm.trans ho
                  exact hat' s' ds' r hat hdecls
            · exact fun hnone => hnone' fun s' hat => hnone s' (.later hr horder hbody hat)

/-- The imports of a module that is loaded are of the types that its binary declares. -/
theorem Module.new_typed {name : Name} {wasm : Reader} {t u : LoadTarget} {m : Module}
    (hlinked : t.store.Linked) (h : Module.new env name wasm t = .ok m u)
    (hdeclared : DeclaredBy env name wasm t ds) : m.Typed u.store ds := by
  obtain ⟨w, b, x, hheader, hsections, -, rfl, rfl⟩ := Module.new_eq_ok h
  have hcontinues := (readHeader_frame name).ok rfl hheader
  have hstart : (t.start name wasm).Typed [] .custom :=
    ⟨LoadTarget.start_onTrack hlinked name wasm, fun _ => ⟨rfl, rfl⟩, .nil⟩
  obtain ⟨hat, hnone⟩ := readSections_typed (hstart.continues hcontinues) hsections
  obtain ⟨w', hheader', hor⟩ := hdeclared
  cases hheader.symm.trans hheader'
  rcases hor with ⟨s', r, hsection, hdecls⟩ | ⟨hno, rfl⟩
  · exact hat s' ds r hsection hdecls
  · exact hnone hno

end Load

/-! ### Histories -/

/-- The modules of the store have these import declarations, linked to earlier modules,
and their imports are of the types that they declare. -/
structure Store.Sourced (decls : List (List ImportDecl)) (s : Store) : Prop where
  faithful : s.Faithful decls
  bounded : s.Bounded
  typed : ∀ (k : ℕ) (m : Module) ds, s.modules[k]? = some m → decls[k]? = some ds → m.Typed s ds

/-- Every import is of its declared type, and the entry that it has been resolved to is that of
the one entity which its names lead to, through any number of re-exports; so is the entry of
every item of the index spaces. -/
def Store.ImportsSound (decls : List (List ImportDecl)) (s : Store) : Prop :=
  decls.length = s.modules.length ∧
    ∀ k m ds, s.modules[k]? = some m → decls[k]? = some ds →
      List.Forall₂ (fun d i => i.Matches s m.types d.desc ∧ ∃ item, item.reexports ds = some d ∧
        s.EntryDenotes decls k item i) ds m.imports ∧
      ∀ item j, m.exportEntry k item = some j → s.EntryDenotes decls k item j

theorem Store.Sourced.entryDenotes (hs : s.Sourced decls) {entity : Entity}
    (h : Denotes s decls k item entity) (hj : entity.entry = j) (hexists : entity.Exists s) :
    s.EntryDenotes decls k item j := by
  refine ⟨entity, h, hj, hexists, fun other hother heq => ?_⟩
  have hlinked := hs.bounded.linked
  rw [← Entity.entity_entry hlinked hother, heq, ← hj, Entity.entity_entry hlinked hexists]

theorem Store.Sourced.importsSound (hs : s.Sourced decls) : s.ImportsSound decls := by
  refine ⟨hs.faithful.length, fun k m ds hm hds => ⟨?_, fun item j hentry => ?_⟩⟩
  · have htyped := hs.typed k m ds hm hds
    have hdeclares := hs.faithful.declares k m ds hm hds
    refine List.forall₂_iff_get.2 ⟨htyped.length_eq, fun n hn hn' => ⟨htyped.get hn hn', ?_⟩⟩
    obtain ⟨item, hitem⟩ := ImportDecl.exists_item (List.get_mem ds ⟨n, hn⟩)
    obtain ⟨entity, hdenotes, hj, hexists⟩ := Denotes.of_linked hds hitem (hdeclares.get hn hn').1
      fun _ hexport hentry => hs.faithful.denotes (Store.findExport_some hexport).1 hentry
    exact ⟨item, hitem, hs.entryDenotes hdenotes hj hexists⟩
  · obtain ⟨entity, hdenotes, hj, hexists⟩ := hs.faithful.denotes hm hentry
    exact hs.entryDenotes hdenotes hj hexists

theorem Store.Sourced.grows {t v : LoadTarget} (hs : t.store.Sourced decls)
    (h : t.Grows .all v) : v.store.Sourced decls := by
  refine ⟨hs.faithful.evolves h.store, hs.bounded.evolves h.store, fun k m ds hm hds => ?_⟩
  rw [h.store.modules] at hm
  exact (hs.typed k m ds hm hds).keeps h.store.keeps

theorem LoadHistory.sourced {start t : LoadTarget} (h : LoadHistory start t decls)
    (hs : start.store.Sourced []) : t.store.Sourced decls := by
  have hframe := fun (env : LoadEnv) (name : Name) (wasm : Reader) (t : LoadTarget) =>
    loadModule_frame env name wasm t .all fun _ _ => LoadState.loadWrites_all _ _ _
  induction h with
  | start => exact hs
  | @failed t t' decls env name wasm e _ hload ih =>
      exact ih.grows ((hframe env name wasm t).error rfl hload)
  | @loaded t t' decls ds env name wasm r _ hload hdeclared ih =>
      obtain ⟨m, v, hnew, hgrows, -, hpush, -⟩ := (hframe env name wasm t).ok rfl hload
      obtain ⟨ds', hdeclared', hdeclares, hresolved⟩ := Module.new_declares ih.faithful.le hnew
      obtain rfl := hdeclared.unique hdeclared'
      have hv := ih.grows hgrows
      have hkeeps := Store.Keeps.push hpush
      have htyped := (Module.new_typed ih.bounded.linked hnew hdeclared).keeps hkeeps
      have hbounded := (LoadStep.loaded env name wasm r hload).bounded ih.bounded
      refine ⟨hv.faithful.push hdeclares hresolved hpush, hbounded, fun k m' ds' hm' hds' => ?_⟩
      obtain ⟨-, -, hstore⟩ := Store.pushModule_eq_ok.1 hpush
      have hlength := hv.faithful.length
      rw [hstore] at hm'
      by_cases hk : k < v.store.modules.length
      · rw [List.getElem?_append_left hk] at hm'
        rw [List.getElem?_append_left (hlength ▸ hk)] at hds'
        exact (hv.typed k m' ds' hm' hds').keeps hkeeps
      · have hk' := (List.getElem?_eq_some_iff.1 hm').1
        simp only [List.length_append, List.length_singleton] at hk'
        obtain rfl : k = v.store.modules.length := by omega
        rw [List.getElem?_concat_length, Option.some.injEq] at hm'
        rw [← hlength, List.getElem?_concat_length, Option.some.injEq] at hds'
        subst hm' hds'
        exact htyped

/-- In every store that a history of loads leads to, the imports of each module are of the
types that its binary has declared, and the entry for each item of its index spaces, through
any number of re-exports, is that of the entity which the names lead to, and which is there. -/
theorem LoadTarget.Reachable.imports_sound {host : HostSetup} {t : LoadTarget}
    (h : t.Reachable host) : ∃ store code, host.store = .ok store ∧
      (∃ decls, LoadHistory ⟨store, code⟩ t decls) ∧
      ∀ decls, LoadHistory ⟨store, code⟩ t decls → decls.length = t.store.modules.length ∧
        ∀ k m ds, t.store.modules[k]? = some m → decls[k]? = some ds →
          List.Forall₂ (fun d i => i.Matches t.store m.types d.desc) ds m.imports ∧
          ∀ item j, m.exportEntry k item = some j → ∃ entity,
            Denotes t.store decls k item entity ∧ entity.entry = j ∧ entity.Exists t.store ∧
              ∀ other, other.Exists t.store → other.entry = j → other = entity := by
  obtain ⟨store, code, hstore, hsteps⟩ := h
  have hstart : store.Sourced [] :=
    ⟨Store.faithful_fromHostModules hstore, HostSetup.bounded hstore, fun k m ds _ hds => by
      cases hds⟩
  refine ⟨store, code, hstore, exists_loadHistory hstart.faithful hsteps,
    fun decls hhistory => ?_⟩
  have hs : t.store.Sourced decls := hhistory.sourced hstart
  obtain ⟨hlength, hsound⟩ := hs.importsSound
  exact ⟨hlength, fun k m ds hm hds => ⟨hs.typed k m ds hm hds, (hsound k m ds hm hds).2⟩⟩

theorem Session.load?_loadStep {η : Type} {s s' : Session η} {name : Name} {wasm : List U8}
    (h : s.load? name wasm = some s') : LoadStep s.target s'.target := by
  obtain ⟨r, t, hload, -, rfl⟩ := load?_eq h
  exact .loaded _ _ _ r hload

/-- A module that imports the function `f` of the module `a` and exports it again. -/
def reexporter : List U8 :=
  [0x00, 0x61, 0x73, 0x6D, 0x01, 0x00, 0x00, 0x00, 0x01, 0x04, 0x01, 0x60, 0x00, 0x00, 0x02, 0x07,
    0x01, 0x01, 0x61, 0x01, 0x66, 0x00, 0x00, 0x07, 0x05, 0x01, 0x01, 0x66, 0x00, 0x00]

theorem LoadTarget.Reachable.imports_sound_reexporter : ∃ t store code decls m entity,
    LoadHistory ⟨store, code⟩ t decls ∧ t.store.modules[1]? = some m ∧
      m.exportEntry 1 (.func 0) = some (.func 0 0) ∧
      Denotes t.store decls 1 (.func 0) entity ∧ entity.entry = .func 0 0 := by
  have hrun : ((emptySession.load? [0x61] exporter).bind fun s =>
      (s.load? [0x62] reexporter).bind fun u => u.target.store.modules[1]?.bind fun m =>
        m.exportEntry 1 (.func 0)) = some (.func 0 0) := by decide +kernel
  obtain ⟨s, hs, hrun⟩ := Option.bind_eq_some_iff.1 hrun
  obtain ⟨u, hu, hrun⟩ := Option.bind_eq_some_iff.1 hrun
  obtain ⟨m, hm, hentry⟩ := Option.bind_eq_some_iff.1 hrun
  have hreachable : u.target.Reachable emptyHost := ⟨emptyStore, emptyBuilder, rfl,
    .tail (.single (Session.load?_loadStep hs)) (Session.load?_loadStep hu)⟩
  obtain ⟨store, code, -, ⟨decls, hhistory⟩, hsound⟩ :=
    LoadTarget.Reachable.imports_sound hreachable
  obtain ⟨hlength, hmodules⟩ := hsound decls hhistory
  have hlt := (List.getElem?_eq_some_iff.1 hm).1
  obtain ⟨-, hitems⟩ := hmodules 1 m _ hm (List.getElem?_eq_getElem (hlength ▸ hlt))
  obtain ⟨entity, hdenotes, hj, -, -⟩ := hitems (.func 0) _ hentry
  exact ⟨u.target, store, code, decls, m, entity, hhistory, hm, hentry, hdenotes, hj⟩

end SpaceWasm
