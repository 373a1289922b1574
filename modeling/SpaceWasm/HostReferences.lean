import SpaceWasm.Framing
import SpaceWasm.ImportDecls
import SpaceWasm.ModuleNames

/-!
# Host references

An entry for a host symbol holds the position of its module in 8 bits and that of
the symbol in 16. `FindsHost` says which host symbol an import means: the one that
its names find, or the one that the import means which a loaded module exports
again under these names. Positions are natural numbers there. Nothing bounds the
list of host modules or the symbols in one of them, so an entry designates what
its import means if and only if the positions fit.
-/

namespace SpaceWasm

open Fallible Relation

/-! ### Entries by name -/

/-- The entry that the names and the kind of an import lead to. -/
def Store.linked? (s : Store) (d : ImportDecl) : Option Import :=
  match s.hostLookup d.module d.name d.desc with
  | some (mi, i) => some (d.desc.hostEntry mi i)
  | none => (s.findExport d.module d.name).bind fun p => p.2.1.exportEntry p.1 p.2.2

/-- The entry is of the kind that is asked for. -/
def ImportDesc.selects : ImportDesc → Import → Bool
  | .func _, i => i.funcRef?.isSome
  | .global _, i => i.globalRef?.isSome
  | .table _, i => i.isTable
  | .mem _, i => i.isMemory

variable {s : Store} {m : Module} {d : ImportDecl} {j : Import}

theorem entry_of_host {mi i : ℕ} (h : s.hostLookup d.module d.name d.desc = some (mi, i)) :
    s.linked? d = some (d.desc.hostEntry mi i) := by
  rw [Store.linked?, h]

theorem entry_of_export {k : ℕ} {em : Module} {e : ExportDesc}
    (h : s.hostLookup d.module d.name d.desc = none)
    (hexport : s.findExport d.module d.name = some (k, em, e)) :
    s.linked? d = em.exportEntry k e := by
  rw [Store.linked?, h, hexport]
  rfl

theorem selects_of_matches {types : List FuncType} {desc : ImportDesc}
    (h : j.Matches s types desc) :
    desc.selects j = true := by
  cases desc with
  | func x =>
      obtain ⟨ty, -, hty⟩ := h
      cases j <;> first | rfl | cases hty
  | global ty =>
      have hty : s.importGlobal? j = some ty := h
      cases j <;> first | rfl | cases hty
  | table ty =>
      obtain ⟨limits, hlimits, -⟩ := h
      cases j <;> first | rfl | cases hlimits
  | mem ty =>
      obtain ⟨memTy, hmem, -⟩ := h
      cases j <;> first | rfl | cases hmem

/-- An import that is linked gets the entry of its names. -/
theorem entry_of_link (hs : s.modules.length ≤ 256)
    (h : linkImport m d.module d.name d.desc s () = .ok j ()) :
    s.linked? d = some j ∧ d.desc.selects j = true := by
  cases hhost : s.hostLookup d.module d.name d.desc with
  | some p =>
      obtain ⟨mi, i⟩ := p
      obtain ⟨rfl, -⟩ := (linkImport_host hhost).1 h
      refine ⟨entry_of_host hhost, ?_⟩
      cases d.desc <;> rfl
  | none =>
      obtain ⟨k, em, e, hexport, hentry, hmatches⟩ := (linkImport_export hs hhost).1 h
      exact ⟨(entry_of_export hhost hexport).trans hentry, selects_of_matches hmatches⟩

/-! ### Later stores -/

theorem findFirst_append {α β : Type} {f : ℕ → α → Option β} {as bs : List α} {n : ℕ} {b : β}
    (h : findFirst f as n = some b) : findFirst f (as ++ bs) n = some b := by
  induction as generalizing n with
  | nil => cases h
  | cons a as ih =>
      rw [List.cons_append, findFirst]
      rw [findFirst] at h
      cases hf : f n a with
      | some b' =>
          rw [hf] at h
          exact h
      | none =>
          rw [hf] at h
          exact ih h

/-- The store `s'` has the modules of `s`, and maybe more. -/
structure Store.Loads (s s' : Store) : Prop where
  modules : s.modules <+: s'.modules
  hostModules : s'.hostModules = s.hostModules

theorem Store.Loads.hostLookup {s' : Store} (h : s.Loads s') (moduleName name : Name)
    (desc : ImportDesc) :
    s'.hostLookup moduleName name desc = s.hostLookup moduleName name desc := by
  cases desc <;> simp only [Store.hostLookup, Store.findHost, h.hostModules]

theorem Store.Loads.findExport {s' : Store} {moduleName name : Name} {p : ℕ × Module × ExportDesc}
    (h : s.Loads s') (hfind : s.findExport moduleName name = some p) :
    s'.findExport moduleName name = some p := by
  obtain ⟨more, hmore⟩ := h.modules
  rw [Store.findExport, ← hmore]
  exact findFirst_append hfind

theorem Store.Loads.linked? {s' : Store} (h : s.Loads s') (hentry : s.linked? d = some j) :
    s'.linked? d = some j := by
  cases hhost : s.hostLookup d.module d.name d.desc with
  | some p =>
      rw [entry_of_host hhost] at hentry
      rw [entry_of_host ((h.hostLookup _ _ _).trans hhost), hentry]
  | none =>
      rw [Store.linked?, hhost] at hentry
      obtain ⟨p, hexport, hentry⟩ := Option.bind_eq_some_iff.1 hentry
      rw [entry_of_export ((h.hostLookup _ _ _).trans hhost) (h.findExport hexport), hentry]

/-! ### Re-exports -/

def ImportDesc.isFunc : ImportDesc → Bool
  | .func _ => true
  | _ => false

def ImportDesc.isGlobal : ImportDesc → Bool
  | .global _ => true
  | _ => false

/-- The import that an export of a module with these imports stands for, if it is one;
the imports come first in the index space of their kind. -/
def ExportDesc.reexports (decls : List ImportDecl) : ExportDesc → Option ImportDecl
  | .func x => (decls.filter fun d => d.desc.isFunc)[x]?
  | .global x => (decls.filter fun d => d.desc.isGlobal)[x]?
  | .table x => (decls.filter fun d => d.desc.isTable)[x]?
  | .mem x => (decls.filter fun d => d.desc.isMemory)[x]?

/-- The table field that an import leads to. -/
def Import.tableKind? : Import → Option TableKind
  | .table m _ => some (.import_ m)
  | .hostTable m i => some (.importHost ⟨m, i⟩)
  | _ => none

/-- The memory field that an import leads to. -/
def Import.memoryKind? : Import → Option MemoryKind
  | .memory m _ => some (.import_ m)
  | .hostMemory m i => some (.importHost ⟨m, i⟩)
  | _ => none

/-- The table and the memory of a module are the imported ones, if there are such, or
else its own. An empty memory section may have dropped the memory. -/
structure Module.Resolved (m : Module) : Prop where
  table : ∀ i ∈ m.imports, ∀ kind, i.tableKind? = some kind → m.table = some kind
  memory : ∀ i ∈ m.imports, ∀ kind, i.memoryKind? = some kind →
    m.memory = some kind ∨ m.memory = none
  ownTable : ∀ kind, m.table = some kind →
    (∃ t ty, kind = .owned t ty) ∨ ∃ i ∈ m.imports, i.tableKind? = some kind
  ownMemory : ∀ kind, m.memory = some kind →
    (∃ mem, kind = .owned mem) ∨ ∃ i ∈ m.imports, i.memoryKind? = some kind

/-- The imports of a module are the entries of its declarations. -/
def Module.Declares (s : Store) (decls : List ImportDecl) (m : Module) : Prop :=
  List.Forall₂ (fun d i => s.linked? d = some i ∧ d.desc.selects i = true) decls m.imports

theorem Module.Declares.exists_entry {decls : List ImportDecl} (hm : m.Declares s decls)
    (hd : d ∈ decls) : ∃ i ∈ m.imports, s.linked? d = some i := by
  unfold Module.Declares at hm
  generalize m.imports = imports at hm ⊢
  induction hm with
  | nil => cases hd
  | cons hlink _ ih =>
      rcases List.mem_cons.1 hd with rfl | hd
      · exact ⟨_, List.mem_cons_self, hlink.1⟩
      · obtain ⟨i, hi, hentry⟩ := ih hd
        exact ⟨i, List.mem_cons_of_mem _ hi, hentry⟩

theorem forall₂_filter {β : Type} {R : ImportDecl → Import → Prop} {p : ImportDecl → Bool}
    {f : Import → Option β} {decls : List ImportDecl} {imports : List Import}
    (h : List.Forall₂ R decls imports) (hp : ∀ d i, R d i → p d = (f i).isSome) :
    List.Forall₂ (fun d b => ∃ i ∈ imports, R d i ∧ f i = some b) (decls.filter p)
      (imports.filterMap f) := by
  induction h with
  | nil => exact .nil
  | @cons d i decls imports hd _ ih =>
      replace ih : List.Forall₂ (fun d b => ∃ i' ∈ i :: imports, R d i' ∧ f i' = some b)
          (decls.filter p) (imports.filterMap f) := by
        refine ih.imp fun d b h => ?_
        obtain ⟨i', hi', h⟩ := h
        exact ⟨i', List.mem_cons_of_mem i hi', h⟩
      have hpi := hp d i hd
      cases hf : f i with
      | none =>
          rw [hf] at hpi
          rw [List.filterMap_cons_none hf, List.filter_cons_of_neg (by simpa using hpi)]
          exact ih
      | some b =>
          rw [hf] at hpi
          rw [List.filterMap_cons_some hf, List.filter_cons_of_pos hpi]
          exact .cons ⟨i, List.mem_cons_self, hd, hf⟩ ih

/-- The positions in an entry for a host symbol. -/
def Import.hostPosition : Import → Option (ℕ × ℕ)
  | .hostFunc m i => some (m.toNat, i.toNat)
  | .hostGlobal m i => some (m.toNat, i.toNat)
  | .hostTable m i => some (m.toNat, i.toNat)
  | .hostMemory m i => some (m.toNat, i.toNat)
  | _ => none

/-- The table and memory entries of loaded modules have index zero. -/
theorem entry_index {r : ModuleRef} {x : U16} :
    (s.linked? d = some (.table r x) → x = 0) ∧ (s.linked? d = some (.memory r x) → x = 0) := by
  cases hhost : s.hostLookup d.module d.name d.desc with
  | some p =>
      rw [entry_of_host hhost]
      cases d.desc <;> exact ⟨nofun, nofun⟩
  | none =>
      cases hexport : s.findExport d.module d.name with
      | none =>
          rw [Store.linked?, hhost, hexport]
          exact ⟨nofun, nofun⟩
      | some p =>
          obtain ⟨k, em, e⟩ := p
          rw [entry_of_export hhost hexport]
          cases e with
          | func x =>
              constructor <;> intro h <;> obtain ⟨r, -, h⟩ := Module.exportEntry_func.1 h <;>
                cases r <;> cases h
          | global x =>
              constructor <;> intro h <;> obtain ⟨r, -, h⟩ := Module.exportEntry_global.1 h <;>
                cases r <;> cases h
          | table x =>
              constructor <;> intro h <;> obtain ⟨-, kind, -, h⟩ := Module.exportEntry_table.1 h <;>
                cases kind <;> cases h <;> rfl
          | mem x =>
              constructor <;> intro h <;> obtain ⟨-, kind, -, h⟩ := Module.exportEntry_mem.1 h <;>
                cases kind <;> cases h <;> rfl

theorem selects_eq {desc : ImportDesc} {i : Import} (h : desc.selects i = true) :
    desc.isFunc = i.funcRef?.isSome ∧ desc.isGlobal = i.globalRef?.isSome ∧
      desc.isTable = i.tableKind?.isSome ∧ desc.isMemory = i.memoryKind?.isSome := by
  cases desc <;> cases i <;> first | exact ⟨rfl, rfl, rfl, rfl⟩ | cases h

section Reexport

variable {decls : List ImportDecl} {e : ExportDesc} {k : ℕ}

/-- The entry of an export is that of the import it stands for. The entry of an export
that stands for no import is not one for a host symbol. -/
theorem Module.Declares.reexports (hm : m.Declares s decls) (hr : m.Resolved)
    (hentry : m.exportEntry k e = some j) :
    (∀ d, e.reexports decls = some d → s.linked? d = some j) ∧
      (e.reexports decls = none → j.hostPosition = none) := by
  cases e with
  | func x =>
      obtain ⟨r, href, rfl⟩ := exportEntry_func.1 hentry
      rw [getFuncRef_eq, funcSpace, getElem?_append_ownRefs] at href
      have hfilter := forall₂_filter hm fun d i h => (selects_eq h.2).1
      dsimp only [ExportDesc.reexports]
      cases hd : (decls.filter fun d => d.desc.isFunc)[x]? with
      | none =>
          rw [forall₂_getElem?_none hfilter hd] at href
          refine ⟨nofun, fun _ => ?_⟩
          dsimp only at href
          split at href <;> cases href
          rfl
      | some d =>
          obtain ⟨r', hi, i, -, hdi, hir⟩ := forall₂_getElem? hfilter hd
          rw [hi] at href
          cases href
          refine ⟨?_, nofun⟩
          rintro _ ⟨⟩
          rw [hdi.1]
          cases i <;> cases hir <;> rfl
  | global x =>
      obtain ⟨r, href, rfl⟩ := exportEntry_global.1 hentry
      rw [getGlobalRef_eq, globalSpace, getElem?_append_ownRefs] at href
      have hfilter := forall₂_filter hm fun d i h => (selects_eq h.2).2.1
      dsimp only [ExportDesc.reexports]
      cases hd : (decls.filter fun d => d.desc.isGlobal)[x]? with
      | none =>
          rw [forall₂_getElem?_none hfilter hd] at href
          refine ⟨nofun, fun _ => ?_⟩
          dsimp only at href
          split at href <;> cases href
          rfl
      | some d =>
          obtain ⟨r', hi, i, -, hdi, hir⟩ := forall₂_getElem? hfilter hd
          rw [hi] at href
          cases href
          refine ⟨?_, nofun⟩
          rintro _ ⟨⟩
          rw [hdi.1]
          cases i <;> cases hir <;> rfl
  | table x =>
      obtain ⟨hx, kind, hkind, rfl⟩ := exportEntry_table.1 hentry
      obtain rfl : x = 0 := Nat.eq_zero_of_not_pos hx
      have hfilter := forall₂_filter hm fun d i h => (selects_eq h.2).2.2.1
      dsimp only [ExportDesc.reexports]
      cases hd : (decls.filter fun d => d.desc.isTable)[0]? with
      | none =>
          have hnone := forall₂_getElem?_none hfilter hd
          refine ⟨nofun, fun _ => ?_⟩
          rcases hr.ownTable kind hkind with ⟨t, ty, rfl⟩ | ⟨i, himport, hik⟩
          · rfl
          · rw [List.getElem?_eq_none_iff, Nat.le_zero, List.length_eq_zero_iff] at hnone
            rw [List.filterMap_eq_nil_iff.1 hnone i himport] at hik
            cases hik
      | some d =>
          obtain ⟨kind', -, i, himport, hdi, hik⟩ := forall₂_getElem? hfilter hd
          cases hkind.symm.trans (hr.table i himport kind' hik)
          refine ⟨?_, nofun⟩
          rintro _ ⟨⟩
          cases i <;> cases hik
          · rw [hdi.1, entry_index.1 hdi.1]
            rfl
          · exact hdi.1
  | mem x =>
      obtain ⟨hx, kind, hkind, rfl⟩ := exportEntry_mem.1 hentry
      obtain rfl : x = 0 := Nat.eq_zero_of_not_pos hx
      have hfilter := forall₂_filter hm fun d i h => (selects_eq h.2).2.2.2
      dsimp only [ExportDesc.reexports]
      cases hd : (decls.filter fun d => d.desc.isMemory)[0]? with
      | none =>
          have hnone := forall₂_getElem?_none hfilter hd
          refine ⟨nofun, fun _ => ?_⟩
          rcases hr.ownMemory kind hkind with ⟨mem, rfl⟩ | ⟨i, himport, hik⟩
          · rfl
          · rw [List.getElem?_eq_none_iff, Nat.le_zero, List.length_eq_zero_iff] at hnone
            rw [List.filterMap_eq_nil_iff.1 hnone i himport] at hik
            cases hik
      | some d =>
          obtain ⟨kind', -, i, himport, hdi, hik⟩ := forall₂_getElem? hfilter hd
          rcases hr.memory i himport kind' hik with hsome | hnone
          · cases hkind.symm.trans hsome
            refine ⟨?_, nofun⟩
            rintro _ ⟨⟩
            cases i <;> cases hik
            · rw [hdi.1, entry_index.2 hdi.1]
              rfl
            · exact hdi.1
          · cases hkind.symm.trans hnone

end Reexport

/-! ### The import section -/

section Imports

variable {env : LoadEnv} {s t : LoadState} {i : Import}

/-- A field that is set if there is something to set, and which must be empty then. -/
def Fills {K : Type} (kind? : Option K) (old new : Option K) : Prop :=
  match kind? with
  | some kind => old = none ∧ new = some kind
  | none => new = old

theorem importTable_eq_ok {β : Type} {kind : TableKind} {o : Store → Option β}
    (h : (importTable kind >>= fun _ => Fallible.get >>= fun s => present (o s.store)) s =
      .ok () t) :
    s.module.table = none ∧ t = { s with module := { s.module with table := some kind } } := by
  obtain ⟨_, u, hu, h⟩ := bind_eq_ok.1 h
  rw [bind_of_ok (get_apply u)] at h
  obtain ⟨_, v, hv, h⟩ := bind_eq_ok.1 h
  obtain ⟨-, rfl⟩ := unwrap_eq_ok.1 hv
  cases h
  unfold importTable at hu
  rw [bind_of_ok (get_apply s)] at hu
  split at hu
  · cases hu
  · next hnone =>
    cases hu
    exact ⟨not_not.1 hnone, rfl⟩

theorem importMemory_eq_ok {β : Type} {kind : MemoryKind} {o : Store → Option β}
    (h : (importMemory kind >>= fun _ => Fallible.get >>= fun s => present (o s.store)) s =
      .ok () t) :
    s.module.memory = none ∧ t = { s with module := { s.module with memory := some kind } } := by
  obtain ⟨_, u, hu, h⟩ := bind_eq_ok.1 h
  rw [bind_of_ok (get_apply u)] at h
  obtain ⟨_, v, hv, h⟩ := bind_eq_ok.1 h
  obtain ⟨-, rfl⟩ := unwrap_eq_ok.1 hv
  cases h
  unfold importMemory at hu
  rw [bind_of_ok (get_apply s)] at hu
  split at hu
  · cases hu
  · next hnone =>
    cases hu
    exact ⟨not_not.1 hnone, rfl⟩

/-- Resolving an import sets the field it leads to, which must have been empty. -/
theorem resolveImport_fields (h : resolveImport i s = .ok () t) :
    t.store = s.store ∧ t.module.imports = s.module.imports ∧
      Fills i.tableKind? s.module.table t.module.table ∧
      Fills i.memoryKind? s.module.memory t.module.memory := by
  cases i with
  | table r x =>
      obtain ⟨hnone, rfl⟩ := importTable_eq_ok (o := fun s => s.ownedTable? r) h
      exact ⟨rfl, rfl, ⟨hnone, rfl⟩, rfl⟩
  | hostTable r x =>
      obtain ⟨hnone, rfl⟩ := importTable_eq_ok (o := fun s => s.hostTable? ⟨r, x⟩) h
      exact ⟨rfl, rfl, ⟨hnone, rfl⟩, rfl⟩
  | memory r x =>
      obtain ⟨hnone, rfl⟩ := importMemory_eq_ok (o := fun s => s.ownedMemory? r) h
      exact ⟨rfl, rfl, rfl, ⟨hnone, rfl⟩⟩
  | hostMemory r x =>
      obtain ⟨hnone, rfl⟩ := importMemory_eq_ok (o := fun s => s.hostMemory? ⟨r, x⟩) h
      exact ⟨rfl, rfl, rfl, ⟨hnone, rfl⟩⟩
  | func | hostFunc | global | hostGlobal =>
      cases h
      exact ⟨rfl, rfl, rfl, rfl⟩

/-- Resolving imports one by one fills a field that starts empty with the one import
that it can hold. -/
theorem forEach_field {K : Type} (kind? : Import → Option K) (field : LoadState → Option K)
    (hstep : ∀ i s t, resolveImport i s = .ok () t → Fills (kind? i) (field s) (field t))
    {imports : List Import} (h : forEach imports resolveImport s = .ok () t) :
    (∀ k, field s = some k → field t = some k) ∧
      (∀ i ∈ imports, ∀ k, kind? i = some k → field t = some k) ∧
      ∀ k, field t = some k → field s = some k ∨ ∃ i ∈ imports, kind? i = some k := by
  induction imports generalizing s with
  | nil =>
      cases h
      exact ⟨fun _ h => h, nofun, fun _ h => Or.inl h⟩
  | cons i imports ih =>
      obtain ⟨_, u, hu, h⟩ := bind_eq_ok.1 h
      obtain ⟨hkeep, himports, hfrom⟩ := ih h
      have hi := hstep i s u hu
      unfold Fills at hi
      cases hk : kind? i with
      | none =>
          rw [hk] at hi
          rw [← hi]
          refine ⟨hkeep, fun i' hi' k hk' => ?_, fun k hk' => ?_⟩
          · rcases List.mem_cons.1 hi' with rfl | hi'
            · cases hk.symm.trans hk'
            · exact himports i' hi' k hk'
          · exact (hfrom k hk').imp id fun ⟨i', hi', hk'⟩ => ⟨i', List.mem_cons_of_mem _ hi', hk'⟩
      | some k =>
          rw [hk] at hi
          refine ⟨fun k' hk' => ?_, fun i' hi' k' hk' => ?_, fun k' hk' => ?_⟩
          · cases hi.1.symm.trans hk'
          · rcases List.mem_cons.1 hi' with rfl | hi'
            · obtain rfl : k = k' := Option.some.inj (hk.symm.trans hk')
              exact hkeep k hi.2
            · exact himports i' hi' k' hk'
          · rcases hfrom k' hk' with hk' | ⟨i', hi', hk'⟩
            · obtain rfl : k = k' := Option.some.inj (hi.2.symm.trans hk')
              exact Or.inr ⟨i, List.mem_cons_self, hk⟩
            · exact Or.inr ⟨i', List.mem_cons_of_mem _ hi', hk'⟩

theorem forEach_resolveImport_frame {imports : List Import}
    (h : forEach imports resolveImport s = .ok () t) :
    t.store = s.store ∧ t.module.imports = s.module.imports := by
  induction imports generalizing s with
  | nil =>
      cases h
      exact ⟨rfl, rfl⟩
  | cons i imports ih =>
      obtain ⟨_, u, hu, h⟩ := bind_eq_ok.1 h
      obtain ⟨hstore, himports, -, -⟩ := resolveImport_fields hu
      obtain ⟨hstore', himports'⟩ := ih h
      exact ⟨hstore'.trans hstore, himports'.trans himports⟩

/-- A module without a table and a memory gets those it imports. -/
theorem readImportSection_declares (hs : s.store.modules.length ≤ 256)
    (htable : s.module.table = none) (hmemory : s.module.memory = none)
    (h : readImportSection s = .ok () t) :
    ∃ decls r, readImportDecls s.wasm = .ok decls r ∧ t.module.Declares t.store decls ∧
      t.module.Resolved ∧
      ∀ i ∈ t.module.imports, ∀ kind, i.memoryKind? = some kind → t.module.memory = some kind := by
  obtain ⟨imports, u, hu, h⟩ := bind_eq_ok.1 h
  obtain ⟨_, v, hv, h⟩ := bind_eq_ok.1 h
  cases hv
  obtain ⟨decls, hdecls, hstore, hmodule, hlinks⟩ := readVec_importRead hu
  obtain ⟨hstore', himports⟩ := forEach_resolveImport_frame h
  replace himports : t.module.imports = imports := himports
  obtain ⟨-, htables, htableFrom⟩ := forEach_field Import.tableKind? (fun s => s.module.table)
    (fun _ _ _ h => (resolveImport_fields h).2.2.1) h
  obtain ⟨-, hmemories, hmemoryFrom⟩ := forEach_field Import.memoryKind? (fun s => s.module.memory)
    (fun _ _ _ h => (resolveImport_fields h).2.2.2) h
  have hdeclares : t.module.Declares t.store decls := by
    rw [Module.Declares, himports, hstore']
    refine hlinks.imp fun d i hlink => ?_
    rw [show u.store = s.store from hstore]
    exact entry_of_link hs hlink
  rw [← himports] at htables htableFrom hmemories hmemoryFrom
  refine ⟨decls, u.wasm, hdecls, hdeclares, ⟨htables, fun i hi kind hk => ?_, fun kind hk => ?_,
    fun kind hk => ?_⟩, hmemories⟩
  · exact Or.inl (hmemories i hi kind hk)
  · refine (htableFrom kind hk).imp (fun hnone => ?_) id
    cases (htable.symm.trans (congrArg Module.table hmodule.symm)).trans hnone
  · refine (hmemoryFrom kind hk).imp (fun hnone => ?_) id
    cases (hmemory.symm.trans (congrArg Module.memory hmodule.symm)).trans hnone

end Imports

/-! ### The sections after it -/

section Sections

variable {env : LoadEnv} {s t u : LoadState} {last next kind : SectionKind}
  {decls : List ImportDecl}

theorem Store.Evolves.loads {W : Footprint} {s s' : Store} (h : s.Evolves W s') : s.Loads s' :=
  ⟨by rw [h.modules], h.hostModules⟩

theorem Module.Declares.loads {s s' : Store} (hm : m.Declares s decls) (h : s.Loads s') :
    m.Declares s' decls :=
  hm.imp fun _ _ hd => ⟨h.linked? hd.1, hd.2⟩

theorem readTableSection_eq_ok (h : readTableSection s = .ok () t) :
    s.module.table = none ∧ ∀ kind, t.module.table = some kind → ∃ r ty, kind = .owned r ty := by
  unfold readTableSection at h
  rw [bind_of_ok (get_apply s)] at h
  split at h
  · cases h
  · next hnone =>
    refine ⟨not_not.1 hnone, ?_⟩
    obtain ⟨n, u, -, h⟩ := bind_eq_ok.1 h
    split at h
    · cases h
      exact nofun
    · split at h
      · obtain ⟨ty, v, -, h⟩ := bind_eq_ok.1 h
        obtain ⟨r, w, -, h⟩ := bind_eq_ok.1 h
        cases h
        rintro _ ⟨⟩
        exact ⟨r, ty, rfl⟩
      · cases h

theorem readMemorySection_eq_ok (h : readMemorySection env s = .ok () t) :
    t.module.memory = none ∨
      s.module.memory = none ∧ ∃ mem, t.module.memory = some (.owned mem) := by
  unfold readMemorySection at h
  obtain ⟨n, u, hn, h⟩ := bind_eq_ok.1 h
  obtain ⟨r, -, rfl⟩ := zoom_eq_ok.1 hn
  split at h
  · cases h
  · split at h
    · cases h
      exact Or.inl rfl
    · rw [bind_of_ok (get_apply _)] at h
      split at h
      · cases h
      · next hnone =>
        obtain ⟨ty, v, -, h⟩ := bind_eq_ok.1 h
        obtain ⟨mem, w, -, h⟩ := bind_eq_ok.1 h
        cases h
        exact Or.inr ⟨not_not.1 hnone, mem, rfl⟩

/-- A load after sections up to `last`, whose imports are those of the declarations. -/
structure LoadState.HasImports (decls : List ImportDecl) (last : SectionKind) (s : LoadState) :
    Prop where
  fresh : last.toNat < SectionKind.import_.toNat →
    s.module.table = none ∧ s.module.memory = none
  declares : s.module.Declares s.store decls
  resolved : s.module.Resolved
  memory : last.toNat < SectionKind.memory.toNat →
    ∀ i ∈ s.module.imports, ∀ kind, i.memoryKind? = some kind → s.module.memory = some kind

theorem LoadState.HasImports.body (hs : s.HasImports decls last) (hne : kind ≠ .import_)
    (horder : checkOrder last kind = .ok next) (hbody : readSectionBody env kind s = .ok () t) :
    t.HasImports decls next := by
  have hwithin := (readSectionBody_frame env fun _ _ _ =>
    LoadState.sectionWrites_all env kind _).ok rfl hbody
  obtain ⟨size, s₁, v, hsize, -, hsection, ht, -⟩ := readSectionBody_eq_ok hbody
  have hold : (s₁.enter size.toNat).module = s.module := by
    obtain ⟨r, -, rfl⟩ := zoom_eq_ok.1 hsize
    rfl
  have hnew : t.module = v.module := by
    rw [ht]
    rfl
  have hkind : kind = .custom ∧ next = last ∨ last.toNat < kind.toNat ∧ next = kind := by
    rcases checkOrder_eq_ok.1 horder with h | ⟨-, h⟩
    · exact Or.inl h
    · exact Or.inr h
  have himports := hwithin.module.imports hne
  have hdeclares : t.module.Declares t.store decls := by
    have hloads := hs.declares.loads hwithin.store.loads
    rw [Module.Declares, himports]
    exact hloads
  -- what the section does to the table and to the memory
  have htable : t.module.table = s.module.table ∨ s.module.table = none ∧
      ∀ k, t.module.table = some k → ∃ r ty, k = .owned r ty := by
    by_cases hk : kind = .table
    · subst hk
      rw [← hold, hnew]
      exact Or.inr (readTableSection_eq_ok hsection)
    · exact Or.inl (hwithin.module.table hne hk)
  have hmemory : kind ≠ .memory ∧ t.module.memory = s.module.memory ∨
      kind = .memory ∧ last.toNat < SectionKind.memory.toNat ∧
        (t.module.memory = none ∨ s.module.memory = none ∧
          ∃ mem, t.module.memory = some (.owned mem)) := by
    by_cases hk : kind = .memory
    · subst hk
      rw [← hold, hnew]
      refine Or.inr ⟨rfl, ?_, readMemorySection_eq_ok hsection⟩
      rcases hkind with ⟨h, -⟩ | ⟨h, -⟩
      · cases h
      · exact h
    · exact Or.inl ⟨hk, hwithin.module.memory hne hk⟩
  refine ⟨fun hnext => ?_, hdeclares, ⟨?_, ?_, ?_, ?_⟩, ?_⟩ <;> try rw [himports]
  · have hfresh := hs.fresh (by rcases hkind with ⟨-, rfl⟩ | ⟨h, rfl⟩ <;> omega)
    have hearlier : ∀ k : SectionKind, SectionKind.import_.toNat ≤ k.toNat → kind ≠ k := by
      rintro k hk rfl
      rcases hkind with ⟨rfl, -⟩ | ⟨-, rfl⟩
      · exact absurd hk (by decide)
      · omega
    rw [hwithin.module.table hne (hearlier _ (by decide)),
      hwithin.module.memory hne (hearlier _ (by decide))]
    exact hfresh
  · intro i hi k hk
    rcases htable with heq | ⟨hnone, -⟩
    · rw [heq]
      exact hs.resolved.table i hi k hk
    · cases hnone.symm.trans (hs.resolved.table i hi k hk)
  · intro i hi k hk
    rcases hmemory with ⟨-, heq⟩ | ⟨-, hlast, hnone | ⟨hnone, -⟩⟩
    · rw [heq]
      exact hs.resolved.memory i hi k hk
    · exact Or.inr hnone
    · cases hnone.symm.trans (hs.memory hlast i hi k hk)
  · intro k hk
    rcases htable with heq | ⟨-, howned⟩
    · rw [heq] at hk
      exact hs.resolved.ownTable k hk
    · exact Or.inl (howned k hk)
  · intro k hk
    rcases hmemory with ⟨-, heq⟩ | ⟨-, -, hnone | ⟨-, mem, howned⟩⟩
    · rw [heq] at hk
      exact hs.resolved.ownMemory k hk
    · cases hnone.symm.trans hk
    · exact Or.inl ⟨mem, Option.some.inj (hk.symm.trans howned)⟩
  · intro hnext i hi k hk
    rcases hmemory with ⟨-, heq⟩ | ⟨rfl, -, -⟩
    · rw [heq]
      refine hs.memory ?_ i hi k hk
      rcases hkind with ⟨-, rfl⟩ | ⟨h, rfl⟩ <;> omega
    · rcases hkind with ⟨h, -⟩ | ⟨-, rfl⟩
      · cases h
      · exact absurd hnext (Nat.lt_irrefl _)

theorem LoadState.HasImports.continues (hs : s.HasImports decls last) (h : s.Continues t) :
    t.HasImports decls last := by
  obtain ⟨hfresh, hdeclares, hresolved, hmemory⟩ := hs
  rw [← h.module] at hfresh hdeclares hresolved hmemory
  rw [← h.store] at hdeclares
  exact ⟨hfresh, hdeclares, hresolved, hmemory⟩

/-- The import section replaces the imports by those that it declares. -/
theorem LoadState.HasImports.importSection (hs : s.HasImports decls last)
    (hle : s.store.modules.length ≤ 256) (hlast : last.toNat < SectionKind.import_.toNat)
    (h : readSectionBody env .import_ s = .ok () t) :
    ∃ size s₁ decls' r, decoding readU32 s = .ok size s₁ ∧
      readImportDecls (s₁.enter size.toNat).wasm = .ok decls' r ∧ t.HasImports decls' .import_ := by
  obtain ⟨size, s₁, v, hsize, -, hsection, rfl, -⟩ := readSectionBody_eq_ok h
  have hcontinues : s.Continues s₁ := ((quiet_decoding decoder_readU32).ok (.refl s) hsize).1
  obtain ⟨hfresh, -, -, -⟩ := hs.continues hcontinues
  have hstore : (s₁.enter size.toNat).store.modules.length ≤ 256 := hcontinues.store ▸ hle
  obtain ⟨decls', r, hdecls, hdeclares, hresolved, hmemory⟩ :=
    readImportSection_declares hstore (hfresh hlast).1 (hfresh hlast).2 hsection
  exact ⟨size, s₁, decls', r, hsize, hdecls, fun hlt => absurd hlt (Nat.lt_irrefl _), hdeclares,
    hresolved, fun _ => hmemory⟩

/-- The imports of a module after its sections: those of the import section that the
load comes to, or, if there is none, those from before. -/
theorem readSections_imports {fuel : ℕ} {seenCode b : Bool} (hs : s.HasImports decls last)
    (hle : s.store.modules.length ≤ 256) (h : readSections env fuel last seenCode s = .ok b t) :
    ((∃ s' decls' r, last.toNat < SectionKind.import_.toNat ∧ AtSection env s last .import_ s' ∧
        readImportDecls s'.wasm = .ok decls' r ∧ t.module.Declares t.store decls') ∨
      (∀ s', ¬AtSection env s last .import_ s') ∧ t.module.Declares t.store decls) ∧
        t.module.Resolved := by
  induction fuel generalizing last seenCode s decls with
  | zero => cases h
  | succ fuel ih =>
      have hquiet := (quiet_decoding decoder_sectionKind : Quiet s _ _) s (.refl s)
      unfold readSections at h
      cases hr : decoding SectionKind.read s with
      | error e u =>
          rw [hr] at h hquiet
          cases e <;> cases h
          have ht := hs.continues hquiet
          refine ⟨Or.inr ⟨fun s' hat => ?_, ht.declares⟩, ht.resolved⟩
          cases hat with
          | here hk | later hk => cases hr.symm.trans hk
      | panic =>
          rw [hr] at h
          cases h
      | diverge =>
          rw [hr] at h
          cases h
      | ok kind u =>
          rw [hr] at h hquiet
          obtain ⟨next, v, hnext, h⟩ := bind_eq_ok.1 h
          obtain ⟨horder, rfl⟩ := ofExcept_eq_ok.1 (mapError_eq_ok.1 hnext)
          obtain ⟨_, w, hbody, h⟩ := bind_eq_ok.1 h
          have hu := hs.continues hquiet.1
          have hstore : u.store = s.store := hquiet.1.store
          have hmodules : w.store.modules.length ≤ 256 := by
            have hwithin := (readSectionBody_frame env fun _ _ _ =>
              LoadState.sectionWrites_all env kind _).ok rfl hbody
            rw [hwithin.store.modules, hstore]
            exact hle
          by_cases hkind : kind = .import_
          · subst hkind
            obtain ⟨-, hlast, rfl⟩ := (checkOrder_eq_ok.1 horder).resolve_left fun h => by cases h.1
            obtain ⟨size, s₁, decls', r, hsize, hdecls, hw⟩ :=
              hu.importSection (hstore ▸ hle) hlast hbody
            obtain ⟨⟨_, _, _, hlt, -⟩ | ⟨-, hdeclares⟩, hresolved⟩ := ih hw hmodules h
            · exact absurd hlt (Nat.lt_irrefl _)
            · exact ⟨Or.inl ⟨_, decls', r, hlast, .here hr horder hsize, hdecls, hdeclares⟩,
                hresolved⟩
          · obtain ⟨hor, hresolved⟩ := ih (hu.body hkind horder hbody) hmodules h
            refine ⟨?_, hresolved⟩
            rcases hor with ⟨s', decls', r, hlt, hat, hdecls, hdeclares⟩ | ⟨hnone, hdeclares⟩
            · refine Or.inl ⟨s', decls', r, ?_, .later hr horder hbody hat, hdecls, hdeclares⟩
              rcases checkOrder_eq_ok.1 horder with ⟨-, rfl⟩ | ⟨-, hlast, rfl⟩ <;> omega
            · refine Or.inr ⟨fun s' hat => ?_, hdeclares⟩
              cases hat with
              | here hk =>
                  cases hr.symm.trans hk
                  exact hkind rfl
              | later hk ho hb hat =>
                  cases hr.symm.trans hk
                  cases horder.symm.trans ho
                  cases hbody.symm.trans hb
                  exact hnone s' hat

end Sections

/-! ### Histories -/

/-- Sections come in order. -/
theorem AtSection.lt {env : LoadEnv} {s u : LoadState} {last kind : SectionKind}
    (h : AtSection env s last kind u) (hne : kind ≠ .custom) : last.toNat < kind.toNat := by
  induction h with
  | here _ horder _ => exact ((checkOrder_eq_ok.1 horder).resolve_left fun h => hne h.1).2.1
  | later _ horder _ _ ih => exact Nat.lt_of_le_of_lt (checkOrder_le horder) (ih hne)

/-- A load comes to one section of a kind, custom sections apart. -/
theorem AtSection.unique {env : LoadEnv} {s u v : LoadState} {last kind : SectionKind}
    (h : AtSection env s last kind u) (h' : AtSection env s last kind v)
    (hne : kind ≠ .custom) : u = v := by
  induction h with
  | here hk horder hsize =>
      cases h' with
      | here hk' _ hsize' =>
          cases hk.symm.trans hk'
          cases hsize.symm.trans hsize'
          rfl
      | later hk' horder' _ hat =>
          -- after the section comes none of its kind
          cases hk.symm.trans hk'
          obtain ⟨-, -, rfl⟩ := (checkOrder_eq_ok.1 horder').resolve_left fun h => hne h.1
          exact absurd (hat.lt hne) (Nat.lt_irrefl _)
  | later hk horder hbody hat ih =>
      cases h' with
      | here hk' horder' _ =>
          cases hk.symm.trans hk'
          obtain ⟨-, -, rfl⟩ := (checkOrder_eq_ok.1 horder).resolve_left fun h => hne h.1
          exact absurd (hat.lt hne) (Nat.lt_irrefl _)
      | later hk' horder' hbody' hat' =>
          cases hk.symm.trans hk'
          cases horder.symm.trans horder'
          cases hbody.symm.trans hbody'
          exact ih hat' hne

/-- The import declarations of a binary: those of the import section that its load
comes to, if there is one. -/
def DeclaredBy (env : LoadEnv) (name : Name) (wasm : Reader) (t : LoadTarget)
    (decls : List ImportDecl) : Prop :=
  ∃ s, readHeader name (t.start name wasm) = .ok () s ∧
    ((∃ s' r, AtSection env s .custom .import_ s' ∧ readImportDecls s'.wasm = .ok decls r) ∨
      (∀ s', ¬AtSection env s .custom .import_ s') ∧ decls = [])

theorem DeclaredBy.unique {env : LoadEnv} {name : Name} {wasm : Reader} {t : LoadTarget}
    {ds ds' : List ImportDecl} (h : DeclaredBy env name wasm t ds)
    (h' : DeclaredBy env name wasm t ds') : ds = ds' := by
  obtain ⟨s, hheader, hds⟩ := h
  obtain ⟨s', hheader', hds'⟩ := h'
  cases hheader.symm.trans hheader'
  obtain ⟨u, r, hat, hread⟩ | ⟨hnone, rfl⟩ := hds <;>
    obtain ⟨u', r', hat', hread'⟩ | ⟨hnone', rfl⟩ := hds'
  · cases hat.unique hat' (by decide)
    cases hread.symm.trans hread'
    rfl
  · exact absurd hat (hnone' u)
  · exact absurd hat' (hnone u')
  · rfl

/-- A history of loads, with the import declarations of the modules that are loaded. -/
inductive LoadHistory (start : LoadTarget) : LoadTarget → List (List ImportDecl) → Prop where
  | start : LoadHistory start start []
  | loaded {t t' : LoadTarget} {decls : List (List ImportDecl)} {ds : List ImportDecl}
      (env : LoadEnv) (name : Name) (wasm : Reader) (r : ModuleRef) :
      LoadHistory start t decls → loadModule env name wasm t = .ok r t' →
      DeclaredBy env name wasm t ds → LoadHistory start t' (decls ++ [ds])
  | failed {t t' : LoadTarget} {decls : List (List ImportDecl)} (env : LoadEnv) (name : Name)
      (wasm : Reader) (e : LoadError) :
      LoadHistory start t decls → loadModule env name wasm t = .error e t' →
      LoadHistory start t' decls

/-- The host symbol that an import means, in a store whose modules have these import
declarations. -/
inductive FindsHost (s : Store) (decls : List (List ImportDecl)) : ImportDecl → ℕ × ℕ → Prop where
  | direct {d : ImportDecl} {p : ℕ × ℕ} : s.hostLookup d.module d.name d.desc = some p →
      FindsHost s decls d p
  | reexport {d d' : ImportDecl} {k : ℕ} {em : Module} {e : ExportDesc} {ds : List ImportDecl}
      {p : ℕ × ℕ} : s.hostLookup d.module d.name d.desc = none →
      s.findExport d.module d.name = some (k, em, e) → decls[k]? = some ds →
      e.reexports ds = some d' → FindsHost s decls d' p → FindsHost s decls d p

/-- A store whose modules have the import declarations `decls`, which were linked to
earlier modules. -/
structure Store.Faithful (decls : List (List ImportDecl)) (s : Store) : Prop where
  modules_le : s.modules.length ≤ s.maxModules
  maxModules_le : s.maxModules ≤ 256
  length : decls.length = s.modules.length
  declares : ∀ (k : ℕ) (em : Module) ds, s.modules[k]? = some em → decls[k]? = some ds →
    em.Declares s ds
  resolved : ∀ em ∈ s.modules, Module.Resolved em
  earlier : ∀ (k : ℕ) ds (d : ImportDecl) p, decls[k]? = some ds → d ∈ ds →
    s.hostLookup d.module d.name d.desc = none → s.findExport d.module d.name = some p → p.1 < k

section Faithful

variable {s : Store} {decls : List (List ImportDecl)} {d : ImportDecl} {j : Import} {p : ℕ × ℕ}

theorem Store.Faithful.le (hs : s.Faithful decls) : s.modules.length ≤ 256 :=
  Nat.le_trans hs.modules_le hs.maxModules_le

/-- The entry of an import holds the position of the host symbol it means, reduced to
the widths of its fields. -/
theorem Store.Faithful.hostPosition (hs : s.Faithful decls) (h : FindsHost s decls d p)
    (hj : s.linked? d = some j) : j.hostPosition = some (p.1 % 2 ^ 8, p.2 % 2 ^ 16) := by
  induction h with
  | @direct d p hhost =>
      rw [entry_of_host hhost] at hj
      obtain rfl := Option.some.inj hj
      cases d.desc <;> simp [ImportDesc.hostEntry, Import.hostPosition, HostModuleRef.new]
  | reexport hhost hexport hds hd _ ih =>
      rw [entry_of_export hhost hexport] at hj
      have hem := (findExport_some hexport).1
      exact ih (((hs.declares _ _ _ hem hds).reexports
        (hs.resolved _ (List.mem_of_getElem? hem)) hj).1 _ hd)

/-- An import whose entry is one for a host symbol means a host symbol. -/
theorem Store.Faithful.exists_findsHost (hs : s.Faithful decls) (hj : s.linked? d = some j)
    (hposition : j.hostPosition ≠ none) : ∃ p, FindsHost s decls d p := by
  -- by induction on the position of the module that exports it
  have hall : ∀ n d, s.linked? d = some j →
      (∀ p, s.hostLookup d.module d.name d.desc = none →
        s.findExport d.module d.name = some p → p.1 < n) → ∃ p, FindsHost s decls d p := by
    intro n
    induction n with
    | zero =>
        intro d hj hlt
        cases hhost : s.hostLookup d.module d.name d.desc with
        | some p => exact ⟨p, .direct hhost⟩
        | none =>
            rw [linked?, hhost] at hj
            obtain ⟨p, hexport, -⟩ := Option.bind_eq_some_iff.1 hj
            exact absurd (hlt p hhost hexport) (Nat.not_lt_zero _)
    | succ n ih =>
        intro d hj hlt
        cases hhost : s.hostLookup d.module d.name d.desc with
        | some p => exact ⟨p, .direct hhost⟩
        | none =>
            rw [linked?, hhost] at hj
            obtain ⟨⟨k, em, e⟩, hexport, hentry⟩ := Option.bind_eq_some_iff.1 hj
            have hem := (findExport_some hexport).1
            obtain ⟨ds, hds⟩ : ∃ ds, decls[k]? = some ds := by
              have hk := (List.getElem?_eq_some_iff.1 hem).1
              exact ⟨_, List.getElem?_eq_getElem (hs.length ▸ hk)⟩
            obtain ⟨hentries, hown⟩ := (hs.declares k em ds hem hds).reexports
              (hs.resolved em (List.mem_of_getElem? hem)) hentry
            cases hd : e.reexports ds with
            | none => exact absurd (hown hd) hposition
            | some d' =>
                have hk : k < n + 1 := hlt _ hhost hexport
                have hmem : d' ∈ ds := by
                  cases e <;> exact List.mem_of_mem_filter (List.mem_of_getElem? hd)
                obtain ⟨p, hp⟩ := ih d' (hentries d' hd) fun p hhost' hexport' => by
                  have := hs.earlier k ds d' p hds hmem hhost' hexport'
                  omega
                exact ⟨p, .reexport hhost hexport hds hd hp⟩
  cases hexport : s.findExport d.module d.name with
  | none => exact hall 0 d hj fun p _ hp => by rw [hexport] at hp; cases hp
  | some q =>
      refine hall (q.1 + 1) d hj fun p _ hp => ?_
      obtain rfl : q = p := Option.some.inj (hexport.symm.trans hp)
      exact Nat.lt_succ_self _

theorem Store.Faithful.evolves {W : Footprint} {s' : Store} (hs : s.Faithful decls)
    (h : s.Evolves W s') : s'.Faithful decls := by
  have hfind : ∀ moduleName name, s'.findExport moduleName name = s.findExport moduleName name :=
    fun moduleName name => by rw [findExport, findExport, h.modules]
  refine ⟨?_, ?_, ?_, fun k em ds hem hds => ?_, ?_, fun k ds d p hds hd hhost hexport => ?_⟩
  · rw [h.modules, h.maxModules]
    exact hs.modules_le
  · rw [h.maxModules]
    exact hs.maxModules_le
  · rw [h.modules]
    exact hs.length
  · rw [h.modules] at hem
    exact (hs.declares k em ds hem hds).loads h.loads
  · rw [h.modules]
    exact hs.resolved
  · rw [h.loads.hostLookup] at hhost
    rw [hfind] at hexport
    exact hs.earlier k ds d p hds hd hhost hexport

theorem Store.Loads.push {s' : Store} {m : Module} {r : ModuleRef}
    (h : s.pushModule m = .ok (r, s')) : s.Loads s' := by
  obtain ⟨-, -, rfl⟩ := pushModule_eq_ok.1 h
  exact ⟨List.prefix_append _ _, rfl⟩

/-- The declarations of a module are linked to the modules before it. -/
theorem Store.Faithful.push {s' : Store} {m : Module} {r : ModuleRef} {ds : List ImportDecl}
    (hs : s.Faithful decls) (hm : m.Declares s ds) (hresolved : m.Resolved)
    (h : s.pushModule m = .ok (r, s')) : s'.Faithful (decls ++ [ds]) := by
  have hloads := Store.Loads.push h
  obtain ⟨hlt, -, rfl⟩ := pushModule_eq_ok.1 h
  have hlength := hs.length
  -- the export that a declaration is linked to was there before the module was pushed
  have hold : ∀ d p, (∃ i, s.linked? d = some i) → s.hostLookup d.module d.name d.desc = none →
      Store.findExport { s with modules := s.modules ++ [m] } d.module d.name = some p →
        s.findExport d.module d.name = some p := by
    rintro d p ⟨i, hi⟩ hhost hexport
    rw [linked?, hhost] at hi
    obtain ⟨q, hq, -⟩ := Option.bind_eq_some_iff.1 hi
    rw [← hexport, hloads.findExport hq, hq]
  refine ⟨?_, hs.maxModules_le, ?_, fun k em ds' hem hds => ?_, fun em hem => ?_,
    fun k ds' d p hds hd hhost hexport => ?_⟩
  · rw [List.length_append, List.length_singleton]
    exact hlt
  · rw [List.length_append, List.length_append, hlength]
    rfl
  · by_cases hk : k < s.modules.length
    · rw [List.getElem?_append_left hk] at hem
      rw [List.getElem?_append_left (hlength ▸ hk)] at hds
      exact (hs.declares k em ds' hem hds).loads hloads
    · have hk' := (List.getElem?_eq_some_iff.1 hem).1
      simp only [List.length_append, List.length_singleton] at hk'
      obtain rfl : k = s.modules.length := by omega
      rw [List.getElem?_concat_length, Option.some.injEq] at hem
      rw [← hlength, List.getElem?_concat_length, Option.some.injEq] at hds
      subst hem hds
      exact hm.loads hloads
  · rcases List.mem_append.1 hem with hem | hem
    · exact hs.resolved em hem
    · rw [List.mem_singleton.1 hem]
      exact hresolved
  · rw [hloads.hostLookup] at hhost
    by_cases hk : k < s.modules.length
    · rw [List.getElem?_append_left (hlength ▸ hk)] at hds
      have hem := List.getElem?_eq_getElem hk
      obtain ⟨i, -, hi⟩ := (hs.declares k _ ds' hem hds).exists_entry hd
      exact hs.earlier k ds' d p hds hd hhost (hold d p ⟨i, hi⟩ hhost hexport)
    · have hk' := (List.getElem?_eq_some_iff.1 hds).1
      simp only [List.length_append, List.length_singleton] at hk'
      obtain rfl : k = s.modules.length := by omega
      rw [← hlength, List.getElem?_concat_length, Option.some.injEq] at hds
      subst hds
      obtain ⟨i, -, hi⟩ := hm.exists_entry hd
      have hexport' := hold d p ⟨i, hi⟩ hhost hexport
      exact (List.getElem?_eq_some_iff.1 (findExport_some hexport').1).1

end Faithful

/-- A module that is loaded has the imports that its binary declares. -/
theorem Module.new_declares {env : LoadEnv} {name : Name} {wasm : Reader} {t u : LoadTarget}
    (hle : t.store.modules.length ≤ 256) (h : Module.new env name wasm t = .ok m u) :
    ∃ ds, DeclaredBy env name wasm t ds ∧ m.Declares u.store ds ∧ m.Resolved := by
  obtain ⟨w, b, x, hheader, hsections, -, rfl, rfl⟩ := Module.new_eq_ok h
  have hcontinues := (readHeader_frame name).ok rfl hheader
  have hw : w.HasImports [] .custom := by
    refine LoadState.HasImports.continues ?_ hcontinues
    exact ⟨fun _ => ⟨rfl, rfl⟩, .nil, ⟨nofun, nofun, nofun, nofun⟩, fun _ => nofun⟩
  obtain ⟨hor, hresolved⟩ := readSections_imports hw (hcontinues.store ▸ hle) hsections
  rcases hor with ⟨s', ds, r, -, hat, hds, hdeclares⟩ | ⟨hnone, hdeclares⟩
  · exact ⟨ds, ⟨w, hheader, Or.inl ⟨s', r, hat, hds⟩⟩, hdeclares, hresolved⟩
  · exact ⟨[], ⟨w, hheader, Or.inr ⟨hnone, rfl⟩⟩, hdeclares, hresolved⟩

theorem LoadHistory.faithful {start t : LoadTarget} {decls : List (List ImportDecl)}
    (h : LoadHistory start t decls) (hs : start.store.Faithful []) : t.store.Faithful decls := by
  have hframe := fun (env : LoadEnv) (name : Name) (wasm : Reader) (t : LoadTarget) =>
    loadModule_frame env name wasm t .all fun _ _ => LoadState.loadWrites_all _ _ _
  induction h with
  | start => exact hs
  | @loaded t t' decls ds env name wasm r _ hload hdeclared ih =>
      obtain ⟨m, v, hnew, hgrows, -, hpush, -⟩ := (hframe env name wasm t).ok rfl hload
      obtain ⟨ds', hdeclared', hdeclares, hresolved⟩ := Module.new_declares ih.le hnew
      obtain rfl := hdeclared.unique hdeclared'
      exact (ih.evolves hgrows.store).push hdeclares hresolved hpush
  | @failed t t' decls env name wasm e _ hload ih =>
      exact ih.evolves ((hframe env name wasm t).error rfl hload).store

theorem LoadStep.loadHistory {start t t' : LoadTarget} {decls : List (List ImportDecl)}
    (hstep : LoadStep t t') (hhistory : LoadHistory start t decls) (hs : t.store.Faithful decls) :
    ∃ decls', LoadHistory start t' decls' := by
  cases hstep with
  | loaded env name wasm r hr =>
      obtain ⟨m, v, hnew, -⟩ := (loadModule_frame env name wasm t .all fun _ _ =>
        LoadState.loadWrites_all _ _ _).ok rfl hr
      obtain ⟨ds, hdeclared, -⟩ := Module.new_declares hs.le hnew
      exact ⟨_, .loaded env name wasm r hhistory hr hdeclared⟩
  | failed env name wasm e hr => exact ⟨decls, .failed env name wasm e hhistory hr⟩

/-- Whatever is loaded, the modules of the store have declarations. -/
theorem exists_loadHistory {start t : LoadTarget} (hs : start.store.Faithful [])
    (hsteps : ReflTransGen LoadStep start t) : ∃ decls, LoadHistory start t decls := by
  induction hsteps with
  | refl => exact ⟨[], .start⟩
  | tail _ hstep ih =>
      obtain ⟨decls, hhistory⟩ := ih
      exact hstep.loadHistory hhistory (hhistory.faithful hs)

theorem Store.faithful_fromHostModules {maxModules : ℕ} {hostModules : List HostModule}
    {memories : List Memory} {tables : List (List TableElement)} {s : Store}
    (h : Store.fromHostModules maxModules hostModules memories tables = .ok s) : s.Faithful [] := by
  unfold Store.fromHostModules at h
  split at h
  · cases h
  · next hle =>
    obtain rfl := Except.ok.inj h
    refine ⟨Nat.zero_le _, Nat.le_of_not_lt hle, rfl, fun k em ds _ hds => ?_, fun em hem => ?_,
      fun k ds d p hds => ?_⟩
    · rw [List.getElem?_nil] at hds
      cases hds
    · exact absurd hem List.not_mem_nil
    · rw [List.getElem?_nil] at hds
      cases hds

/-- For all host modules that a store accepts, and over all histories of loads, an import
that is linked with an entry for a host symbol means a host symbol, and the entry
designates this symbol exactly if the position of its module is below 2 ^ 8 and its own
position is below 2 ^ 16. -/
theorem hostReference_exact {maxModules : ℕ} {hostModules : List HostModule}
    {memories : List Memory} {tables : List (List TableElement)} {store : Store}
    {code : CodeBuilder}
    (hstore : Store.fromHostModules maxModules hostModules memories tables = .ok store) :
    (∀ t, ReflTransGen LoadStep ⟨store, code⟩ t →
      ∃ decls, LoadHistory ⟨store, code⟩ t decls) ∧
      ∀ (t : LoadTarget) (decls : List (List ImportDecl)),
        LoadHistory ⟨store, code⟩ t decls →
          ∀ (m : Module) (d : ImportDecl) (j : Import),
            linkImport m d.module d.name d.desc t.store () = .ok j () →
              (j.hostPosition ≠ none → ∃ p, FindsHost t.store decls d p) ∧
                ∀ p, FindsHost t.store decls d p →
                  (j.hostPosition = some p ↔ p.1 < 2 ^ 8 ∧ p.2 < 2 ^ 16) := by
  have hstart := Store.faithful_fromHostModules hstore
  refine ⟨fun t hsteps => exists_loadHistory hstart hsteps,
    fun t decls hhistory m d j hlink => ?_⟩
  have hs := hhistory.faithful hstart
  obtain ⟨hentry, -⟩ := entry_of_link hs.le hlink
  refine ⟨hs.exists_findsHost hentry, fun p hp => ?_⟩
  obtain ⟨mi, i⟩ := p
  rw [hs.hostPosition hp hentry, Option.some.injEq, Prod.mk.injEq]
  simp only
  constructor <;> rintro ⟨hmi, hi⟩ <;> constructor <;> omega

/-- The host module at a position of a list of many: its function `f` has a parameter
only in the first one. -/
def manyHost (mi : ℕ) : HostModule :=
  ⟨[BitVec.ofNat 8 mi, BitVec.ofNat 8 (mi / 256)], [],
    [⟨[0x66], if mi = 0 then [.i32] else [], none, by split <;> decide⟩], [], []⟩

def manyHosts : List HostModule := (List.range 257).map manyHost

/-- The function `f` of a host module, without parameters. -/
def manyDecl (mi : ℕ) : ImportDecl := ⟨(manyHost mi).name, [0x66], .func 0⟩

def manyStore : Store := ⟨[], 8, manyHosts, [Memory.zero], [[]], 0, 0⟩

theorem manyHosts_lookup {mi : ℕ} (h : manyStore.hostLookup (manyDecl mi).module
    (manyDecl mi).name (manyDecl mi).desc = some (mi, 0)) (hmi : mi < 257) (hne : mi ≠ 0) :
    linkImport importing (manyDecl mi).module (manyDecl mi).name (manyDecl mi).desc manyStore () =
        .ok (.hostFunc (BitVec.ofNat 8 mi) 0) () ∧
      FindsHost manyStore [] (manyDecl mi) (mi, 0) := by
  refine ⟨(linkImport_host h).2 ⟨rfl, ?_⟩, .direct h⟩
  refine ⟨manyHost mi, ⟨[0x66], [], none, by decide⟩, ?_, ?_, rfl, rfl⟩
  · exact (List.getElem?_map ..).trans (by rw [List.getElem?_range hmi]; rfl)
  · simp only [manyHost, if_neg hne]
    rfl

/-- The function of the last module whose position fits. -/
theorem manyHosts_exact :
    linkImport importing (manyDecl 255).module (manyDecl 255).name (manyDecl 255).desc manyStore
        () = .ok (.hostFunc 255 0) () ∧
      FindsHost manyStore [] (manyDecl 255) (255, 0) ∧
      (Import.hostPosition (.hostFunc 255 0) = some (255, 0) ↔ 255 < 2 ^ 8 ∧ 0 < 2 ^ 16) := by
  have hlookup : manyStore.hostLookup (manyDecl 255).module (manyDecl 255).name
      (manyDecl 255).desc = some (255, 0) := by decide +kernel
  obtain ⟨hlink, hfinds⟩ := manyHosts_lookup hlookup (by decide) (by decide)
  exact ⟨hlink, hfinds, ((@hostReference_exact 8 manyHosts [] [] manyStore emptyBuilder rfl).2 _ []
    .start importing (manyDecl 255) _ hlink).2 _ hfinds⟩

/-- The function of the module at position 256 is taken for that of the first one,
which has another type. -/
theorem manyHosts_truncated :
    Store.fromHostModules 8 manyHosts [] [] = .ok manyStore ∧
      linkImport importing (manyDecl 256).module (manyDecl 256).name (manyDecl 256).desc
          manyStore () =
        .ok (.hostFunc 0 0) () ∧
      FindsHost manyStore [] (manyDecl 256) (256, 0) ∧
      Import.hostPosition (.hostFunc 0 0) ≠ some (256, 0) ∧
      manyStore.importFunc? (.hostFunc 0 0) = some ⟨[.i32], []⟩ := by
  have hlookup : manyStore.hostLookup (manyDecl 256).module (manyDecl 256).name
      (manyDecl 256).desc = some (256, 0) := by decide +kernel
  obtain ⟨hlink, hfinds⟩ := manyHosts_lookup hlookup (by decide) (by decide)
  exact ⟨rfl, hlink, hfinds, by decide, by decide +kernel⟩

end SpaceWasm
