import SpaceWasm.LoadSections

/-!
# The declarations of the imports

An import section declares what a module asks for: for each import the names of a
module and of a symbol, and what kind of entity it is. The declarations are read
from the stream alone. Reading the section links them one after the other against
the store and resolves the tables and the memories among them into the module.
-/

namespace SpaceWasm

open Fallible

/-- An import as the binary declares it. -/
structure ImportDecl where
  module : Name
  name : Name
  desc : ImportDesc

/-- The part of `Import::read` that reads the stream. -/
def ImportDecl.read : ReaderM ImportDecl := do
  let module ← readShortName
  let name ← readShortName
  let desc ← ImportDesc.read
  pure ⟨module, name, desc⟩

/-- The declarations of an import section. -/
def readImportDecls : ReaderM (List ImportDecl) := do
  let len ← readU32
  let remaining ← gets Reader.bytesRemaining
  if remaining < len.toNat then throw .vecTooLong
  else collect len.toNat ImportDecl.read

theorem decoder_importDecl : Decoder ImportDecl.read :=
  decoder_readShortName.bind fun _ => decoder_readShortName.bind fun _ =>
    decoder_importDesc.bind fun _ => .pure _

theorem decoder_readImportDecls : Decoder readImportDecls :=
  decoder_readU32.bind fun _ => .bind .remaining fun _ =>
    .ite (.throw _) (decoder_importDecl.collect _)

/-- Whether the declaration asks for a table. -/
def ImportDesc.isTable : ImportDesc → Bool
  | .table _ => true
  | _ => false

/-- Whether the declaration asks for a memory. -/
def ImportDesc.isMemory : ImportDesc → Bool
  | .mem _ => true
  | _ => false

def Import.isTable : Import → Bool
  | .table _ _ => true
  | .hostTable _ _ => true
  | _ => false

def Import.isMemory : Import → Bool
  | .memory _ _ => true
  | .hostMemory _ _ => true
  | _ => false

/-! ### Linking the declarations -/

/-- The import is the entity that the declaration asks for, looked up in a store. -/
def ImportDecl.LinksTo (s : Store) (m : Module) (d : ImportDecl) (i : Import) : Prop :=
  linkImport m d.module d.name d.desc s () = .ok i ()

/-- The part of `Import::read` that links. -/
def ImportDecl.link (d : ImportDecl) : LoadM Import := do
  let s ← get
  linking (linkImport s.module d.module d.name d.desc)

theorem importRead_eq : Import.read = decoding ImportDecl.read >>= ImportDecl.link := by
  unfold Import.read ImportDecl.read
  simp only [decoding_bind, decoding_pure, bind_assoc, pure_bind]
  rfl

theorem importRead_eq_ok {s t : LoadState} {i : Import} (h : Import.read s = .ok i t) :
    ∃ d r, ImportDecl.read s.wasm = .ok d r ∧ t = { s with wasm := r } ∧
      d.LinksTo s.store s.module i := by
  rw [importRead_eq] at h
  obtain ⟨d, u, hd, h⟩ := bind_eq_ok.1 h
  obtain ⟨r, hr, rfl⟩ := zoom_eq_ok.1 hd
  unfold ImportDecl.link at h
  rw [bind_of_ok (get_apply _)] at h
  unfold linking at h
  rw [bind_of_ok (get_apply _)] at h
  obtain ⟨_, hlink, rfl⟩ := zoom_eq_ok.1 h
  exact ⟨d, r, hr, rfl, hlink⟩

theorem collect_importRead {n : ℕ} {s t : LoadState} {imports : List Import}
    (h : collect n Import.read s = .ok imports t) :
    ∃ decls r, collect n ImportDecl.read s.wasm = .ok decls r ∧ t = { s with wasm := r } ∧
      List.Forall₂ (ImportDecl.LinksTo s.store s.module) decls imports := by
  induction n generalizing s imports with
  | zero =>
      cases h
      exact ⟨[], _, rfl, rfl, .nil⟩
  | succ n ih =>
      rw [collect_succ] at h
      obtain ⟨i, u, hi, h⟩ := bind_eq_ok.1 h
      obtain ⟨rest, v, hrest, h⟩ := bind_eq_ok.1 h
      cases h
      obtain ⟨d, r, hd, rfl, hlink⟩ := importRead_eq_ok hi
      obtain ⟨decls, r', hdecls, rfl, hlinks⟩ := ih hrest
      refine ⟨d :: decls, r', ?_, rfl, .cons hlink hlinks⟩
      rw [collect_succ, bind_of_ok hd, bind_of_ok hdecls]
      rfl

/-- The vector of the imports links the declarations of the stream. -/
theorem readVec_importRead {s t : LoadState} {imports : List Import}
    (h : readVec Import.read s = .ok imports t) :
    ∃ decls, readImportDecls s.wasm = .ok decls t.wasm ∧ t.store = s.store ∧
      t.module = s.module ∧ List.Forall₂ (ImportDecl.LinksTo s.store s.module) decls imports := by
  obtain ⟨len, u, hlen, h⟩ := bind_eq_ok.1 h
  obtain ⟨r, hr, rfl⟩ := zoom_eq_ok.1 hlen
  rw [bind_of_ok (gets_apply _ _)] at h
  by_cases hremaining : r.bytesRemaining < len.toNat
  · rw [if_pos hremaining] at h
    cases h
  · rw [if_neg hremaining] at h
    obtain ⟨_, v, hvec, h⟩ := bind_eq_ok.1 h
    obtain ⟨decls, r', hdecls, rfl, hlinks⟩ := collect_importRead h
    have hquiet := (Guarded.ok (quiet_newVec len.toNat) (.refl _) hvec).1
    have hwasm : v.wasm = r := by
      unfold newVec at hvec
      split at hvec
      · obtain ⟨c, -, rfl⟩ := zoom_eq_ok.1 hvec
        rfl
      · cases hvec
        rfl
    rw [hquiet.store, hquiet.module] at hlinks
    refine ⟨decls, ?_, hquiet.store, hquiet.module, hlinks⟩
    unfold readImportDecls
    rw [bind_of_ok hr, bind_of_ok (gets_apply _ _), if_neg hremaining, ← hwasm, hdecls]

/-! ### Imported tables and memories -/

/-- The import has the kind that the declaration asks for. -/
def ImportDesc.SameKind (desc : ImportDesc) (i : Import) : Prop :=
  i.isTable = desc.isTable ∧ i.isMemory = desc.isMemory

theorem returns_linkFunction (s : Store) (moduleName name : Name) (ty : FuncType) (x : Idx) :
    Returns (ImportDesc.func x).SameKind (s.linkFunction moduleName name ty) := by
  have hcheck : ∀ {ty : FuncType} {i : Import}, (ImportDesc.func x).SameKind i → ∀ ty',
      Returns (ImportDesc.func x).SameKind (Store.checkFunction ty ty' i) := fun h _ =>
    .ite (.pure h) (.throw _)
  unfold Store.linkFunction
  split
  · exact hcheck ⟨rfl, rfl⟩ _
  · split
    · exact .throw _
    · refine .bind fun r => ?_
      cases r with
      | module i => exact .bind fun _ => .bind fun _ => hcheck ⟨rfl, rfl⟩ _
      | extern_ m i => exact .bind fun _ => .bind fun _ => .bind fun _ => hcheck ⟨rfl, rfl⟩ _
      | host m i => exact .bind fun _ => .bind fun _ => hcheck ⟨rfl, rfl⟩ _
    · exact .throw _

theorem returns_linkGlobal (s : Store) (moduleName name : Name) (ty : GlobalType) :
    Returns (ImportDesc.global ty).SameKind (s.linkGlobal moduleName name ty) := by
  have hcheck : ∀ {vt : ValType} {mutable : Bool} {i : Import},
      (ImportDesc.global ty).SameKind i →
        Returns (ImportDesc.global ty).SameKind (Store.checkGlobal vt mutable ty i) := fun h =>
    .ite (.throw _) (.ite (.throw _) (.pure h))
  unfold Store.linkGlobal
  split
  · exact hcheck ⟨rfl, rfl⟩
  · split
    · exact .throw _
    · refine .bind fun r => ?_
      cases r with
      | module i => exact .bind fun _ => hcheck ⟨rfl, rfl⟩
      | extern_ m i => exact .bind fun _ => .bind fun _ => hcheck ⟨rfl, rfl⟩
      | host m i => exact .bind fun _ => .bind fun _ => hcheck ⟨rfl, rfl⟩
    · exact .throw _

theorem returns_linkTable (s : Store) (moduleName name : Name) (ty : TableType) :
    Returns (ImportDesc.table ty).SameKind (s.linkTable moduleName name ty) := by
  have hcheck : ∀ {limits : Limit} {i : Import}, (ImportDesc.table ty).SameKind i →
      Returns (ImportDesc.table ty).SameKind (Store.checkTable limits ty i) := fun h =>
    .ite (.pure h) (.throw _)
  unfold Store.linkTable
  split
  · exact hcheck ⟨rfl, rfl⟩
  · split
    · exact .throw _
    · refine .ite (.throw _) ?_
      split
      · exact .throw _
      · exact hcheck ⟨rfl, rfl⟩
      · exact .bind fun _ => hcheck ⟨rfl, rfl⟩
      · exact .bind fun _ => hcheck ⟨rfl, rfl⟩
    · exact .throw _

theorem returns_linkMemory (s : Store) (moduleName name : Name) (ty : MemType) :
    Returns (ImportDesc.mem ty).SameKind (s.linkMemory moduleName name ty) := by
  have hcheck : ∀ {mem : MemRef} {i : Import}, (ImportDesc.mem ty).SameKind i →
      Returns (ImportDesc.mem ty).SameKind (s.checkMemory mem ty i) := fun h =>
    .bind fun _ => .ite (.pure h) (.throw _)
  unfold Store.linkMemory
  split
  · exact hcheck ⟨rfl, rfl⟩
  · split
    · exact .throw _
    · refine .ite (.throw _) ?_
      split
      · exact .throw _
      · exact hcheck ⟨rfl, rfl⟩
      · exact .bind fun _ => hcheck ⟨rfl, rfl⟩
      · exact .bind fun _ => hcheck ⟨rfl, rfl⟩
    · exact .throw _

theorem ImportDecl.LinksTo.sameKind {s : Store} {m : Module} {d : ImportDecl} {i : Import}
    (h : d.LinksTo s m i) : d.desc.SameKind i := by
  have hreturns : Returns d.desc.SameKind (linkImport m d.module d.name d.desc s) := by
    cases d.desc with
    | func x => exact .bind fun ty => returns_linkFunction s d.module d.name ty x
    | table ty => exact returns_linkTable s d.module d.name ty
    | mem ty => exact returns_linkMemory s d.module d.name ty
    | global ty => exact returns_linkGlobal s d.module d.name ty
  exact hreturns _ _ _ h

/-- What resolving one import does to the module. -/
theorem resolveImport_eq_ok {i : Import} {s t : LoadState} (h : resolveImport i s = .ok () t) :
    (t.module.table ≠ none ↔ s.module.table ≠ none ∨ i.isTable = true) ∧
      (t.module.memory ≠ none ↔ s.module.memory ≠ none ∨ i.isMemory = true) := by
  have hmemory : ∀ {kind : MemoryKind} {o : Store → Option MemRef} {u : LoadState},
      (importMemory kind >>= fun _ => Fallible.get >>= fun s => present (o s.store)) s = .ok () u →
        u.module = { s.module with memory := some kind } := by
    intro kind o u h
    obtain ⟨_, v, hv, h⟩ := bind_eq_ok.1 h
    rw [bind_of_ok (get_apply v)] at h
    obtain ⟨_, w, hw, h⟩ := bind_eq_ok.1 h
    obtain ⟨-, rfl⟩ := unwrap_eq_ok.1 hw
    cases h
    unfold importMemory at hv
    rw [bind_of_ok (get_apply s)] at hv
    split at hv
    · cases hv
    · cases hv
      rfl
  have htable : ∀ {β : Type} {kind : TableKind} {o : Store → Option β} {u : LoadState},
      (importTable kind >>= fun _ => Fallible.get >>= fun s => present (o s.store)) s = .ok () u →
        u.module = { s.module with table := some kind } := by
    intro β kind o u h
    obtain ⟨_, v, hv, h⟩ := bind_eq_ok.1 h
    rw [bind_of_ok (get_apply v)] at h
    obtain ⟨_, w, hw, h⟩ := bind_eq_ok.1 h
    obtain ⟨-, rfl⟩ := unwrap_eq_ok.1 hw
    cases h
    unfold importTable at hv
    rw [bind_of_ok (get_apply s)] at hv
    split at hv
    · cases hv
    · cases hv
      rfl
  cases i with
  | memory m j => simp [hmemory (o := fun s => s.ownedMemory? m) h, Import.isTable, Import.isMemory]
  | hostMemory m j =>
      simp [hmemory (o := fun s => s.hostMemory? ⟨m, j⟩) h, Import.isTable, Import.isMemory]
  | table m j => simp [htable (o := fun s => s.ownedTable? m) h, Import.isTable, Import.isMemory]
  | hostTable m j =>
      simp [htable (o := fun s => s.hostTable? ⟨m, j⟩) h, Import.isTable, Import.isMemory]
  | func | hostFunc | global | hostGlobal =>
      cases h
      simp [Import.isTable, Import.isMemory]

theorem forEach_resolveImport {imports : List Import} {s t : LoadState}
    (h : forEach imports resolveImport s = .ok () t) :
    (t.module.table ≠ none ↔ s.module.table ≠ none ∨ ∃ i ∈ imports, i.isTable = true) ∧
      (t.module.memory ≠ none ↔ s.module.memory ≠ none ∨ ∃ i ∈ imports, i.isMemory = true) := by
  induction imports generalizing s with
  | nil =>
      cases h
      simp
  | cons i imports ih =>
      obtain ⟨_, u, hu, h⟩ := bind_eq_ok.1 h
      obtain ⟨htable, hmemory⟩ := resolveImport_eq_ok hu
      obtain ⟨htable', hmemory'⟩ := ih h
      rw [htable', htable, hmemory', hmemory]
      simp only [List.exists_mem_cons_iff, or_assoc, and_self]

theorem exists_isTable {s : Store} {m : Module} {decls : List ImportDecl} {imports : List Import}
    (h : List.Forall₂ (ImportDecl.LinksTo s m) decls imports) :
    ((∃ i ∈ imports, i.isTable = true) ↔ ∃ d ∈ decls, d.desc.isTable = true) ∧
      ((∃ i ∈ imports, i.isMemory = true) ↔ ∃ d ∈ decls, d.desc.isMemory = true) := by
  induction h with
  | nil => simp
  | cons hlink _ ih =>
      obtain ⟨htable, hmemory⟩ := hlink.sameKind
      simp only [List.exists_mem_cons_iff, ih.1, ih.2, htable, hmemory, and_self]

/-- After its import section a module has a table if it had one or the section declares
one, and the same holds of its memory. -/
theorem readImportSection_eq_ok {s t : LoadState} (h : readImportSection s = .ok () t) :
    ∃ decls r, readImportDecls s.wasm = .ok decls r ∧
      (t.module.table ≠ none ↔
        s.module.table ≠ none ∨ ∃ d ∈ decls, d.desc.isTable = true) ∧
      (t.module.memory ≠ none ↔
        s.module.memory ≠ none ∨ ∃ d ∈ decls, d.desc.isMemory = true) := by
  obtain ⟨imports, u, hu, h⟩ := bind_eq_ok.1 h
  obtain ⟨_, v, hv, h⟩ := bind_eq_ok.1 h
  cases hv
  obtain ⟨decls, hdecls, -, hmodule, hlinks⟩ := readVec_importRead hu
  obtain ⟨htable, hmemory⟩ := forEach_resolveImport h
  obtain ⟨hisTable, hisMemory⟩ := exists_isTable hlinks
  refine ⟨decls, u.wasm, hdecls, ?_, ?_⟩
  · rw [← hisTable, ← hmodule]
    exact htable
  · rw [← hisMemory, ← hmodule]
    exact hmemory

end SpaceWasm
