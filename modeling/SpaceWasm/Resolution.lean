import SpaceWasm.Linking

/-!
# Where imports are resolved

An import is resolved by the first host module of its name with a symbol of its
name, or else by the first loaded module of its name with an export of its name.
`hostLookup` and `findExport` are the two searches. The entry that the import gets
is `hostEntry` of what the first one finds, or `exportEntry` of what the second
one finds; a link function succeeds with this entry exactly if the type is the one
that is asked for.
-/

namespace SpaceWasm

open Fallible

variable {s : Store}

/-! ### Entries -/

/-- The host symbol that an import is resolved by: the positions of its module
and of the symbol in it. -/
def Store.hostLookup (s : Store) (moduleName name : Name) : ImportDesc → Option (ℕ × ℕ)
  | .func _ => (s.findHost HostModule.functions HostFunction.name moduleName name).map fun p =>
      (p.1, p.2.1)
  | .global _ => (s.findHost HostModule.globals HostGlobal.name moduleName name).map fun p =>
      (p.1, p.2.1)
  | .table _ => (s.findHost HostModule.table HostTable.name moduleName name).map fun p =>
      (p.1, p.2.1)
  | .mem _ => (s.findHost HostModule.memory HostMemory.name moduleName name).map fun p =>
      (p.1, p.2.1)

/-- The entry for the `i`-th symbol of the host module at position `mi`. -/
def ImportDesc.hostEntry (mi i : ℕ) : ImportDesc → Import
  | .func _ => .hostFunc (HostModuleRef.new mi) (BitVec.ofNat 16 i)
  | .global _ => .hostGlobal (HostModuleRef.new mi) (BitVec.ofNat 16 i)
  | .table _ => .hostTable (HostModuleRef.new mi) (BitVec.ofNat 16 i)
  | .mem _ => .hostMemory (HostModuleRef.new mi) (BitVec.ofNat 16 i)

/-- The `i`-th symbol of the host module at position `mi` has the name and the type
that are asked for. -/
def Store.HostOffers (s : Store) (types : List FuncType) (name : Name) (mi i : ℕ) :
    ImportDesc → Prop
  | .func x => ∃ hm f, s.hostModules[mi]? = some hm ∧ hm.functions[i]? = some f ∧
      f.name = name ∧ types[x]? = some f.type
  | .global ty => ∃ hm g, s.hostModules[mi]? = some hm ∧ hm.globals[i]? = some g ∧
      g.name = name ∧ ⟨g.ty, g.mutable⟩ = ty
  | .table ty => ∃ hm t, s.hostModules[mi]? = some hm ∧ hm.table[i]? = some t ∧
      t.name = name ∧ t.limits.matches ty.limits = true
  | .mem ty => ∃ hm sym memTy, s.hostModules[mi]? = some hm ∧ hm.memory[i]? = some sym ∧
      sym.name = name ∧ s.memType? sym.value = some memTy ∧ memTy.matches ty = true

/-- The function that a reference of the module at position `mi` stands for. -/
def Ref.funcEntry (mi : ℕ) : Ref → Import
  | .module i => .func (BitVec.ofNat 8 mi) i
  | .extern_ r i => .func r i
  | .host r i => .hostFunc r i

/-- The global that a reference of the module at position `mi` stands for. -/
def Ref.globalEntry (mi : ℕ) : Ref → Import
  | .module i => .global (BitVec.ofNat 8 mi) i
  | .extern_ r i => .global r i
  | .host r i => .hostGlobal r i

/-- The table of the module at position `mi`. -/
def TableKind.entry (mi : ℕ) : TableKind → Import
  | .owned _ _ => .table (BitVec.ofNat 8 mi) 0
  | .import_ r => .table r 0
  | .importHost h => .hostTable h.module h.index

/-- The memory of the module at position `mi`. -/
def MemoryKind.entry (mi : ℕ) : MemoryKind → Import
  | .owned _ => .memory (BitVec.ofNat 8 mi) 0
  | .import_ r => .memory r 0
  | .importHost h => .hostMemory h.module h.index

/-- The entity behind an export of the module at position `mi`, with re-exports
followed to the owner. -/
def Module.exportEntry (m : Module) (mi : ℕ) : ExportDesc → Option Import
  | .func x => (m.getFuncRef x).map (Ref.funcEntry mi)
  | .global x => (m.getGlobalRef x).map (Ref.globalEntry mi)
  | .table x => if 0 < x then none else m.table.map (TableKind.entry mi)
  | .mem x => if 0 < x then none else m.memory.map (MemoryKind.entry mi)

/-! ### What the link functions find -/

theorem okOr_bind_eq_ok {α β : Type} {o : Option β} {e : ValidationError} {f : β → LinkM α}
    {a : α} :
    (okOr o e >>= f) () = .ok a () ↔ ∃ b, o = some b ∧ f b () = .ok a () := by
  cases o with
  | none => exact iff_of_false nofun nofun
  | some b => simp [bind_of_ok (pure_apply b ())]

theorem unwrap_bind_eq_ok {α β : Type} {o : Option β} {f : β → LinkM α} {a : α} :
    (unwrap o >>= f) () = .ok a () ↔ ∃ b, o = some b ∧ f b () = .ok a () := by
  cases o with
  | none => exact iff_of_false nofun nofun
  | some b => simp [bind_of_ok (pure_apply b ())]

namespace Store

theorem checkFunction_eq_ok {ty expectedTy : FuncType} {i j : Import} :
    checkFunction ty expectedTy i () = .ok j () ↔ ty = expectedTy ∧ i = j := by
  unfold checkFunction
  split <;> simp [*]

theorem checkGlobal_eq_ok {ty : ValType} {mutable : Bool} {expectedTy : GlobalType} {i j : Import} :
    checkGlobal ty mutable expectedTy i () = .ok j () ↔ ⟨ty, mutable⟩ = expectedTy ∧ i = j := by
  obtain ⟨ty', mutable'⟩ := expectedTy
  unfold checkGlobal
  split
  · next h => simp [h]
  · next h =>
    rw [not_not] at h
    split
    · next h' => simp [h']
    · next h' =>
      rw [not_not] at h'
      simp [h, h']

theorem checkTable_eq_ok {limits : Limit} {expectedTy : TableType} {i j : Import} :
    checkTable limits expectedTy i () = .ok j () ↔
      limits.matches expectedTy.limits = true ∧ i = j := by
  unfold checkTable
  split <;> simp [*]

theorem checkMemory_eq_ok {mem : MemRef} {expectedTy : MemType} {i j : Import} :
    s.checkMemory mem expectedTy i () = .ok j () ↔
      ∃ ty, s.memType? mem = some ty ∧ ty.matches expectedTy = true ∧ i = j := by
  unfold checkMemory
  rw [unwrap_bind_eq_ok]
  simp only [ite_apply']
  constructor
  · rintro ⟨ty, hty, h⟩
    split at h
    · next hmatch => exact ⟨ty, hty, hmatch, (pure_eq_ok.1 h).1⟩
    · cases h
  · rintro ⟨ty, hty, hmatch, rfl⟩
    exact ⟨ty, hty, by rw [if_pos hmatch]; rfl⟩

theorem findHost_isSome {α : Type} {symbols : HostModule → List α} {symbolName : α → Name}
    {moduleName name : Name} {mi i : ℕ}
    (h : (s.findHost symbols symbolName moduleName name).map (fun p => (p.1, p.2.1)) =
      some (mi, i)) :
    ∃ hm sym, s.findHost symbols symbolName moduleName name = some (mi, i, sym) ∧
      s.hostModules[mi]? = some hm ∧ (symbols hm)[i]? = some sym ∧ hm.name = moduleName ∧
      symbolName sym = name := by
  obtain ⟨⟨mi', i', sym⟩, hfind, heq⟩ := Option.map_eq_some_iff.1 h
  obtain ⟨rfl, rfl⟩ := Prod.mk.inj heq
  obtain ⟨hm, hhm, hsym, hname, hsymName⟩ := findHost_some hfind
  exact ⟨hm, sym, hfind, hhm, hsym, hname, hsymName⟩

end Store

section Host

variable {m : Module} {moduleName name : Name} {desc : ImportDesc} {mi i : ℕ} {j : Import}

/-- The host module of a symbol that is found has the name of the import. -/
theorem Store.hostLookup_name (h : s.hostLookup moduleName name desc = some (mi, i)) :
    ∃ hm, s.hostModules[mi]? = some hm ∧ hm.name = moduleName := by
  cases desc <;>
  · obtain ⟨hm, -, -, hhm, -, hname, -⟩ := findHost_isSome h
    exact ⟨hm, hhm, hname⟩

/-- An import whose names are those of a host symbol. -/
theorem linkImport_host (h : s.hostLookup moduleName name desc = some (mi, i)) :
    linkImport m moduleName name desc s () = .ok j () ↔
      j = desc.hostEntry mi i ∧ s.HostOffers m.types name mi i desc := by
  cases desc with
  | func x =>
      obtain ⟨hm, f, hfind, hhm, hf, -, hname⟩ := Store.findHost_isSome h
      simp only [linkImport, Store.linkFunction, hfind, okOr_bind_eq_ok, Store.checkFunction_eq_ok,
        ImportDesc.hostEntry, Store.HostOffers, hhm, Option.some.injEq]
      constructor
      · rintro ⟨ty, hty, rfl, rfl⟩
        exact ⟨rfl, hm, f, rfl, hf, hname, hty⟩
      · rintro ⟨rfl, _, f', rfl, hf', -, hty⟩
        obtain rfl : f = f' := Option.some.inj (hf.symm.trans hf')
        exact ⟨_, hty, rfl, rfl⟩
  | table ty =>
      obtain ⟨hm, t, hfind, hhm, ht, -, hname⟩ := Store.findHost_isSome h
      simp only [linkImport, Store.linkTable, hfind, Store.checkTable_eq_ok, ImportDesc.hostEntry,
        Store.HostOffers, hhm, Option.some.injEq]
      constructor
      · rintro ⟨hmatch, rfl⟩
        exact ⟨rfl, hm, t, rfl, ht, hname, hmatch⟩
      · rintro ⟨rfl, _, t', rfl, ht', -, hmatch⟩
        obtain rfl : t = t' := Option.some.inj (ht.symm.trans ht')
        exact ⟨hmatch, rfl⟩
  | mem ty =>
      obtain ⟨hm, sym, hfind, hhm, hsym, -, hname⟩ := Store.findHost_isSome h
      simp only [linkImport, Store.linkMemory, hfind, Store.checkMemory_eq_ok, ImportDesc.hostEntry,
        Store.HostOffers, hhm, Option.some.injEq]
      constructor
      · rintro ⟨memTy, hmem, hmatch, rfl⟩
        exact ⟨rfl, hm, sym, memTy, rfl, hsym, hname, hmem, hmatch⟩
      · rintro ⟨rfl, _, sym', memTy, rfl, hsym', -, hmem, hmatch⟩
        obtain rfl : sym = sym' := Option.some.inj (hsym.symm.trans hsym')
        exact ⟨memTy, hmem, hmatch, rfl⟩
  | global ty =>
      obtain ⟨hm, g, hfind, hhm, hg, -, hname⟩ := Store.findHost_isSome h
      simp only [linkImport, Store.linkGlobal, hfind, Store.checkGlobal_eq_ok, ImportDesc.hostEntry,
        Store.HostOffers, hhm, Option.some.injEq]
      constructor
      · rintro ⟨hty, rfl⟩
        exact ⟨rfl, hm, g, rfl, hg, hname, hty⟩
      · rintro ⟨rfl, _, g', rfl, hg', -, hty⟩
        obtain rfl : g = g' := Option.some.inj (hg.symm.trans hg')
        exact ⟨hty, rfl⟩

end Host

section Export

variable {m em : Module} {moduleName name : Name} {mi : ℕ} {d : ExportDesc} {j : Import}

theorem Store.module?_ofNat (hs : s.modules.length ≤ 256) (h : s.modules[mi]? = some em) :
    s.module? (BitVec.ofNat 8 mi) = some em := by
  have hlt := (List.getElem?_eq_some_iff.1 h).1
  rw [Store.module?, toNat_ofNat_of_lt (by omega), h]

theorem Module.exportEntry_func {x : Idx} :
    em.exportEntry mi (.func x) = some j ↔
      ∃ r, em.getFuncRef x = some r ∧ r.funcEntry mi = j :=
  Option.map_eq_some_iff

theorem Module.exportEntry_global {x : Idx} :
    em.exportEntry mi (.global x) = some j ↔
      ∃ r, em.getGlobalRef x = some r ∧ r.globalEntry mi = j :=
  Option.map_eq_some_iff

theorem Module.exportEntry_table {x : Idx} :
    em.exportEntry mi (.table x) = some j ↔
      ¬0 < x ∧ ∃ kind, em.table = some kind ∧ kind.entry mi = j := by
  simp only [exportEntry, Option.ite_none_left_eq_some, Option.map_eq_some_iff]

theorem Module.exportEntry_mem {x : Idx} :
    em.exportEntry mi (.mem x) = some j ↔
      ¬0 < x ∧ ∃ kind, em.memory = some kind ∧ kind.entry mi = j := by
  simp only [exportEntry, Option.ite_none_left_eq_some, Option.map_eq_some_iff]

/-- The entity behind an export is of the kind of the export. -/
theorem Module.exportEntry_kind (h : em.exportEntry mi d = some j) :
    ((s.importFunc? j).isSome → ∃ x, d = .func x) ∧
      ((s.importGlobal? j).isSome → ∃ x, d = .global x) ∧
      ((s.importTable? j).isSome → ∃ x, d = .table x) ∧
      ((s.importMemory? j).isSome → ∃ x, d = .mem x) := by
  cases d with
  | func x =>
      obtain ⟨r, -, rfl⟩ := exportEntry_func.1 h
      cases r <;> exact ⟨fun _ => ⟨x, rfl⟩, nofun, nofun, nofun⟩
  | table x =>
      obtain ⟨-, kind, -, rfl⟩ := exportEntry_table.1 h
      cases kind <;> exact ⟨nofun, nofun, fun _ => ⟨x, rfl⟩, nofun⟩
  | mem x =>
      obtain ⟨-, kind, -, rfl⟩ := exportEntry_mem.1 h
      cases kind <;> exact ⟨nofun, nofun, nofun, fun _ => ⟨x, rfl⟩⟩
  | global x =>
      obtain ⟨r, -, rfl⟩ := exportEntry_global.1 h
      cases r <;> exact ⟨nofun, fun _ => ⟨x, rfl⟩, nofun, nofun⟩

section Link

variable (hs : s.modules.length ≤ 256)
  (hexport : s.findExport moduleName name = some (mi, em, d))

include hs hexport

theorem Store.linkFunction_export {ty : FuncType}
    (hhost : s.findHost HostModule.functions HostFunction.name moduleName name = none) :
    s.linkFunction moduleName name ty () = .ok j () ↔
      em.exportEntry mi d = some j ∧ s.importFunc? j = some ty := by
  have hmodule := Store.module?_ofNat hs (Store.findExport_some hexport).1
  unfold linkFunction
  simp only [hhost, hexport]
  cases d with
  | func x =>
      simp only [okOr_bind_eq_ok, Module.exportEntry_func]
      rw [← exists_and_right]
      refine exists_congr fun r => ?_
      rw [and_assoc]
      refine and_congr_right fun _ => ?_
      cases r with
      | module i =>
          simp only [unwrap_bind_eq_ok, okOr_bind_eq_ok, checkFunction_eq_ok, Ref.funcEntry]
          constructor
          · rintro ⟨f, hf, ty', hty, rfl, rfl⟩
            simp [importFunc?, hmodule, hf, hty]
          · rintro ⟨rfl, h⟩
            simpa [importFunc?, hmodule, Option.bind_eq_some_iff] using h
      | extern_ r i =>
          simp only [unwrap_bind_eq_ok, checkFunction_eq_ok, Ref.funcEntry]
          constructor
          · rintro ⟨em', hem, f, hf, ty', hty, rfl, rfl⟩
            simp [importFunc?, hem, hf, hty]
          · rintro ⟨rfl, h⟩
            simpa [importFunc?, Option.bind_eq_some_iff] using h
      | host r i =>
          simp only [unwrap_bind_eq_ok, checkFunction_eq_ok, Ref.funcEntry]
          constructor
          · rintro ⟨hm, hhm, f, hf, rfl, rfl⟩
            simp [importFunc?, hhm, hf]
          · rintro ⟨rfl, h⟩
            simpa [importFunc?, Option.bind_eq_some_iff] using h
  | table | mem | global =>
      refine iff_of_false (fun h => by cases h) ?_
      rintro ⟨hentry, h⟩
      obtain ⟨x, hx⟩ := (Module.exportEntry_kind hentry).1 (Option.isSome_of_eq_some h)
      cases hx

theorem Store.linkGlobal_export {ty : GlobalType}
    (hhost : s.findHost HostModule.globals HostGlobal.name moduleName name = none) :
    s.linkGlobal moduleName name ty () = .ok j () ↔
      em.exportEntry mi d = some j ∧ s.importGlobal? j = some ty := by
  have hmodule := Store.module?_ofNat hs (Store.findExport_some hexport).1
  unfold linkGlobal
  simp only [hhost, hexport]
  cases d with
  | global x =>
      simp only [okOr_bind_eq_ok, Module.exportEntry_global]
      rw [← exists_and_right]
      refine exists_congr fun r => ?_
      rw [and_assoc]
      refine and_congr_right fun _ => ?_
      cases r with
      | module i =>
          simp only [unwrap_bind_eq_ok, checkGlobal_eq_ok, Ref.globalEntry]
          constructor
          · rintro ⟨g, hg, rfl, rfl⟩
            simp [importGlobal?, hmodule, hg]
          · rintro ⟨rfl, h⟩
            simpa [importGlobal?, hmodule, Option.bind_eq_some_iff] using h
      | extern_ r i =>
          simp only [unwrap_bind_eq_ok, checkGlobal_eq_ok, Ref.globalEntry]
          constructor
          · rintro ⟨em', hem, g, hg, rfl, rfl⟩
            simp [importGlobal?, hem, hg]
          · rintro ⟨rfl, h⟩
            simpa [importGlobal?, Option.bind_eq_some_iff] using h
      | host r i =>
          simp only [unwrap_bind_eq_ok, checkGlobal_eq_ok, Ref.globalEntry]
          constructor
          · rintro ⟨hm, hhm, g, hg, rfl, rfl⟩
            simp [importGlobal?, hhm, hg]
          · rintro ⟨rfl, h⟩
            simpa [importGlobal?, Option.bind_eq_some_iff] using h
  | table | mem | func =>
      refine iff_of_false (fun h => by cases h) ?_
      rintro ⟨hentry, h⟩
      obtain ⟨x, hx⟩ := (Module.exportEntry_kind hentry).2.1 (Option.isSome_of_eq_some h)
      cases hx

theorem Store.linkTable_export {ty : TableType}
    (hhost : s.findHost HostModule.table HostTable.name moduleName name = none) :
    s.linkTable moduleName name ty () = .ok j () ↔
      em.exportEntry mi d = some j ∧ TableLinks s ty j := by
  have hmodule := Store.module?_ofNat hs (Store.findExport_some hexport).1
  unfold linkTable TableLinks
  simp only [hhost, hexport]
  cases d with
  | table x =>
      simp only [Module.exportEntry_table]
      split
      · next h => exact iff_of_false (fun hrun => by cases hrun) fun hentry => hentry.1.1 h
      · next h =>
        cases htable : em.table with
        | none =>
            refine iff_of_false (fun hrun => by cases hrun) ?_
            rintro ⟨⟨-, _, hkind, -⟩, -⟩
            cases hkind
        | some kind =>
            cases kind with
            | owned table tty =>
                simp only [checkTable_eq_ok]
                constructor
                · rintro ⟨hmatch, rfl⟩
                  exact ⟨⟨h, _, rfl, rfl⟩, tty.limits,
                    by simp [importTable?, ownedTable?, hmodule, htable], hmatch⟩
                · rintro ⟨⟨-, _, hkind, rfl⟩, limits, hlimits, hmatch⟩
                  cases hkind
                  simp [TableKind.entry, importTable?, ownedTable?, hmodule, htable] at hlimits
                  exact ⟨hlimits ▸ hmatch, rfl⟩
            | import_ r =>
                simp only [unwrap_bind_eq_ok, checkTable_eq_ok]
                constructor
                · rintro ⟨owned, howned, hmatch, rfl⟩
                  exact ⟨⟨h, _, rfl, rfl⟩, _, by simp [importTable?, howned], hmatch⟩
                · rintro ⟨⟨-, _, hkind, rfl⟩, limits, hlimits, hmatch⟩
                  cases hkind
                  obtain ⟨owned, howned, rfl⟩ := Option.map_eq_some_iff.1 hlimits
                  exact ⟨owned, howned, hmatch, rfl⟩
            | importHost r =>
                simp only [unwrap_bind_eq_ok, checkTable_eq_ok]
                constructor
                · rintro ⟨sym, hsym, hmatch, rfl⟩
                  exact ⟨⟨h, _, rfl, rfl⟩, _, by simp [importTable?, hsym], hmatch⟩
                · rintro ⟨⟨-, _, hkind, rfl⟩, limits, hlimits, hmatch⟩
                  cases hkind
                  obtain ⟨sym, hsym, rfl⟩ := Option.map_eq_some_iff.1 hlimits
                  exact ⟨sym, hsym, hmatch, rfl⟩
  | func | mem | global =>
      refine iff_of_false (fun h => by cases h) ?_
      rintro ⟨hentry, limits, h, -⟩
      obtain ⟨x, hx⟩ := (Module.exportEntry_kind hentry).2.2.1 (Option.isSome_of_eq_some h)
      cases hx

theorem Store.linkMemory_export {ty : MemType}
    (hhost : s.findHost HostModule.memory HostMemory.name moduleName name = none) :
    s.linkMemory moduleName name ty () = .ok j () ↔
      em.exportEntry mi d = some j ∧ MemoryLinks s ty j := by
  have hmodule := Store.module?_ofNat hs (Store.findExport_some hexport).1
  unfold linkMemory MemoryLinks
  simp only [hhost, hexport]
  cases d with
  | mem x =>
      simp only [Module.exportEntry_mem]
      split
      · next h => exact iff_of_false (fun hrun => by cases hrun) fun hentry => hentry.1.1 h
      · next h =>
        cases hmemory : em.memory with
        | none =>
            refine iff_of_false (fun hrun => by cases hrun) ?_
            rintro ⟨⟨-, _, hkind, -⟩, -⟩
            cases hkind
        | some kind =>
            cases kind with
            | owned mem =>
                simp only [checkMemory_eq_ok]
                have hmem : s.ownedMemory? (BitVec.ofNat 8 mi) = some mem := by
                  simp [ownedMemory?, hmodule, hmemory]
                constructor
                · rintro ⟨memTy, hty, hmatch, rfl⟩
                  exact ⟨⟨h, _, rfl, rfl⟩, memTy, by simp [importMemory?, hmem, hty], hmatch⟩
                · rintro ⟨⟨-, _, hkind, rfl⟩, memTy, hty, hmatch⟩
                  cases hkind
                  simp only [MemoryKind.entry, importMemory?, hmem] at hty
                  exact ⟨memTy, hty, hmatch, rfl⟩
            | import_ r =>
                simp only [unwrap_bind_eq_ok, checkMemory_eq_ok]
                constructor
                · rintro ⟨mem, hmem, memTy, hty, hmatch, rfl⟩
                  exact ⟨⟨h, _, rfl, rfl⟩, memTy, by simp [importMemory?, hmem, hty], hmatch⟩
                · rintro ⟨⟨-, _, hkind, rfl⟩, memTy, hty, hmatch⟩
                  cases hkind
                  obtain ⟨mem, hmem, hty⟩ := Option.bind_eq_some_iff.1 hty
                  exact ⟨mem, hmem, memTy, hty, hmatch, rfl⟩
            | importHost r =>
                simp only [unwrap_bind_eq_ok, checkMemory_eq_ok]
                constructor
                · rintro ⟨mem, hmem, memTy, hty, hmatch, rfl⟩
                  exact ⟨⟨h, _, rfl, rfl⟩, memTy, by simp [importMemory?, hmem, hty], hmatch⟩
                · rintro ⟨⟨-, _, hkind, rfl⟩, memTy, hty, hmatch⟩
                  cases hkind
                  obtain ⟨mem, hmem, hty⟩ := Option.bind_eq_some_iff.1 hty
                  exact ⟨mem, hmem, memTy, hty, hmatch, rfl⟩
  | func | table | global =>
      refine iff_of_false (fun h => by cases h) ?_
      rintro ⟨hentry, memTy, h, -⟩
      obtain ⟨x, hx⟩ := (Module.exportEntry_kind hentry).2.2.2 (Option.isSome_of_eq_some h)
      cases hx

end Link

/-- An import whose names are not those of a host symbol. -/
theorem linkImport_export {desc : ImportDesc} (hs : s.modules.length ≤ 256)
    (hhost : s.hostLookup moduleName name desc = none) :
    linkImport m moduleName name desc s () = .ok j () ↔
      ∃ mi em d, s.findExport moduleName name = some (mi, em, d) ∧
        em.exportEntry mi d = some j ∧ j.Matches s m.types desc := by
  cases hexport : s.findExport moduleName name with
  | none =>
      refine iff_of_false (fun h => ?_) nofun
      cases desc <;> have hhost := Option.map_eq_none_iff.1 hhost <;>
        simp only [linkImport, Store.linkFunction, Store.linkTable, Store.linkMemory,
          Store.linkGlobal, hhost, hexport, okOr_bind_eq_ok] at h
      · obtain ⟨ty, -, h⟩ := h
        cases h
      all_goals cases h
  | some found =>
      obtain ⟨mi, em, d⟩ := found
      have hresult : (∃ mi' em' d', some (mi, em, d) = some (mi', em', d') ∧
          em'.exportEntry mi' d' = some j ∧ j.Matches s m.types desc) ↔
          em.exportEntry mi d = some j ∧ j.Matches s m.types desc := by
        constructor
        · rintro ⟨_, _, _, heq, h⟩
          cases heq
          exact h
        · exact fun h => ⟨mi, em, d, rfl, h⟩
      rw [hresult]
      cases desc with
      | func x =>
          simp only [linkImport, okOr_bind_eq_ok, Import.Matches,
            Store.linkFunction_export hs hexport (Option.map_eq_none_iff.1 hhost)]
          constructor
          · rintro ⟨ty, hty, hentry, hfunc⟩
            exact ⟨hentry, ty, hty, hfunc⟩
          · rintro ⟨hentry, ty, hty, hfunc⟩
            exact ⟨ty, hty, hentry, hfunc⟩
      | table ty => exact Store.linkTable_export hs hexport (Option.map_eq_none_iff.1 hhost)
      | mem ty => exact Store.linkMemory_export hs hexport (Option.map_eq_none_iff.1 hhost)
      | global ty => exact Store.linkGlobal_export hs hexport (Option.map_eq_none_iff.1 hhost)

end Export

end SpaceWasm
