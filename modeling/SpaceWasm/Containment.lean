import SpaceWasm.Answers
import SpaceWasm.HostReferences

/-!
# What a load changes

A load makes the table and the memory that its module owns, and borrows those that
it imports. Its segments are written while the module is still being read, also
when the load fails later on. So a table or a memory that was there changes only
if the module imports it, and only in the ranges of the segments that the load has
come to. All other tables, memories, modules and code are as before.
-/

namespace SpaceWasm

open Fallible

variable {env : LoadEnv} {name : Name} {wasm : Reader} {t : LoadTarget}
  {base : Store} {last next kind : SectionKind}

/-! ### Borrowed tables and memories -/

/-- A load over the store `base`, after sections up to `last`, whose module owns nothing
of `base`: what it reaches there it imports. -/
structure LoadState.Borrows (base : Store) (last : SectionKind) (s : LoadState) : Prop where
  store : base.Evolves .all s.store
  fresh : last.toNat < SectionKind.import_.toNat →
    s.module.table = none ∧ s.module.memory = none
  table : ∀ kind, s.module.table = some kind → (∃ ref ty, kind = .owned ref ty ∧
      base.tables.length ≤ ref) ∨ ∃ i ∈ s.module.imports, i.tableKind? = some kind
  memory : ∀ kind, s.module.memory = some kind → (∃ ref, kind = .owned ref ∧
      base.memories.length ≤ ref) ∨ ∃ i ∈ s.module.imports, i.memoryKind? = some kind

namespace LoadState

variable {s u v : LoadState}

theorem Borrows.start (t : LoadTarget) (name : Name) (wasm : Reader) :
    (t.start name wasm).Borrows t.store .custom :=
  ⟨.refl _ _, fun _ => ⟨rfl, rfl⟩, nofun, nofun⟩

/-- Only the store and the module count. -/
theorem Borrows.congr (hs : s.Borrows base last) (hstore : u.store = s.store)
    (hmodule : u.module = s.module) : u.Borrows base last := by
  obtain ⟨hevolves, hfresh, htable, hmemory⟩ := hs
  rw [← hstore] at hevolves
  rw [← hmodule] at hfresh htable hmemory
  exact ⟨hevolves, hfresh, htable, hmemory⟩

theorem Borrows.continues (hs : s.Borrows base last) (h : s.Continues u) : u.Borrows base last :=
  hs.congr h.store h.module

end LoadState

theorem checkOrder_lt (h : checkOrder last kind = .ok next) (hne : kind ≠ .custom) :
    last.toNat < kind.toNat :=
  ((checkOrder_eq_ok.1 h).resolve_left fun hcustom => hne hcustom.1).2.1

/-- The table that a table section adds is a new one. -/
theorem readTableSection_fresh {s u : LoadState} (h : readTableSection s = .ok () u)
    {kind : TableKind} (hkind : u.module.table = some kind) :
    ∃ ref ty, kind = .owned ref ty ∧ s.store.tables.length ≤ ref := by
  unfold readTableSection at h
  rw [bind_of_ok (get_apply s)] at h
  split at h
  · cases h
  · obtain ⟨len, s₁, hlen, h⟩ := bind_eq_ok.1 h
    split at h
    · cases h
      cases hkind
    · split at h
      · obtain ⟨ty, s₂, hty, h⟩ := bind_eq_ok.1 h
        obtain ⟨ref, s₃, href, h⟩ := bind_eq_ok.1 h
        cases h
        cases hkind
        obtain ⟨_, s₄, halloc, href⟩ := bind_eq_ok.1 href
        rw [bind_of_ok (get_apply s₄)] at href
        cases href
        have h₁ := ((quiet_decoding decoder_readU32).ok (.refl s) hlen).1
        have h₂ := ((quiet_decoding decoder_tableType).ok (.refl s₁) hty).1
        have h₃ := ((quiet_allocate _).ok (.refl s₂) halloc).1
        refine ⟨_, ty, rfl, Nat.le_of_eq ?_⟩
        rw [h₃.store, h₂.store, h₁.store]
      · cases h

/-- A section fills the table of the module from its imports, or with a new one. -/
theorem readSection_table {size : ℕ} {s u : LoadState} (hs : s.Borrows base last)
    (horder : checkOrder last kind = .ok next) (h : readSection env size kind s = .ok () u)
    {table : TableKind} (htable : u.module.table = some table) :
    (∃ ref ty, table = .owned ref ty ∧ base.tables.length ≤ ref) ∨
      ∃ i ∈ u.module.imports, i.tableKind? = some table := by
  have hwithin := ((readSection_frame (W := .all) env size
    (LoadState.sectionWrites_all env kind s)).ok rfl h).1
  by_cases himport : kind = .import_
  · subst himport
    obtain ⟨imports, s₁, hread, h⟩ := bind_eq_ok.1 h
    obtain ⟨_, s₂, hset, h⟩ := bind_eq_ok.1 h
    cases hset
    have hempty := (hs.fresh (checkOrder_lt horder nofun)).1
    have hmodule := (quiet_readVec quiet_readImport).ok (.refl s) hread
    obtain ⟨-, himports⟩ := forEach_resolveImport_frame h
    obtain ⟨-, -, hfrom⟩ := forEach_field Import.tableKind? (fun s => s.module.table)
      (fun _ _ _ h => (resolveImport_fields h).2.2.1) h
    rcases hfrom table htable with hold | ⟨i, hi, hik⟩
    · have hold : s₁.module.table = some table := hold
      rw [hmodule.1.module, hempty] at hold
      cases hold
    · exact Or.inr ⟨i, himports ▸ hi, hik⟩
  · rw [hwithin.module.imports himport]
    by_cases htab : kind = .table
    · subst htab
      obtain ⟨ref, ty, rfl, hle⟩ := readTableSection_fresh h htable
      exact Or.inl ⟨ref, ty, rfl, Nat.le_trans hs.store.tables_le hle⟩
    · rw [hwithin.module.table himport htab] at htable
      exact hs.table table htable

theorem readSection_memory {size : ℕ} {s u : LoadState} (hs : s.Borrows base last)
    (horder : checkOrder last kind = .ok next) (h : readSection env size kind s = .ok () u)
    {memory : MemoryKind} (hmemory : u.module.memory = some memory) :
    (∃ ref, memory = .owned ref ∧ base.memories.length ≤ ref) ∨
      ∃ i ∈ u.module.imports, i.memoryKind? = some memory := by
  have hwithin := ((readSection_frame (W := .all) env size
    (LoadState.sectionWrites_all env kind s)).ok rfl h).1
  by_cases himport : kind = .import_
  · subst himport
    obtain ⟨imports, s₁, hread, h⟩ := bind_eq_ok.1 h
    obtain ⟨_, s₂, hset, h⟩ := bind_eq_ok.1 h
    cases hset
    have hempty := (hs.fresh (checkOrder_lt horder nofun)).2
    have hmodule := (quiet_readVec quiet_readImport).ok (.refl s) hread
    obtain ⟨-, himports⟩ := forEach_resolveImport_frame h
    obtain ⟨-, -, hfrom⟩ := forEach_field Import.memoryKind? (fun s => s.module.memory)
      (fun _ _ _ h => (resolveImport_fields h).2.2.2) h
    rcases hfrom memory hmemory with hold | ⟨i, hi, hik⟩
    · have hold : s₁.module.memory = some memory := hold
      rw [hmodule.1.module, hempty] at hold
      cases hold
    · exact Or.inr ⟨i, himports ▸ hi, hik⟩
  · rw [hwithin.module.imports himport]
    by_cases hmem : kind = .memory
    · subst hmem
      rcases readMemorySection_eq_ok h with hnone | ⟨hempty, ref, howned⟩
      · cases hnone.symm.trans hmemory
      · obtain rfl : .owned ref = memory := Option.some.inj (howned.symm.trans hmemory)
        rcases hwithin.owns ref howned with hold | hle
        · cases hempty.symm.trans hold
        · exact Or.inl ⟨ref, rfl, Nat.le_trans hs.store.memories_le hle⟩
    · rw [hwithin.module.memory himport hmem] at hmemory
      exact hs.memory memory hmemory

theorem LoadState.Borrows.body {s u : LoadState} (hs : s.Borrows base last)
    (horder : checkOrder last kind = .ok next) (hbody : readSectionBody env kind s = .ok () u) :
    u.Borrows base next := by
  have hwithin := (readSectionBody_frame (W := .all) env fun _ _ _ =>
    LoadState.sectionWrites_all env kind _).ok rfl hbody
  obtain ⟨size, s₁, v, hsize, -, hsection, rfl, -⟩ := readSectionBody_eq_ok hbody
  have hs₁ := hs.continues ((quiet_decoding decoder_readU32).ok (.refl s) hsize).1
  have henter : (s₁.enter size.toNat).Borrows base last := hs₁.congr rfl rfl
  refine ⟨hs.store.trans hwithin.store, fun hnext => ?_,
    fun table htable => readSection_table henter horder hsection htable,
    fun memory hmemory => readSection_memory henter horder hsection hmemory⟩
  have hle := checkOrder_le horder
  have hkind : ∀ later : SectionKind, later ≠ .custom →
      SectionKind.import_.toNat ≤ later.toNat → kind ≠ later := by
    rintro _ hcustom hlater rfl
    rcases checkOrder_eq_ok.1 horder with ⟨rfl, -⟩ | ⟨-, -, rfl⟩
    · exact hcustom rfl
    · omega
  have hempty := hs.fresh (Nat.lt_of_le_of_lt hle hnext)
  rw [hwithin.module.table (hkind _ nofun (by decide)) (hkind _ nofun (by decide)),
    hwithin.module.memory (hkind _ nofun (by decide)) (hkind _ nofun (by decide))]
  exact hempty

/-- In front of the body of any section that a load comes to. -/
theorem AtSection.borrows {s u : LoadState} (h : AtSection env s last kind u)
    (hs : s.Borrows base last) : ∃ last, u.Borrows base last := by
  induction h with
  | here hkind _ hsize =>
      have hs₁ := hs.continues ((quiet_decoding decoder_sectionKind).ok (.refl _) hkind).1
      have hs₂ := hs₁.continues ((quiet_decoding decoder_readU32).ok (.refl _) hsize).1
      exact ⟨_, hs₂.congr rfl rfl⟩
  | later hkind horder hbody _ ih =>
      have hs₁ := hs.continues ((quiet_decoding decoder_sectionKind).ok (.refl _) hkind).1
      exact ih (hs₁.body horder hbody)

/-! ### Segments -/

/-- A segment of a data section is read inside the section. -/
theorem AtData.within {s u : LoadState} {memory : MemRef} (h : AtData env s memory u)
    (hmemory : s.HasMemory memory) : s.Within .all .data u := by
  obtain ⟨len, s₁, i, hlen, -, hiterate⟩ := h
  have hs₁ : s.Within .all .data s₁ :=
    ((quiet_decoding decoder_readU32).ok (.refl s) hlen).1.within
  have hrounds : s₁.Within .all .data u := ((InSection.rounds (W := .all) i fun _ _ v _ hv =>
    readData_frame env ((hmemory.within hs₁).within hv) fun _ _ _ _ _ _ _ =>
      trivial).ok rfl hiterate).1
  exact hs₁.trans hrounds

/-- The load comes to an element segment, in state `s`. -/
def LoadTarget.AtElement (t : LoadTarget) (env : LoadEnv) (name : Name) (wasm : Reader)
    (s : LoadState) : Prop :=
  ∃ s₁ s₂, readHeader name (t.start name wasm) = .ok () s₁ ∧
    AtSection env s₁ .custom .element s₂ ∧ SpaceWasm.AtElement env s₂ s

/-- The load comes to a data segment, in state `s`. -/
def LoadTarget.AtData (t : LoadTarget) (env : LoadEnv) (name : Name) (wasm : Reader)
    (memory : MemRef) (s : LoadState) : Prop :=
  ∃ s₁ s₂, readHeader name (t.start name wasm) = .ok () s₁ ∧
    AtSection env s₁ .custom .data s₂ ∧ s₂.HasMemory memory ∧
      SpaceWasm.AtData env s₂ memory s

/-- The entry designates the function that the module with the number `n` knows as `r`. -/
def TableElement.Designates (x : TableElement) (n : ℕ) : Ref → Prop
  | .module index => ∃ q : ModuleRef, x = .func q index ∧ q.toNat = n
  | .host module index => x = .host module index
  | .extern_ module index => x = .func module index

/-- The number of a module is cut to eight bits, which loses nothing below 256. -/
theorem tableElementOf_designates {n : ℕ} (hn : n < 256) (r : Ref) :
    (tableElementOf n r).Designates n r := by
  cases r with
  | module index => exact ⟨_, rfl, by rw [BitVec.toNat_ofNat, Nat.mod_eq_of_lt hn]⟩
  | host module index => rfl
  | extern_ module index => rfl

/-- The module imports a table, and the load comes to an element segment that covers
entry `k` of it; `x` is the entry of a function of the module, and designates this
function unless 256 modules are there already. -/
def LoadTarget.WritesEntry (t : LoadTarget) (env : LoadEnv) (name : Name) (wasm : Reader)
    (table : TableRef) (k : ℕ) (x : TableElement) : Prop :=
  ∃ s u offset len, t.AtElement env name wasm s ∧
    readElementHead env s = .ok (table, offset, len) u ∧ offset ≤ k ∧ k < offset + len ∧
    (∃ i ∈ s.module.imports, ∃ kind, i.tableKind? = some kind ∧
      t.store.tableOf? kind = some table) ∧
    ∃ f r, s.module.getFuncRef f = some r ∧ x = tableElementOf t.store.modules.length r ∧
      (t.store.modules.length < 256 → x.Designates t.store.modules.length r)

/-- The module imports a memory, and the load comes to a data segment that covers byte `k`
of it. -/
def LoadTarget.WritesByte (t : LoadTarget) (env : LoadEnv) (name : Name) (wasm : Reader)
    (memory : MemRef) (k : ℕ) : Prop :=
  ∃ s u offset len, t.AtData env name wasm memory s ∧
    readDataHead env s = .ok (offset, len) u ∧ offset.toNat ≤ k ∧ k < offset.toNat + len ∧
    ∃ i ∈ s.module.imports, ∃ kind, i.memoryKind? = some kind ∧
      t.store.memoryOf? kind = some memory

/-- Where the load may write; what it has made itself does not count. -/
def LoadTarget.footprint (t : LoadTarget) (env : LoadEnv) (name : Name) (wasm : Reader) :
    Footprint where
  table table k x := table < t.store.tables.length → t.WritesEntry env name wasm table k x
  byte memory k := memory < t.store.memories.length → t.WritesByte env name wasm memory k

/-- A load writes within the ranges of its segments. -/
theorem LoadTarget.loadWrites {s₁ : LoadState}
    (hheader : readHeader name (t.start name wasm) = .ok () s₁) :
    s₁.LoadWrites env (t.footprint env name wasm) .custom := by
  intro kind s₂ hsection
  have hs₁ : (t.start name wasm).Continues s₁ := (readHeader_frame name).ok rfl hheader
  obtain ⟨last, hs₂⟩ := hsection.borrows ((LoadState.Borrows.start t name wasm).continues hs₁)
  constructor
  · rintro rfl s hat table offset len u hhead j hj hj' f r hr hlt
    have hs := hat.within
    have hmodule : s.module = s₂.module := hs.module.eq (Or.inl rfl)
    have hevolves := hs₂.store.trans hs.store
    have hquiet := (quiet_readElementHead env).ok (.refl s) hhead
    obtain ⟨kind, entries, hkind, htable, -, -⟩ := hquiet.2
    have hentry : tableElementOf s.store.modules.length r =
        tableElementOf t.store.modules.length r := by
      rw [hevolves.modules]
    refine ⟨s, u, offset, len, ⟨s₁, s₂, hheader, hsection, hat⟩, hhead, hj, hj', ?_, f, r, hr,
      hentry, fun hlt => hentry ▸ tableElementOf_designates hlt r⟩
    · rw [hmodule] at hkind ⊢
      rcases hs₂.table kind hkind with ⟨ref, ty, rfl, hle⟩ | ⟨i, hi, hik⟩
      · cases htable
        exact absurd hlt (Nat.not_lt.2 hle)
      · rw [hevolves.tableOf?] at htable
        exact ⟨i, hi, kind, hik, htable⟩
  · rintro rfl memory s hmemory hat offset len u hhead j hj hj' hlt
    have hs := hat.within hmemory
    have hmodule : s.module = s₂.module := hs.module.eq (Or.inr rfl)
    refine ⟨s, u, offset, len, ⟨s₁, s₂, hheader, hsection, hmemory, hat⟩, hhead, hj, hj', ?_⟩
    obtain ⟨kind, hkind, hmem⟩ := hmemory
    rw [hmodule]
    rcases hs₂.memory kind hkind with ⟨ref, rfl, hle⟩ | ⟨i, hi, hik⟩
    · cases hmem
      exact absurd hlt (Nat.not_lt.2 hle)
    · rw [hs₂.store.memoryOf?] at hmem
      exact ⟨i, hi, kind, hik, hmem⟩

/-! ### Loads -/

/-- What a load leaves of what was there. -/
structure LoadTarget.Contains (env : LoadEnv) (name : Name) (wasm : Reader) (t t' : LoadTarget) :
    Prop where
  code : t.code.Extends t'.code
  modules : t.store.modules <+: t'.store.modules
  hostModules : t'.store.hostModules = t.store.hostModules
  table : ∀ table entries, t.store.tables[table]? = some entries →
    ∃ entries', t'.store.tables[table]? = some entries' ∧
      SameTable (t.WritesEntry env name wasm table) entries entries'
  memory : ∀ memory m, t.store.memories[memory]? = some m →
    ∃ m', t'.store.memories[memory]? = some m' ∧
      SameMemory (t.WritesByte env name wasm memory) m m'

theorem LoadTarget.Contains.grows {t' : LoadTarget}
    (h : t.Grows (t.footprint env name wasm) t') : t.Contains env name wasm t' where
  code := h.code
  modules := by rw [h.store.modules]
  hostModules := h.store.hostModules
  table table entries hentries := by
    have hlt := (List.getElem?_eq_some_iff.1 hentries).1
    obtain ⟨entries', hentries', hsame⟩ := h.store.table table entries hentries
    refine ⟨entries', hentries', hsame.length, fun j => (hsame.entry j).imp id ?_⟩
    rintro ⟨x, hx, hwrites⟩
    exact ⟨x, hx, hwrites hlt⟩
  memory memory m hm := by
    have hlt := (List.getElem?_eq_some_iff.1 hm).1
    obtain ⟨m', hm', hsame⟩ := h.store.memory memory m hm
    refine ⟨m', hm', hsame.ty, hsame.allocator, hsame.length, fun j hj => hsame.byte j fun h => ?_⟩
    exact hj (h hlt)

theorem LoadTarget.Contains.push {v t' : LoadTarget} {m : Module} {r : ModuleRef}
    (h : t.Contains env name wasm v) (hpush : v.store.pushModule m = .ok (r, t'.store))
    (hcode : t'.code = v.code) : t.Contains env name wasm t' := by
  obtain ⟨-, -, hstore⟩ := Store.pushModule_eq_ok.1 hpush
  obtain ⟨hext, hmodules, hhost, htable, hmemory⟩ := h
  rw [← hcode] at hext
  refine ⟨hext, ?_, ?_, ?_, ?_⟩ <;> rw [hstore]
  · exact hmodules.trans (List.prefix_append _ _)
  · exact hhost
  · exact htable
  · exact hmemory

theorem LoadTarget.Contains.loaded {r : ModuleRef} {t' : LoadTarget}
    (h : loadModule env name wasm t = .ok r t') : t.Contains env name wasm t' ∧
      t'.store.modules.length = t.store.modules.length + 1 := by
  obtain ⟨m, v, -, hgrows, -, hpush, hcode⟩ := (loadModule_frame env name wasm t
    (t.footprint env name wasm) fun _ hheader => LoadTarget.loadWrites hheader).ok rfl h
  refine ⟨(LoadTarget.Contains.grows hgrows).push hpush hcode, ?_⟩
  obtain ⟨-, -, hstore⟩ := Store.pushModule_eq_ok.1 hpush
  rw [hstore, List.length_append, hgrows.store.modules]
  rfl

theorem LoadTarget.Contains.failed {err : LoadError} {t' : LoadTarget}
    (h : loadModule env name wasm t = .error err t') : t.Contains env name wasm t' ∧
      t'.store.modules = t.store.modules := by
  have hgrows := (loadModule_frame env name wasm t (t.footprint env name wasm)
    fun _ hheader => LoadTarget.loadWrites hheader).error rfl h
  exact ⟨.grows hgrows, hgrows.store.modules⟩

/-- The tables before and after a load of a module that imports one of them. -/
def tablesAround (other : List U8) : Option (List (List TableElement) × List (List TableElement)) :=
  (emptySession.load? [0x61] withTable).bind fun s =>
    (loadModule simpleEnv [0x62] (Reader.new (.ofBytes other)) s.target).result.map fun p =>
      (s.target.store.tables, p.2.store.tables)

-- The load writes its function to the entry of its segment,
example : tablesAround writingTable =
    some ([[], [.uninitialized]], [[], [.func 1 0]]) := by decide +kernel

-- and it has done so when it fails behind the segment.
example : tablesAround writingTable.dropLast =
    some ([[], [.uninitialized]], [[], [.func 1 0]]) := by decide +kernel

end SpaceWasm
