import SpaceWasm.Bystanders
import SpaceWasm.Initialisers

/-!
# Isolation of modules from a load

A load leaves the modules that are there, their code, and the tables and memories that its
module does not import. A session in which it has been made does the same as one in which it
has not, as far as modules are concerned that share nothing with it, unless their code calls
through an entry for a function that was missing and that the load has brought.
-/

namespace SpaceWasm

open Fallible Capi

variable {η : Type} {floats : FloatOps} {host : HostEnv η} {env : LoadEnv} {name : Name}
  {wasm : Reader} {t t' : LoadTarget} {R : ModuleRef → Prop} {K : MemRef → Prop}
  {T : TableRef → Prop}

/-! ### What a load shares -/

/-- One of the imports of the module is the table. -/
def Module.ImportsTable (m : Module) (s : Store) (table : TableRef) : Prop :=
  ∃ i ∈ m.imports, i.tableKind?.bind s.tableOf? = some table

/-- One of the imports of the module is the memory. -/
def Module.ImportsMemory (m : Module) (s : Store) (memory : MemRef) : Prop :=
  ∃ i ∈ m.imports, i.memoryKind?.bind s.memoryOf? = some memory

instance (m : Module) (s : Store) (table : TableRef) : Decidable (m.ImportsTable s table) :=
  inferInstanceAs (Decidable (∃ i ∈ m.imports, i.tableKind?.bind s.tableOf? = some table))

instance (m : Module) (s : Store) (memory : MemRef) : Decidable (m.ImportsMemory s memory) :=
  inferInstanceAs (Decidable (∃ i ∈ m.imports, i.memoryKind?.bind s.memoryOf? = some memory))

/-- The load comes to a section, in front of which its module is `m`. -/
def LoadTarget.Building (t : LoadTarget) (env : LoadEnv) (name : Name) (wasm : Reader)
    (m : Module) : Prop :=
  ∃ s₁ kind s₂, readHeader name (t.start name wasm) = .ok () s₁ ∧
    AtSection env s₁ .custom kind s₂ ∧ m = s₂.module

theorem LoadTarget.WritesEntry.imports {table : TableRef} {k : ℕ} {x : TableElement}
    (h : t.WritesEntry env name wasm table k x) :
    ∃ m, t.Building env name wasm m ∧ m.ImportsTable t.store table := by
  obtain ⟨s, u, offset, len, ⟨s₁, s₂, hheader, hsection, hat⟩, -, -, -, ⟨i, hi, himports⟩, -⟩ := h
  rw [hat.within.module.eq (Or.inl rfl)] at hi
  exact ⟨s₂.module, ⟨s₁, .element, s₂, hheader, hsection, rfl⟩, i, hi,
    Option.bind_eq_some_iff.2 himports⟩

theorem LoadTarget.WritesByte.imports {memory : MemRef} {k : ℕ}
    (h : t.WritesByte env name wasm memory k) :
    ∃ m, t.Building env name wasm m ∧ m.ImportsMemory t.store memory := by
  obtain ⟨s, u, offset, len, ⟨s₁, s₂, hheader, hsection, hmemory, hat⟩, -, -, -, i, hi,
    himports⟩ := h
  rw [(hat.within hmemory).module.eq (Or.inr rfl)] at hi
  exact ⟨s₂.module, ⟨s₁, .data, s₂, hheader, hsection, rfl⟩, i, hi,
    Option.bind_eq_some_iff.2 himports⟩

theorem readSectionBody_imports {kind : SectionKind} {s u : LoadState} (hne : kind ≠ .import_)
    (h : readSectionBody env kind s = .ok () u) : u.module.imports = s.module.imports :=
  (Guarded.ok (readSectionBody_frame (W := .all) env fun _ _ _ =>
    LoadState.sectionWrites_all env kind _) rfl h).module.imports hne

/-- In front of a section, a module that is loaded has no imports yet, or all of them. -/
theorem AtSection.imports {last kind : SectionKind} {s u v : LoadState}
    (hat : AtSection env s last kind u) {fuel : ℕ} {seenCode b : Bool}
    (h : readSections env fuel last seenCode s = .ok b v)
    (hs : s.module.imports = [] ∨ SectionKind.import_.toNat ≤ last.toNat) :
    u.module.imports = [] ∨ u.module.imports = v.module.imports := by
  induction hat generalizing fuel seenCode with
  | here hkind _ hsize =>
      have hmodule := (((quiet_decoding decoder_sectionKind).ok (.refl _) hkind).1.trans
        ((quiet_decoding decoder_readU32).ok (.refl _) hsize).1).module
      refine hs.imp (fun hnil => ?_) fun hle => ?_
      · exact (congrArg Module.imports hmodule).trans hnil
      · rcases readSections_field Module.imports (show SectionKind.import_ ≠ .custom by decide)
            readSectionBody_imports h with ⟨size, s', w, hat, -⟩ | ⟨-, hsame⟩
        · exact absurd (hat.lt (by decide)) (Nat.not_lt.2 hle)
        · exact (congrArg Module.imports hmodule).trans hsame.symm
  | @later s s₁ s₂ _ last kind next _ hkind horder hbody _ ih =>
      obtain ⟨fuel, h⟩ : ∃ fuel, readSections env fuel next (seenCode || decide (kind = .code)) s₂ =
          .ok b v := by
        cases fuel with
        | zero => cases h
        | succ fuel =>
            simp only [readSections, hkind] at h
            obtain ⟨next', s', hnext, h⟩ := bind_eq_ok.1 h
            obtain ⟨horder', rfl⟩ := ofExcept_eq_ok.1 (mapError_eq_ok.1 hnext)
            cases horder.symm.trans horder'
            obtain ⟨_, w, hbody', h⟩ := bind_eq_ok.1 h
            cases hbody.symm.trans hbody'
            exact ⟨fuel, h⟩
      refine ih h ?_
      by_cases himport : kind = .import_
      · subst himport
        obtain ⟨-, -, rfl⟩ := (checkOrder_eq_ok.1 horder).resolve_left (by simp)
        exact .inr (Nat.le_refl _)
      · have hmodule := ((quiet_decoding decoder_sectionKind).ok (.refl s) hkind).1.module
        rw [readSectionBody_imports himport hbody, hmodule]
        exact hs.imp_right fun hle => Nat.le_trans hle (checkOrder_le horder)

theorem LoadTarget.Building.loaded {r : ModuleRef} {m : Module}
    (hbuilding : t.Building env name wasm m) (h : loadModule env name wasm t = .ok r t') :
    m.imports = [] ∨ ∃ m', t'.store.modules = t.store.modules ++ [m'] ∧ m.imports = m'.imports := by
  obtain ⟨s₁, kind, s₂, hheader, hat, rfl⟩ := hbuilding
  obtain ⟨m', v, hnew, hgrows, -, hpush, -⟩ := (loadModule_frame env name wasm t .all fun _ _ =>
    LoadState.loadWrites_all _ _ _).ok rfl h
  obtain ⟨u, b, x, hheader', hsections, -, rfl, rfl⟩ := Module.new_eq_ok hnew
  cases hheader.symm.trans hheader'
  have hmodule := ((readHeader_frame name).ok rfl hheader).module
  refine (hat.imports hsections (.inl (congrArg Module.imports hmodule))).imp_right fun heq => ?_
  obtain ⟨-, -, hstore⟩ := Store.pushModule_eq_ok.1 hpush
  exact ⟨x.module, by rw [hstore, hgrows.store.modules], heq⟩

/-- The memories in `K` and the tables in `T` are there, and the module imports none of
them. -/
structure LoadTarget.SharesNone (t : LoadTarget) (env : LoadEnv) (name : Name) (wasm : Reader)
    (K : MemRef → Prop) (T : TableRef → Prop) : Prop where
  memory_lt : ∀ mem, K mem → mem < t.store.memories.length
  memory : ∀ mem m, K mem → t.Building env name wasm m → ¬m.ImportsMemory t.store mem
  table_lt : ∀ table, T table → table < t.store.tables.length
  table : ∀ table m, T table → t.Building env name wasm m → ¬m.ImportsTable t.store table

/-! ### What a load leaves alone -/

theorem SameTable.eq {W : ℕ → TableElement → Prop} {t t' : List TableElement}
    (h : SameTable W t t') (hW : ∀ k x, ¬W k x) : t' = t := by
  refine List.ext_getElem? fun k => (h.entry k).resolve_right ?_
  rintro ⟨x, -, hx⟩
  exact hW k x hx

theorem SameMemory.eq {W : ℕ → Prop} {m m' : Memory} (h : SameMemory W m m')
    (hW : ∀ k, ¬W k) : m' = m := by
  have hbytes : m'.bytes = m.bytes := List.ext_getElem? fun k => h.byte k (hW k)
  cases m
  cases m'
  cases h.ty
  cases h.allocator
  cases hbytes
  rfl

theorem LoadTarget.Contains.memory_eq (h : t.Contains env name wasm t')
    (hshares : t.SharesNone env name wasm K T) {mem : MemRef} (hmem : K mem) :
    t'.store.memories[mem]? = t.store.memories[mem]? := by
  have hm := List.getElem?_eq_getElem (hshares.memory_lt mem hmem)
  obtain ⟨m', hm', hsame⟩ := h.memory mem _ hm
  rw [hm', hm, hsame.eq fun k hk => ?_]
  obtain ⟨n, hn, himports⟩ := hk.imports
  exact hshares.memory mem n hmem hn himports

theorem LoadTarget.Contains.table_eq (h : t.Contains env name wasm t')
    (hshares : t.SharesNone env name wasm K T) {table : TableRef} (htable : T table) :
    t'.store.tables[table]? = t.store.tables[table]? := by
  have hentries := List.getElem?_eq_getElem (hshares.table_lt table htable)
  obtain ⟨entries', hentries', hsame⟩ := h.table table _ hentries
  rw [hentries', hentries, hsame.eq fun k x hx => ?_]
  obtain ⟨n, hn, himports⟩ := hx.imports
  exact hshares.table table n htable hn himports

/-- The store after a load that succeeds contains the one before it. -/
theorem LoadTarget.SharesNone.loaded {r : ModuleRef} (hshares : t.SharesNone env name wasm K T)
    (h : loadModule env name wasm t = .ok r t') : t.store.Embeds K T t'.store := by
  obtain ⟨hcontains, -⟩ := LoadTarget.Contains.loaded h
  obtain ⟨m, v, hnew, hgrows, -, hpush, -⟩ := (loadModule_frame env name wasm t .all fun _ _ =>
    LoadState.loadWrites_all _ _ _).ok rfl h
  obtain ⟨-, -, hstore⟩ := Store.pushModule_eq_ok.1 hpush
  refine ⟨⟨[m], ?_, fun m' hm' mem hmem hK => ?_⟩, hcontains.hostModules, ?_, ?_,
    fun mem => hcontains.memory_eq hshares, fun table => hcontains.table_eq hshares⟩
  · rw [hstore, hgrows.store.modules]
  · obtain rfl := List.mem_singleton.1 hm'
    exact absurd (hshares.memory_lt mem hK) (Nat.not_lt.2 (Module.new_owned hnew hmem))
  · rw [hstore]
    exact hgrows.store.zeroMemory
  · rw [hstore]
    exact hgrows.store.zeroTable

theorem LoadTarget.SharesNone.failed {err : LoadError} (hshares : t.SharesNone env name wasm K T)
    (h : loadModule env name wasm t = .error err t') : t.store.Embeds K T t'.store := by
  obtain ⟨hcontains, hmodules⟩ := LoadTarget.Contains.failed h
  have hgrows := (loadModule_frame env name wasm t .all fun _ _ =>
    LoadState.loadWrites_all _ _ _).error rfl h
  exact ⟨⟨[], by rw [hmodules, List.append_nil], nofun⟩, hcontains.hostModules,
    hgrows.store.zeroMemory, hgrows.store.zeroTable,
    fun mem => hcontains.memory_eq hshares, fun table => hcontains.table_eq hshares⟩

/-! ### Sessions -/

/-- The modules in `R` are set apart from the module that a load into the idle session reads:
they use the memories in `K` and the tables in `T`, the host looks at no other memories, and
the module imports none of these. -/
structure Session.Bystanders (s : Session η) (setup : HostSetup) (floats : FloatOps)
    (host : HostEnv η) (stackSize : ℕ) (env : LoadEnv) (name : Name) (wasm : Reader)
    (R : ModuleRef → Prop) (K : MemRef → Prop) (T : TableRef → Prop) : Prop where
  regular : host.Regular setup.hostModules
  small : stackSize < 2 ^ 31
  abides : s.Abides setup floats host stackSize
  idle : s.engine.isIdle
  apart : s.engine.store.SetsApart R K T
  shares : s.target.SharesNone env name wasm K T
  looks : host.LooksWithin K

/-- Modules that are set apart do the same in the session before and after the load. -/
def Session.Unaffected (s : Session η) (t' : LoadTarget) (floats : FloatOps) (host : HostEnv η)
    (R : ModuleRef → Prop) (K : MemRef → Prop) (T : TableRef → Prop) : Prop :=
  Engine.Unaffected R K T (s.env floats host) ((s.withTarget t').env floats host) s.engine
    (s.withTarget t').engine

/-- Code of the modules in `R` comes to an entry for a function that is missing in the session,
but there in `u`. -/
def Session.Strays (s : Session η) (u : Store) (floats : FloatOps) (host : HostEnv η)
    (R : ModuleRef → Prop) : Prop :=
  ∃ cs e, Engine.Drive (fun e c => c.Inside R e) (s.env floats host) s.engine cs e ∧
    e.Strays s.code u

/-- The code of every function that was there reads back as before. -/
def LoadTarget.KeepsCode (t t' : LoadTarget) : Prop :=
  ∀ m ∈ t.store.modules, ∀ f ∈ m.functions, ∃ L : Listing,
    L.ReadsBack t.code.pages f.expr ∧ L.ReadsBack t'.code.pages f.expr

theorem LoadTarget.keepsCode (h : t.store.Coded t.code) (hext : t.code.Extends t'.code) :
    t.KeepsCode t' := by
  intro m hm f hf
  obtain ⟨ctx, L, hcompiled⟩ := (h m hm).coded f hf
  rw [hcompiled.expr]
  exact ⟨L, (hcompiled.installed _ (.refl _)).readsBack, (hcompiled.installed _ hext).readsBack⟩

namespace Session

variable {s : Session η} {u : Store}

theorem Bystanders.unaffected_iff {setup : HostSetup} {stackSize : ℕ}
    (h : s.Bystanders setup floats host stackSize env name wasm R K T)
    (hstep : SessionStep floats host s (s.withTarget t')) (hext : s.code.Extends t'.code)
    (hembeds : s.engine.store.Embeds K T t'.store) :
    s.Unaffected t' floats host R K T ↔ ¬s.Strays t'.store floats host R := by
  have hs : s.Safe host := h.abides.safe h.regular h.small
  have hrests := hs.sited.idle (of_decide_eq_true h.idle)
  have hs' : (s.withTarget t').Safe host :=
    (h.abides.step (.free hrests.pause hstep)).safe h.regular h.small
  have hpairs : Engine.Pairs R K T host s.code t'.code t'.store s.engine
      (s.withTarget t').engine := ⟨hs, hs', ⟨t'.store, rfl, hembeds⟩, h.apart, .inl hrests, .refl _⟩
  refine (hpairs.unaffected_iff hext h.looks).trans ⟨?_, fun hfree cs e hd hstrays => ?_⟩
  · rintro hfree ⟨cs, e, hd, hstrays⟩
    exact hfree cs e hd hstrays
  · exact hfree ⟨cs, e, hd, hstrays⟩

end Session

/-- What holds between a target and the one that a load leaves, whatever it has read. -/
structure LoadTarget.Isolates (env : LoadEnv) (name : Name) (wasm : Reader) (t t' : LoadTarget) :
    Prop where
  contains : t.Contains env name wasm t'
  code : t.Coded → t.KeepsCode t'
  /-- Modules that share nothing with the load are unaffected exactly if none of their code
  comes to an entry that was left for a function that has been loaded now. -/
  unaffected : ∀ {η : Type} {setup : HostSetup} {floats : FloatOps} {host : HostEnv η}
    {stackSize : ℕ} {s : Session η} {R : ModuleRef → Prop} {K : MemRef → Prop}
    {T : TableRef → Prop}, s.target = t →
      s.Bystanders setup floats host stackSize env name wasm R K T →
        (s.Unaffected t' floats host R K T ↔ ¬s.Strays t'.store floats host R)

theorem LoadTarget.Isolates.loaded {r : ModuleRef} (h : loadModule env name wasm t = .ok r t') :
    t.Isolates env name wasm t' := by
  obtain ⟨hcontains, -⟩ := LoadTarget.Contains.loaded h
  refine ⟨hcontains, fun hcoded => keepsCode hcoded hcontains.code, fun htarget hs => ?_⟩
  subst htarget
  exact hs.unaffected_iff (.loaded env name wasm hs.idle h) hcontains.code (hs.shares.loaded h)

theorem LoadTarget.Isolates.failed {err : LoadError}
    (h : loadModule env name wasm t = .error err t') : t.Isolates env name wasm t' := by
  obtain ⟨hcontains, -⟩ := LoadTarget.Contains.failed h
  refine ⟨hcontains, fun hcoded => keepsCode hcoded hcontains.code, fun htarget hs => ?_⟩
  subst htarget
  exact hs.unaffected_iff (.loadFailed env name wasm hs.idle h) hcontains.code (hs.shares.failed h)

end SpaceWasm
