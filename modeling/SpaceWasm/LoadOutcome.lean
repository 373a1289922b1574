import SpaceWasm.Lib.Refusal
import SpaceWasm.Session

/-!
# Loads and the table that an engine caches

An idle engine keeps the table of its last execution. An element segment wants the only
handle to the table it writes to; so a load may be refused because the engine holds that
table, and in no other way does its outcome depend on the engine.
-/

namespace SpaceWasm

open Fallible Relation

variable {η α : Type}

/-- What a load finds outside the store with an engine beside it: the engine holds a
handle to the table that it caches. -/
def Engine.loadEnv (e : Engine η) (env : LoadEnv) : LoadEnv :=
  { env with tableHandles := fun table => env.tableHandles table +
      if e.table = table then 1 else 0 }

/-- The module that is being loaded has a table, and it is this one. -/
def LoadState.SeesTable (s : LoadState) (table : TableRef) : Prop :=
  ∃ kind, s.module.table = some kind ∧ s.store.tableOf? kind = some table

/-- The engine holds the table of the module that is being loaded. -/
def Engine.Holds (e : Engine η) (s : LoadState) : Prop :=
  s.SeesTable e.table ∧ e.table ≠ s.store.zeroTable

/-- The refusal of a writer to the table. -/
def Engine.Refuses (e : Engine η) (err : ValidationError) (s : LoadState) : Prop :=
  err = .tableRefNotUnique ∧ e.Holds s

/-! ### Handles to tables -/

def TableKind.ownHandles : TableKind → ℕ
  | .owned _ _ => 1
  | _ => 0

/-- The table of a module has a handle beside that of the sentinel. -/
theorem Store.tableHandles_le {s : Store} {kind : TableKind} {table : TableRef}
    (h : s.tableOf? kind = some table) :
    (if s.zeroTable = table then 1 else 0) + 1 ≤ s.tableHandles table + kind.ownHandles := by
  unfold Store.tableHandles
  cases kind with
  | owned t ty => exact Nat.add_le_add_right (by omega) 1
  | import_ r =>
      obtain ⟨p, hp, rfl⟩ := Option.map_eq_some_iff.1 h
      obtain ⟨m, hm, hp⟩ := Option.bind_eq_some_iff.1 hp
      have hone : ∀ k owners symbols own : ℕ, 0 < owners →
          k + 1 ≤ k + owners + symbols + own := by omega
      refine hone _ _ _ _ (List.countP_pos_iff.2 ⟨m, List.mem_of_getElem? hm, ?_⟩)
      split at hp
      · cases hp
        exact decide_eq_true rfl
      · cases hp
  | importHost r =>
      obtain ⟨sym, hsym, rfl⟩ := Option.map_eq_some_iff.1 h
      obtain ⟨hm, hhm, hsym⟩ := Option.bind_eq_some_iff.1 hsym
      have hpos : 0 < hm.table.countP fun sym' => sym'.value = sym.value :=
        List.countP_pos_iff.2 ⟨sym, List.mem_of_getElem? hsym, by simp⟩
      have hsum : 0 < (s.hostModules.map fun hm =>
          hm.table.countP fun sym' => sym'.value = sym.value).sum :=
        List.sum_pos_iff_exists_pos_nat.2
          ⟨_, List.mem_map_of_mem (List.mem_of_getElem? hhm), hpos⟩
      omega

/-! ### Sections -/

section Sections

variable (e : Engine η) (env : LoadEnv)

/-- The check that a writer makes of the number of handles. -/
def soleTable (handles : ℕ) (table : TableRef) : LoadM (Option TableRef) :=
  if handles = 1 then pure (some table) else throw .tableRefNotUnique

theorem soleTable_agrees {s : LoadState} {kind : TableKind} {table : TableRef}
    (hkind : s.module.table = some kind) (htable : s.store.tableOf? kind = some table) :
    let handles (env : LoadEnv) :=
      s.store.tableHandles table + env.tableHandles table + kind.ownHandles
    soleTable (handles (e.loadEnv env)) table s = soleTable (handles env) table s ∨
      ∃ err t, soleTable (handles (e.loadEnv env)) table s = .error err t ∧ e.Refuses err t := by
  intro handles
  have hle := Store.tableHandles_le htable
  have hcount : handles (e.loadEnv env) = s.store.tableHandles table +
      (env.tableHandles table + if e.table = table then 1 else 0) + kind.ownHandles := rfl
  have hbase : handles env = s.store.tableHandles table + env.tableHandles table +
      kind.ownHandles := rfl
  unfold soleTable
  by_cases hcached : e.table = table
  · rw [if_pos hcached] at hcount
    rw [if_neg (by omega)]
    by_cases hzero : s.store.zeroTable = table
    -- The sentinel is one handle and the owner another: nobody may write to it.
    · rw [if_pos hzero] at hle
      rw [if_neg (by omega)]
      exact .inl rfl
    · exact .inr ⟨_, s, rfl, rfl, ⟨kind, hkind, hcached ▸ htable⟩,
        fun h => hzero (h.symm.trans hcached)⟩
  · rw [if_neg hcached, Nat.add_zero] at hcount
    rw [hcount, hbase]
    exact .inl rfl

theorem getTableMut_agrees :
    AgreesUntil e.Refuses (getTableMut env) (getTableMut (e.loadEnv env)) := by
  intro s
  unfold getTableMut
  rw [bind_of_ok (get_apply s), bind_of_ok (get_apply s)]
  cases hkind : s.module.table with
  | none => exact .inl rfl
  | some kind =>
      cases kind with
      | owned table ty => exact soleTable_agrees e env hkind rfl
      | import_ r =>
          cases ht : s.store.ownedTable? r with
          | none => exact .inl (by simp only [ht]; rfl)
          | some p =>
              simp only [ht, unwrap_some, pure_bind]
              exact soleTable_agrees e env hkind (by rw [Store.tableOf?, ht]; rfl)
      | importHost r =>
          cases ht : s.store.hostTable? r with
          | none => exact .inl (by simp only [ht]; rfl)
          | some sym =>
              simp only [ht, unwrap_some, pure_bind]
              exact soleTable_agrees e env hkind (by rw [Store.tableOf?, ht]; rfl)

theorem readElementFunc_agrees (index : ℕ) :
    AgreesUntil e.Refuses (readElementFunc env index) (readElementFunc (e.loadEnv env) index) :=
  .bind_left _ fun _ => .bind_left _ fun _ => .bind_left _ fun _ =>
    .bind (getTableMut_agrees e env) fun _ => .refl _

theorem readElementFuncs_agrees (n index : ℕ) : AgreesUntil e.Refuses
    (readElementFuncs env n index) (readElementFuncs (e.loadEnv env) n index) := by
  induction n generalizing index with
  | zero => exact .refl _
  | succ n ih => exact .bind (readElementFunc_agrees e env index) fun _ => ih _

theorem readElement_agrees :
    AgreesUntil e.Refuses (readElement env) (readElement (e.loadEnv env)) :=
  .bind_left _ fun _ => .ite (.refl _) <| .bind_left _ fun _ => .bind_left _ fun _ =>
    .bind_left _ fun _ => .bind (getTableMut_agrees e env) fun table? => by
      cases table? with
      | none => exact .refl _
      | some table =>
          exact .bind_left _ fun _ => .bind_left _ fun _ =>
            .ite (.bind_left _ fun _ => readElementFuncs_agrees e env _ _) <|
              .ite (.bind_left _ fun _ => readElementFuncs_agrees e env _ _)
                (readElementFuncs_agrees e env _ _)

theorem readElementSection_agrees :
    AgreesUntil e.Refuses (readElementSection env) (readElementSection (e.loadEnv env)) :=
  .bind_left _ fun _ => (readElement_agrees e env).iterate _

theorem readFunctionCodes_loadEnv (n i : ℕ) :
    readFunctionCodes (e.loadEnv env) n i = readFunctionCodes env n i := by
  induction n generalizing i with
  | zero => rfl
  | succ n ih => exact congrArg (readFunctionCode env i >>= ·) (funext fun _ => ih _)

/-- Element segments alone ask for the handles. -/
theorem readSection_agrees (size : ℕ) (kind : SectionKind) :
    AgreesUntil (fun err s => kind = .element ∧ e.Refuses err s) (readSection env size kind)
      (readSection (e.loadEnv env) size kind) := by
  cases kind with
  | element =>
      exact fun s => (readElementSection_agrees e env s).imp_right fun ⟨err, t, hs, ht⟩ =>
        ⟨err, t, hs, rfl, ht⟩
  | code =>
      refine .bind_left _ fun n => .bind_left _ fun s => ?_
      rw [readFunctionCodes_loadEnv]
      exact .refl _
  | custom | type | import_ | function | table | memory | global | export_ | start | data =>
      exact .refl _

/-- What ends a load that an engine refuses. -/
def Engine.RefusesLoad (e : Engine η) (err : SectionDecodeError) (s : LoadState) : Prop :=
  err = ValidationError.tableRefNotUnique.withSection .element ∧ e.Holds s

theorem withLimit_agrees {P : SectionDecodeError → LoadState → Prop}
    (hP : ∀ err s wasm, P err s → P err { s with wasm := wasm }) (len : ℕ)
    {x y : DecodeModuleM α} (h : AgreesUntil P x y) :
    AgreesUntil P
      (withLimit LoadState.wasm (fun s wasm => { s with wasm := wasm })
        ValidationError.toSectionDecodeError len x)
      (withLimit LoadState.wasm (fun s wasm => { s with wasm := wasm })
        ValidationError.toSectionDecodeError len y) := by
  intro s
  unfold withLimit
  dsimp only
  split
  · obtain hs | ⟨err, t, hs, ht⟩ :=
      h { s with wasm := { s.wasm with limit := s.wasm.offset + len } }
    · exact .inl (by rw [hs])
    · exact .inr ⟨err, _, by rw [hs], hP _ _ _ ht⟩
  · exact .inl rfl

theorem readSectionBody_agrees (kind : SectionKind) : AgreesUntil e.RefusesLoad
    (readSectionBody env kind) (readSectionBody (e.loadEnv env) kind) := by
  refine .bind_left _ fun size => .bind_left _ fun start => .bind ?_ fun _ => .refl _
  refine withLimit_agrees (fun _ _ _ h => h) _ ((readSection_agrees e env _ kind).mapError ?_)
  rintro _ s ⟨rfl, rfl, hs⟩
  exact ⟨rfl, hs⟩

theorem readSections_agrees (fuel : ℕ) (last : SectionKind) (seenCode : Bool) :
    AgreesUntil e.RefusesLoad (readSections env fuel last seenCode)
      (readSections (e.loadEnv env) fuel last seenCode) := by
  induction fuel generalizing last seenCode with
  | zero => exact .refl _
  | succ fuel ih =>
      have hround : ∀ kind, AgreesUntil e.RefusesLoad
          (plain (ofExcept (checkOrder last kind)) >>= fun last => readSectionBody env kind >>=
            fun _ => readSections env fuel last (seenCode || decide (kind = .code)))
          (plain (ofExcept (checkOrder last kind)) >>= fun last =>
            readSectionBody (e.loadEnv env) kind >>= fun _ =>
              readSections (e.loadEnv env) fuel last (seenCode || decide (kind = .code))) :=
        fun kind => .bind_left _ fun _ => .bind (readSectionBody_agrees e env kind) fun _ => ih _ _
      intro s
      unfold readSections
      cases decoding SectionKind.read s with
      | ok kind s => exact hround kind s
      | error err s => cases err <;> exact .inl rfl
      | panic | diverge => exact .inl rfl

theorem Module.read_agrees (name : Name) :
    AgreesUntil e.RefusesLoad (Module.read env name) (Module.read (e.loadEnv env) name) := by
  rw [Module.read_eq, Module.read_eq]
  exact .bind_left _ fun _ => .bind_left _ fun s =>
    .bind (readSections_agrees e env (s.wasm.input.length + 1) .custom false) fun _ => .refl _

end Sections

/-! ### Loads -/

/-- The error of a load that stops in the state `s` because a table is not unique. -/
def LoadState.tableRefNotUnique (s : LoadState) : LoadError :=
  .parse ⟨BitVec.ofNat 32 s.wasm.offset,
    ValidationError.tableRefNotUnique.withSection .element⟩

/-- The module loaded into `t` is read up to an element segment, in the state `s`, and
the engine holds the table of the module, which the segment is written to. -/
def Engine.StopsAt (e : Engine η) (env : LoadEnv) (name : Name) (wasm : Reader) (t : LoadTarget)
    (s : LoadState) : Prop :=
  Module.read (e.loadEnv env) name (t.start name wasm) =
      .error (ValidationError.tableRefNotUnique.withSection .element) s ∧
    e.Holds s

theorem Module.new_agrees (e : Engine η) (env : LoadEnv) (name : Name) (wasm : Reader)
    (t : LoadTarget) :
    Module.new (e.loadEnv env) name wasm t = Module.new env name wasm t ∨
      ∃ s, e.StopsAt env name wasm t s ∧ Module.new (e.loadEnv env) name wasm t =
        .error ⟨BitVec.ofNat 32 s.wasm.offset,
          ValidationError.tableRefNotUnique.withSection .element⟩ ⟨s.store, s.code⟩ := by
  unfold Module.new
  obtain hs | ⟨err, s, hs, rfl, hholds⟩ := Module.read_agrees e env name (t.start name wasm)
  · exact .inl (by unfold LoadTarget.start at hs; rw [hs])
  · exact .inr ⟨s, ⟨hs, hholds⟩, by unfold LoadTarget.start at hs; rw [hs]⟩

theorem loadModule_agrees (e : Engine η) (env : LoadEnv) (name : Name) (wasm : Reader)
    (t : LoadTarget) :
    loadModule (e.loadEnv env) name wasm t = loadModule env name wasm t ∨
      ∃ s, e.StopsAt env name wasm t s ∧
        loadModule (e.loadEnv env) name wasm t = .error s.tableRefNotUnique ⟨s.store, s.code⟩ := by
  unfold loadModule
  obtain hnew | ⟨s, hstops, hnew⟩ := Module.new_agrees e env name wasm t
  · exact .inl (by simp only [bind_apply, mapError, hnew])
  · exact .inr ⟨s, hstops, by simp only [bind_apply, mapError, hnew]; rfl⟩

/-- How a load into an idle engine goes. -/
def Engine.load (e : Engine η) (env : LoadEnv) (name : Name) (wasm : Reader) (code : CodeBuilder) :
    Outcome LoadError LoadTarget ModuleRef :=
  loadModule (e.loadEnv env) name wasm ⟨e.store, code⟩

/-- The engine caches the table of some execution, and refuses a module that writes an
element segment to it. -/
def Engine.RefusesLoadOf (e : Engine η) (env : LoadEnv) (name : Name) (wasm : Reader)
    (code : CodeBuilder) : Prop :=
  e.table ≠ e.store.zeroTable ∧
    ∃ s, e.StopsAt env name wasm ⟨e.store, code⟩ s ∧
      e.load env name wasm code = .error s.tableRefNotUnique ⟨s.store, s.code⟩

/-- An engine that caches no table refuses no module. -/
theorem Engine.load_cases (e : Engine η) (env : LoadEnv) (name : Name) (wasm : Reader)
    (code : CodeBuilder) : e.load env name wasm code = loadModule env name wasm ⟨e.store, code⟩ ∨
      e.RefusesLoadOf env name wasm code := by
  obtain h | ⟨s, hstops, h⟩ := loadModule_agrees e env name wasm ⟨e.store, code⟩
  · exact .inl h
  · refine .inr ⟨fun hzero => ?_, s, hstops, h⟩
    have hgrows := (loadModule_frame (e.loadEnv env) name wasm ⟨e.store, code⟩ .all fun _ _ =>
      LoadState.loadWrites_all _ _ _).error rfl h
    exact hstops.2.2 (hzero.trans hgrows.store.zeroTable.symm)

theorem Engine.reset_accepts (e : Engine η) (env : LoadEnv) (name : Name) (wasm : Reader)
    (code : CodeBuilder) : ¬e.reset.RefusesLoadOf env name wasm code :=
  fun h => h.1 rfl

/-- Two engines over one store load a module alike, unless one of them caches the table
that an element segment of the module is written to and so refuses the module. An
engine that has been reset refuses none. -/
theorem Engine.load_agrees (e e' : Engine η) (hstore : e'.store = e.store) (env : LoadEnv)
    (name : Name) (wasm : Reader) (code : CodeBuilder) :
    (e.load env name wasm code = e'.load env name wasm code ∨
      e.RefusesLoadOf env name wasm code ∨ e'.RefusesLoadOf env name wasm code) ∧
      ¬e.reset.RefusesLoadOf env name wasm code := by
  refine ⟨?_, e.reset_accepts env name wasm code⟩
  obtain h | h := e.load_cases env name wasm code
  · obtain h' | h' := e'.load_cases env name wasm code
    · exact .inl (by rw [h, h', hstore])
    · exact .inr (.inr h')
  · exact .inr (.inl h)

/-! ### An execution that leaves its table behind -/

/-- A module with an exported table and an empty function. -/
def withTable : List U8 :=
  [0x00, 0x61, 0x73, 0x6D, 0x01, 0x00, 0x00, 0x00, 0x01, 0x04, 0x01, 0x60, 0x00, 0x00, 0x03, 0x02,
    0x01, 0x00, 0x04, 0x04, 0x01, 0x70, 0x00, 0x01, 0x07, 0x05, 0x01, 0x01, 0x74, 0x01, 0x00, 0x0A,
    0x04, 0x01, 0x02, 0x00, 0x0B]

/-- A module that imports the table and writes a function to it. -/
def writingTable : List U8 :=
  [0x00, 0x61, 0x73, 0x6D, 0x01, 0x00, 0x00, 0x00, 0x01, 0x04, 0x01, 0x60, 0x00, 0x00, 0x02, 0x09,
    0x01, 0x01, 0x61, 0x01, 0x74, 0x01, 0x70, 0x00, 0x01, 0x03, 0x02, 0x01, 0x00, 0x09, 0x07, 0x01,
    0x00, 0x41, 0x00, 0x0B, 0x01, 0x00, 0x0A, 0x04, 0x01, 0x02, 0x00, 0x0B]

/-- The session after a call of the function. -/
def calledSession? : Option (Session Unit) := emptySession.call? [0x61] withTable 10

/-- The module that writes to the table, loaded by an engine. -/
def Engine.loadWriting (e : Engine η) (code : CodeBuilder) :
    Outcome LoadError LoadTarget ModuleRef :=
  e.load simpleEnv [0x62] (Reader.new (.ofBytes writingTable)) code

theorem Engine.load_agrees_reset : ∃ s, calledSession? = some s ∧
    (s.engine.loadWriting s.code = s.engine.reset.loadWriting s.code ∨
      s.engine.RefusesLoadOf simpleEnv [0x62] (Reader.new (.ofBytes writingTable)) s.code) := by
  obtain ⟨s, hs⟩ := Option.isSome_iff_exists.1
    (show calledSession?.isSome = true by decide +kernel)
  obtain ⟨hload | hrefuses | hreset, -⟩ :=
    Engine.load_agrees s.engine s.engine.reset rfl simpleEnv [0x62]
      (Reader.new (.ofBytes writingTable)) s.code
  · exact ⟨s, hs, .inl hload⟩
  · exact ⟨s, hs, .inr hrefuses⟩
  · exact absurd hreset (s.engine.reset_accepts _ _ _ _)

/-- The same module over the same store: the engine that has finished a call refuses it,
and loads it once it has been reset. -/
theorem Engine.load_afterCall : ∃ s err t r u, calledSession? = some s ∧
    s.Reachable emptyHost .none .quiet ∧ s.engine.isIdle ∧ s.engine.reset.isIdle ∧
    s.engine.reset.store = s.engine.store ∧ s.engine.loadWriting s.code = .error err t ∧
    s.engine.reset.loadWriting s.code = .ok r u := by
  have hrun : (calledSession?.map fun s => (decide s.engine.isIdle,
      (s.engine.reset.loadWriting s.code).isOk, match s.engine.loadWriting s.code with
        | .error _ _ => true
        | _ => false)) = some (true, true, true) := by decide +kernel
  obtain ⟨s, hs, h⟩ := Option.map_eq_some_iff.1 hrun
  obtain ⟨hidle, h⟩ := Prod.mk.inj h
  obtain ⟨hok, herror⟩ := Prod.mk.inj h
  obtain ⟨r, u, hr⟩ := Outcome.isOk_iff.1 hok
  split at herror
  · next err t he =>
      exact ⟨s, err, t, r, u, hs, emptySession_reachable.call? hs, of_decide_eq_true hidle,
        decide_eq_true rfl, rfl, he, hr⟩
  · cases herror

end SpaceWasm
