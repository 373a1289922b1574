import SpaceWasm.ElementWrites

/-!
# What table entries designate

An element segment puts the functions of its module into a table under the number that the
module will have. After a load that has succeeded, this is its number. A load that fails
after it has written its own functions to a table that somebody else uses leaves entries for
functions that do not exist, or are those of another module.
-/

namespace SpaceWasm

open Fallible Relation

variable {env : LoadEnv} {name : Name} {wasm : Reader} {t u : LoadTarget}

/-! ### Tables in use -/

/-- The table of a loaded module, its own or an imported one, or a table of the host. -/
def Store.InUse (s : Store) (table : TableRef) : Prop :=
  (∃ m ∈ s.modules, ∃ kind, m.table = some kind ∧ s.tableOf? kind = some table) ∨
    ∃ hm ∈ s.hostModules, ∃ sym ∈ hm.table, sym.value = table

/-- An imported table is in use. -/
theorem Store.InUse.imported {s : Store} {i : Import} {kind : TableKind} {table : TableRef}
    (hi : i.tableKind? = some kind) (h : s.tableOf? kind = some table) : s.InUse table := by
  cases i with
  | table r _ =>
      cases hi
      obtain ⟨⟨_, ty⟩, howned, rfl⟩ := Option.map_eq_some_iff.1 h
      obtain ⟨m, hm, htable⟩ := Option.bind_eq_some_iff.1 howned
      split at htable
      · next hkind =>
        cases htable
        exact .inl ⟨m, List.mem_of_getElem? hm, _, hkind, rfl⟩
      · cases htable
  | hostTable r j =>
      cases hi
      obtain ⟨sym, hsym, rfl⟩ := Option.map_eq_some_iff.1 h
      obtain ⟨hm, hhm, hsym⟩ := Option.bind_eq_some_iff.1 hsym
      exact .inr ⟨hm, List.mem_of_getElem? hhm, sym, List.mem_of_getElem? hsym, rfl⟩
  | _ => cases hi

/-- A load adds at most its own, new table to those in use. -/
theorem Store.InUse.loaded {m : Module} {v : Store} {code : CodeBuilder} {q : ModuleRef}
    {table : TableRef} (ht : t.store.Linked) (hnew : Module.new env name wasm t = .ok m ⟨v, code⟩)
    (hpush : v.pushModule m = .ok (q, u.store)) (h : u.store.InUse table) :
    t.store.InUse table ∨ t.store.tables.length ≤ table := by
  obtain ⟨hgrows, hsound⟩ := (Module.new_frame (W := .all) env name wasm t fun _ _ =>
    LoadState.loadWrites_all _ _ _).ok rfl hnew
  have hkeeps := hgrows.store.keeps.trans (.push hpush)
  obtain ⟨-, -, hstore⟩ := Store.pushModule_eq_ok.1 hpush
  have hmodules : u.store.modules = t.store.modules ++ [m] := by
    rw [hstore, ← hgrows.store.modules]
  have hhost : u.store.hostModules = t.store.hostModules := by
    rw [hstore, ← hgrows.store.hostModules]
  rcases h with ⟨m', hm', kind, hkind, htable⟩ | ⟨hm, hhm, hsym⟩
  · rcases List.mem_append.1 (hmodules ▸ hm') with hold | hm'
    · obtain ⟨ref, href, -⟩ := (ht.modules m' hold).table kind hkind
      rw [hkeeps.tableOf? href] at htable
      cases htable
      exact .inl (.inl ⟨m', hold, kind, hkind, href⟩)
    · obtain rfl := List.mem_singleton.1 hm'
      obtain ⟨_, _, x, hx, rfl, hv, -⟩ := Module.new_rule
        (I := fun last _ s => s.Borrows t.store last) (fun hs => hs.continues)
        (fun hs => hs.body) (.start t name wasm) hnew
      rcases hx.table kind hkind with ⟨ref, ty, rfl, hle⟩ | ⟨i, -, hik⟩
      · cases htable
        exact .inr hle
      · obtain ⟨ref, href, -⟩ := (hsound ht).table kind hkind
        rw [hgrows.store.tableOf?] at href
        rw [hkeeps.tableOf? href] at htable
        cases htable
        exact .inl (.imported hik href)
  · exact .inl (.inr ⟨hm, hhost ▸ hhm, hsym⟩)

/-! ### Histories -/

/-- The entry for a function that a load has written, when the load has added the module
`added`, or none. A function of a module that has not been added has no entry. -/
def Ref.designated (added : Option ModuleRef) : Ref → Option TableElement
  | .module i => added.map (.func · i)
  | .host m i => some (.host m i)
  | .extern_ m i => some (.func m i)

/-- What the element segments of a load designate. -/
def LoadTarget.designations (t : LoadTarget) (env : LoadEnv) (name : Name) (wasm : Reader)
    (added : Option ModuleRef) : List (TableWrite (Option TableElement)) :=
  (t.elementWrites env name wasm).map (.map (Ref.designated added))

/-- The load comes to an element segment that leaves a function of its own module in a table
that is in use. -/
def LoadTarget.Strands (t : LoadTarget) (env : LoadEnv) (name : Name) (wasm : Reader) : Prop :=
  ∃ table k i, t.store.InUse table ∧
    lastWrite (t.elementWrites env name wasm) table k = some (.module i)

/-- A history of loads with what their element segments have designated. Those that fail
meet `P`. -/
inductive TableHistory (P : LoadTarget → LoadEnv → Name → Reader → Prop) (start : LoadTarget) :
    LoadTarget → List (TableWrite (Option TableElement)) → Prop where
  | start : TableHistory P start start []
  | loaded {t u : LoadTarget} {ws : List (TableWrite (Option TableElement))} {env : LoadEnv}
      {name : Name} {wasm : Reader} {q : ModuleRef} : TableHistory P start t ws →
      loadModule env name wasm t = .ok q u →
      TableHistory P start u (ws ++ t.designations env name wasm (some q))
  | failed {t u : LoadTarget} {ws : List (TableWrite (Option TableElement))} {env : LoadEnv}
      {name : Name} {wasm : Reader} {e : LoadError} : TableHistory P start t ws →
      P t env name wasm → loadModule env name wasm t = .error e u →
      TableHistory P start u (ws ++ t.designations env name wasm none)

/-- Every entry for a wasm function, in a table that is in use, is for a function that exists
and is the one that has been designated last. -/
def Store.Designated (s : Store) (ws : List (TableWrite (Option TableElement))) : Prop :=
  ∀ table k q i, s.InUse table → s.element? table k = some (.func q i) →
    (s.func? ⟨q, i⟩).isSome ∧ lastWrite ws table k = some (some (.func q i))

variable {ws : List (TableWrite (Option TableElement))}

theorem lastWrite_designations (added : Option ModuleRef) (table : TableRef) (k : ℕ) :
    lastWrite (ws ++ t.designations env name wasm added) table k =
      ((lastWrite (t.elementWrites env name wasm) table k).map (Ref.designated added)).or
        (lastWrite ws table k) := by
  rw [lastWrite_append, LoadTarget.designations, lastWrite_map]

/-- An entry that the load has not written. -/
theorem Store.Designated.unwritten {s : Store} {es : List (TableWrite Ref)} {table : TableRef}
    {k : ℕ} {q : ModuleRef} {i : U16} (h : t.store.Designated ws) (hs : t.store.Written es s)
    (huse : t.store.InUse table ∨ t.store.tables.length ≤ table)
    (hentry : s.element? table k = some (.func q i)) (hlast : lastWrite es table k = none) :
    (t.store.func? ⟨q, i⟩).isSome ∧ lastWrite ws table k = some (some (.func q i)) := by
  obtain ⟨y, hy, hx⟩ := hs.entry table k _ hentry
  rw [hlast] at hx
  subst hx
  rcases hy with hy | ⟨-, hy⟩
  · rcases huse with huse | hle
    · exact h table k q i huse hy
    · rw [element?, List.getElem?_eq_none_iff.2 hle] at hy
      cases hy
  · cases hy

theorem Store.Designated.loaded {q : ModuleRef} (ht : t.store.Bounded)
    (h : t.store.Designated ws) (hload : loadModule env name wasm t = .ok q u) :
    u.store.Designated (ws ++ t.designations env name wasm (some q)) := by
  obtain ⟨m, v, hnew, hpush, hwritten, hexists⟩ := loadModule_written ht.linked hload
  have hgrows := ((Module.new_frame (W := .all) env name wasm t fun _ _ =>
    LoadState.loadWrites_all _ _ _).ok rfl hnew).1
  have hkeeps : t.store.Keeps u.store := hgrows.store.keeps.trans (.push hpush)
  have hm : u.store.module? q = some m := (ht.evolves hgrows.store).module?_push hpush
  obtain ⟨-, hq, hstore⟩ := Store.pushModule_eq_ok.1 hpush
  intro table k r i huse hentry
  have huse := huse.loaded ht.linked hnew hpush
  rw [hstore] at hentry
  rw [lastWrite_designations]
  cases hlast : lastWrite (t.elementWrites env name wasm) table k with
  | none =>
      obtain ⟨hlive, hws⟩ := h.unwritten hwritten huse hentry hlast
      exact ⟨Store.EntryLive.keeps (x := .func r i) hlive hkeeps, hws⟩
  | some ref =>
      obtain ⟨y, -, hx⟩ := hwritten.entry table k _ hentry
      have hexists := hexists _ (lastWrite_mem hlast)
      rw [hlast] at hx
      cases ref with
      | module j =>
          cases hx
          rw [hwritten.modules] at hq
          rw [← hq]
          refine ⟨?_, rfl⟩
          simp only [Store.func?, hm, Option.bind_eq_bind, Option.bind_some,
            List.getElem?_eq_getElem hexists, Option.isSome_some]
      | host => cases hx
      | extern_ =>
          cases hx
          exact ⟨Store.EntryLive.keeps (x := .func r i) hexists hkeeps, rfl⟩

/-- After a load that fails, this is so unless it strands a function. -/
theorem Store.Designated.failed_iff {e : LoadError} (ht : t.store.Linked)
    (h : t.store.Designated ws) (hload : loadModule env name wasm t = .error e u) :
    u.store.Designated (ws ++ t.designations env name wasm none) ↔ ¬t.Strands env name wasm := by
  obtain ⟨hwritten, hexists⟩ := loadModule_failed ht hload
  have hfunc : ∀ f, u.store.func? f = t.store.func? f := fun f => by
    rw [func?, func?, module?, module?, hwritten.modules]
  have hinUse : ∀ table, u.store.InUse table ↔ t.store.InUse table := fun table => by
    have hkinds : ∀ kind, u.store.tableOf? kind = t.store.tableOf? kind := fun kind => by
      cases kind <;> simp only [tableOf?, ownedTable?, hostTable?, module?, hostModule?,
        hwritten.modules, hwritten.hostModules]
    simp only [InUse, hkinds, hwritten.modules, hwritten.hostModules]
  constructor
  · rintro hdesignated ⟨table, k, i, huse, hlast⟩
    obtain ⟨x, hx⟩ := Option.isSome_iff_exists.1 (hwritten.covered _ (lastWrite_mem hlast))
    obtain ⟨y, -, hvalue⟩ := hwritten.entry table k x hx
    rw [hlast] at hvalue
    subst hvalue
    -- what has been designated there has no entry
    have hnone := (hdesignated table k _ i ((hinUse table).2 huse) hx).2
    rw [lastWrite_designations, hlast] at hnone
    cases hnone
  · intro hstrands table k q i huse hentry
    have huse := (hinUse table).1 huse
    rw [hfunc, lastWrite_designations]
    cases hlast : lastWrite (t.elementWrites env name wasm) table k with
    | none => exact h.unwritten hwritten (.inl huse) hentry hlast
    | some ref =>
        obtain ⟨y, -, hx⟩ := hwritten.entry table k _ hentry
        obtain ⟨n, hexists⟩ := hexists _ (lastWrite_mem hlast)
        rw [hlast] at hx
        cases ref with
        | module j => exact absurd ⟨table, k, j, huse, hlast⟩ hstrands
        | host => cases hx
        | extern_ =>
            cases hx
            exact ⟨hexists, rfl⟩

theorem TableHistory.reaches {P : LoadTarget → LoadEnv → Name → Reader → Prop}
    {start : LoadTarget} (h : TableHistory P start t ws) : ReflTransGen LoadStep start t := by
  induction h with
  | start => exact .refl
  | loaded _ hload ih => exact ih.tail (.loaded _ _ _ _ hload)
  | failed _ _ hload ih => exact ih.tail (.failed _ _ _ _ hload)

/-- Table entries over histories of loads, from a store whose host has put no wasm functions
into its tables. As long as no load that fails strands a function of its own, every entry for
a wasm function is for a function that exists, the one that an element segment has designated
last. One that strands a function ends that. -/
theorem TableHistory.designated {setup : HostSetup} {store : Store} (code : CodeBuilder)
    (hstore : setup.store = .ok store)
    (hempty : ∀ table k q i, store.InUse table → store.element? table k ≠ some (.func q i)) :
    (∀ t ws, TableHistory (fun t env name wasm => ¬t.Strands env name wasm) ⟨store, code⟩ t ws →
      t.store.Designated ws) ∧
    ∀ t ws env name wasm e u, TableHistory (fun _ _ _ _ => True) ⟨store, code⟩ t ws →
      t.store.Designated ws → loadModule env name wasm t = .error e u →
        (u.store.Designated (ws ++ t.designations env name wasm none) ↔
          ¬t.Strands env name wasm) := by
  have hbounded : ∀ {P t ws}, TableHistory P ⟨store, code⟩ t ws → t.store.Bounded :=
    fun h => LoadTarget.Reachable.bounded ⟨store, code, hstore, h.reaches⟩
  refine ⟨fun t ws h => ?_, fun t ws env name wasm e u h hdesignated hload =>
    hdesignated.failed_iff (hbounded h).linked hload⟩
  induction h with
  | start => exact fun table k q i huse hentry => absurd hentry (hempty table k q i huse)
  | loaded h hload ih => exact ih.loaded (hbounded h) hload
  | failed h hstrands hload ih => exact (ih.failed_iff (hbounded h).linked hload).2 hstrands

/-- The state of two loads: a module with a table, and `other`, which may fail. -/
def tableLoads? (other : List U8) :
    Option (LoadTarget × Except LoadError ModuleRef × LoadTarget) :=
  match loadModule simpleEnv [0x61] (Reader.new (.ofBytes withTable)) ⟨emptyStore, emptyBuilder⟩ with
  | .ok _ t => (loadModule simpleEnv [0x62] (Reader.new (.ofBytes other)) t).result.map (t, ·)
  | _ => none

theorem tableLoads?_eq {other : List U8} {t : LoadTarget} {r : Except LoadError ModuleRef}
    (h : tableLoads? other = some (t, r, u)) :
    (∃ q, loadModule simpleEnv [0x61] (Reader.new (.ofBytes withTable))
      ⟨emptyStore, emptyBuilder⟩ = .ok q t) ∧
    (loadModule simpleEnv [0x62] (Reader.new (.ofBytes other)) t).result = some (r, u) := by
  unfold tableLoads? at h
  split at h
  · next q t' hload =>
    obtain ⟨p, hp, heq⟩ := Option.map_eq_some_iff.1 h
    cases heq
    exact ⟨⟨q, hload⟩, hp⟩
  · cases h

/-- The table of module 0, which has handle 1. -/
theorem Store.InUse.first {s : Store}
    (h : (s.module? 0).bind (fun m => m.table.bind s.tableOf?) = some 1) : s.InUse 1 := by
  obtain ⟨m, hm, htable⟩ := Option.bind_eq_some_iff.1 h
  obtain ⟨kind, hkind, htable⟩ := Option.bind_eq_some_iff.1 htable
  exact .inl ⟨m, List.mem_of_getElem? hm, kind, hkind, htable⟩

/-- The module that writes to the table is loaded. -/
theorem TableHistory.designated_writing : ∃ t ws,
    TableHistory (fun t env name wasm => ¬t.Strands env name wasm) ⟨emptyStore, emptyBuilder⟩
      t ws ∧
    t.store.InUse 1 ∧ t.store.element? 1 0 = some (.func 1 0) ∧ (t.store.func? ⟨1, 0⟩).isSome ∧
    lastWrite ws 1 0 = some (some (.func 1 0)) := by
  have hrun : (tableLoads? writingTable).map (fun p => decide (p.2.1.toOption = some 1 ∧
      p.2.2.store.element? 1 0 = some (.func 1 0) ∧
      (p.2.2.store.module? 0).bind (fun m => m.table.bind p.2.2.store.tableOf?) = some 1)) =
        some true := by decide +kernel
  obtain ⟨⟨t, r, u⟩, hloads, hrun⟩ := Option.map_eq_some_iff.1 hrun
  obtain ⟨hr, hentry, huse⟩ := of_decide_eq_true hrun
  obtain ⟨⟨q, hfirst⟩, hsecond⟩ := tableLoads?_eq hloads
  have huse := Store.InUse.first huse
  cases hload : loadModule simpleEnv [0x62] (Reader.new (.ofBytes writingTable)) t with
  | ok q' v =>
      rw [hload] at hsecond
      cases hsecond
      have hstart : TableHistory (fun t env name wasm => ¬t.Strands env name wasm)
          ⟨emptyStore, emptyBuilder⟩ ⟨emptyStore, emptyBuilder⟩ [] := .start
      have hhistory := (hstart.loaded hfirst).loaded hload
      have hempty : ∀ table k q i, emptyStore.InUse table →
          emptyStore.element? table k ≠ some (.func q i) := by
        rintro table k q i (⟨m, hm, -⟩ | ⟨hm, hhm, -⟩)
        · cases hm
        · cases hhm
      have hstore : emptyHost.store = .ok emptyStore := rfl
      obtain ⟨hlive, hlast⟩ := (TableHistory.designated emptyBuilder hstore hempty).1 _ _ hhistory
        1 0 1 0 huse hentry
      exact ⟨_, _, hhistory, huse, hentry, hlive, hlast⟩
  | error e v =>
      rw [hload] at hsecond
      cases hsecond
      cases hr
  | panic | diverge =>
      rw [hload] at hsecond
      cases hsecond

/-- The load of the module that writes to the table fails at its end, and leaves an entry for
a function of a module that does not exist. -/
theorem TableHistory.stranded : ∃ q t e u,
    loadModule simpleEnv [0x61] (Reader.new (.ofBytes withTable)) ⟨emptyStore, emptyBuilder⟩ =
      .ok q t ∧
    loadModule simpleEnv [0x62] (Reader.new (.ofBytes writingTable.dropLast)) t = .error e u ∧
    u.store.InUse 1 ∧ u.store.element? 1 0 = some (.func 1 0) ∧ u.store.module? 1 = none := by
  have hrun : (tableLoads? writingTable.dropLast).map (fun p => decide (p.2.1.toOption = none ∧
      p.2.2.store.element? 1 0 = some (.func 1 0) ∧ (p.2.2.store.module? 1).isNone ∧
      (p.2.2.store.module? 0).bind (fun m => m.table.bind p.2.2.store.tableOf?) = some 1)) =
        some true := by decide +kernel
  obtain ⟨⟨t, r, u⟩, hloads, hrun⟩ := Option.map_eq_some_iff.1 hrun
  obtain ⟨hr, hentry, hmodule, huse⟩ := of_decide_eq_true hrun
  obtain ⟨⟨q, hfirst⟩, hsecond⟩ := tableLoads?_eq hloads
  cases hload : loadModule simpleEnv [0x62] (Reader.new (.ofBytes writingTable.dropLast)) t with
  | error e v =>
      rw [hload] at hsecond
      cases hsecond
      exact ⟨q, t, e, u, hfirst, hload, .first huse, hentry, Option.isNone_iff_eq_none.1 hmodule⟩
  | ok q' v =>
      rw [hload] at hsecond
      cases hsecond
      cases hr
  | panic | diverge =>
      rw [hload] at hsecond
      cases hsecond

end SpaceWasm
