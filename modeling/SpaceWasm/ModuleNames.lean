import Mathlib.Data.List.Nodup
import SpaceWasm.History
import SpaceWasm.Resolution

/-!
# Module names

A load rejects a name that another module already has, unless it is empty: modules
without a name are not told apart, on the ground that they cannot be imported. So
every other name has one module at most, over all histories of loads. But the link
functions compare names without that exception, and an import whose module name is
empty finds the unnamed modules.
-/

namespace SpaceWasm

open Fallible Relation

/-- A module that imports can be resolved in, by its position. -/
inductive Provider where
  | host (mi : ℕ)
  | wasm (mi : ℕ)
  deriving DecidableEq

/-- The module has the name. -/
def Store.Answers (s : Store) (name : Name) : Provider → Prop
  | .host mi => ∃ hm, s.hostModules[mi]? = some hm ∧ hm.name = name
  | .wasm mi => ∃ m, s.modules[mi]? = some m ∧ m.name = name

/-- The module exports the entity of an entry, with the name and the type asked for. -/
def Store.Exports (s : Store) (types : List FuncType) (name : Name) (desc : ImportDesc)
    (j : Import) : Provider → Prop
  | .host mi => ∃ i, j = desc.hostEntry mi i ∧ s.HostOffers types name mi i desc
  | .wasm mi => ∃ em d, s.modules[mi]? = some em ∧ ⟨name, d⟩ ∈ em.exports ∧
      em.exportEntry mi d = some j ∧ j.Matches s types desc

/-- The first unnamed module with an export of the name exports what is asked for. -/
def Store.UnnamedOffers (s : Store) (types : List FuncType) (name : Name) (desc : ImportDesc) :
    Prop :=
  ∃ mi em d j, s.findExport [] name = some (mi, em, d) ∧ em.exportEntry mi d = some j ∧
    j.Matches s types desc

/-! ### The invariant -/

/-- No two modules share a name, unless it is empty, and no host module has that. -/
structure Store.Named (s : Store) : Prop where
  modules_le : s.modules.length ≤ s.maxModules
  maxModules_le : s.maxModules ≤ 256
  hosts : ∀ hm ∈ s.hostModules, hm.name ≠ []
  unique : ∀ name p q, name ≠ [] → s.Answers name p → s.Answers name q → p = q

variable {s s' : Store} {m : Module} {r : ModuleRef}

theorem Store.Named.evolves {W : Footprint} (hs : s.Named) (h : s.Evolves W s') : s'.Named := by
  have hanswers : ∀ name p, s'.Answers name p ↔ s.Answers name p := by
    intro name p
    cases p <;> simp only [Answers, h.hostModules, h.modules]
  refine ⟨?_, ?_, ?_, fun name p q hname hp hq => ?_⟩
  · rw [h.modules, h.maxModules]
    exact hs.modules_le
  · rw [h.maxModules]
    exact hs.maxModules_le
  · rw [h.hostModules]
    exact hs.hosts
  · exact hs.unique name p q hname ((hanswers name p).1 hp) ((hanswers name q).1 hq)

/-- A name that passes the check is empty, or no module of the store has it. -/
theorem checkName_eq_ok {name : Name} :
    checkName name s = .ok () ↔ name = [] ∨ ∀ p, ¬s.Answers name p := by
  have hanswers : (∃ p, s.Answers name p) ↔
      s.modules.any (fun m => m.name = name) ∨ s.hostModules.any (fun m => m.name = name) := by
    simp only [List.any_eq_true, decide_eq_true_eq, List.mem_iff_getElem?]
    constructor
    · rintro ⟨p | p, m, hm, hname⟩
      · exact Or.inr ⟨m, ⟨p, hm⟩, hname⟩
      · exact Or.inl ⟨m, ⟨p, hm⟩, hname⟩
    · rintro (⟨m, ⟨mi, hm⟩, hname⟩ | ⟨hm, ⟨mi, hhm⟩, hname⟩)
      · exact ⟨.wasm mi, m, hm, hname⟩
      · exact ⟨.host mi, hm, hhm, hname⟩
  rw [← not_exists, hanswers]
  unfold checkName
  split
  · next h => exact iff_of_false nofun fun hor => hor.elim h.1 fun hnot => hnot h.2
  · next h => exact iff_of_true rfl (by rwa [not_and_or, not_not] at h)

theorem Store.Named.push (hs : s.Named) (hm : checkName m.name s = .ok ())
    (h : s.pushModule m = .ok (r, s')) : s'.Named := by
  obtain ⟨hlt, -, rfl⟩ := Store.pushModule_eq_ok.1 h
  -- A module of the longer list is the new one or was there before.
  have hcases : ∀ {name : Name} {p : Provider},
      Answers { s with modules := s.modules ++ [m] } name p →
        s.Answers name p ∨ p = .wasm s.modules.length ∧ m.name = name := by
    rintro name (mi | mi) hp
    · exact Or.inl hp
    · obtain ⟨em, hem, hname⟩ := hp
      by_cases hmi : mi < s.modules.length
      · exact Or.inl ⟨em, (List.getElem?_append_left hmi).symm.trans hem, hname⟩
      · have hle := (List.getElem?_eq_some_iff.1 hem).1
        simp only [List.length_append, List.length_singleton] at hle
        obtain rfl : mi = s.modules.length := by omega
        rw [List.getElem?_concat_length, Option.some.injEq] at hem
        exact Or.inr ⟨rfl, by rw [hem, hname]⟩
  refine ⟨?_, hs.maxModules_le, hs.hosts, fun name p q hname hp hq => ?_⟩
  · rw [List.length_append, List.length_singleton]
    exact hlt
  · have hfresh : ∀ {p}, m.name = name → ¬s.Answers name p := by
      rintro p rfl
      exact (checkName_eq_ok.1 hm).resolve_left hname p
    rcases hcases hp with hp | ⟨rfl, hpn⟩ <;> rcases hcases hq with hq | ⟨rfl, hqn⟩
    · exact hs.unique name p q hname hp hq
    · exact absurd hp (hfresh hqn)
    · exact absurd hq (hfresh hpn)
    · rfl

/-! ### Loads -/

theorem readSections_name {env : LoadEnv} {fuel : ℕ} {last : SectionKind} {seenCode b : Bool}
    {s t : LoadState} (h : readSections env fuel last seenCode s = .ok b t) :
    t.module.name = s.module.name := by
  induction fuel generalizing last seenCode s with
  | zero => cases h
  | succ fuel ih =>
      have hkind := (quiet_decoding decoder_sectionKind : Quiet s _ _) s (.refl s)
      unfold readSections at h
      cases hr : decoding SectionKind.read s with
      | error e u =>
          rw [hr] at h hkind
          cases e <;> cases h
          rw [hkind.module]
      | panic =>
          rw [hr] at h
          cases h
      | diverge =>
          rw [hr] at h
          cases h
      | ok kind u =>
          rw [hr] at h hkind
          obtain ⟨next, v, hnext, h⟩ := bind_eq_ok.1 h
          obtain ⟨-, rfl⟩ := ofExcept_eq_ok.1 (mapError_eq_ok.1 hnext)
          obtain ⟨_, w, hbody, h⟩ := bind_eq_ok.1 h
          have hwithin := (readSectionBody_frame env fun size w _ =>
            LoadState.sectionWrites_all env kind _).ok rfl hbody
          rw [ih h, hwithin.module.name, hkind.1.module]

theorem plain_store {n : ℕ} {bs : List U8} {s t : LoadState}
    (h : plain (decoding (stripBytes n)) s = .ok bs t) : t.store = s.store := by
  obtain ⟨r, -, rfl⟩ := zoom_eq_ok.1 (mapError_eq_ok.1 h)
  rfl

/-- A module that is loaded has the name it is loaded with, which passed the check. -/
theorem Module.new_name {env : LoadEnv} {name : Name} {wasm : Reader} {t u : LoadTarget}
    (h : Module.new env name wasm t = .ok m u) :
    m.name = name ∧ checkName name t.store = .ok () := by
  obtain ⟨w, b, x, hheader, hsections, -, rfl, rfl⟩ := Module.new_eq_ok h
  have hcontinues := (readHeader_frame name).ok rfl hheader
  constructor
  · rw [readSections_name hsections, hcontinues.module]
    rfl
  · unfold readHeader at hheader
    obtain ⟨magic, u₁, hmagic, hheader⟩ := bind_eq_ok.1 hheader
    split at hheader
    · cases hheader
    · obtain ⟨version, u₂, hversion, hheader⟩ := bind_eq_ok.1 hheader
      split at hheader
      · cases hheader
      · rw [bind_of_ok (get_apply _)] at hheader
        obtain ⟨_, u₃, hcheck, -⟩ := bind_eq_ok.1 hheader
        have hstore : u₂.store = t.store := by
          rw [(plain_store hversion), plain_store hmagic]
          rfl
        rw [← hstore]
        exact (ofExcept_eq_ok.1 (mapError_eq_ok.1 hcheck)).1

theorem Store.Named.loadStep {t t' : LoadTarget} (hs : t.store.Named) (h : LoadStep t t') :
    t'.store.Named := by
  have hW := fun (env : LoadEnv) (name : Name) (wasm : Reader) =>
    loadModule_frame env name wasm t .all fun _ _ => LoadState.loadWrites_all _ _ _
  cases h with
  | loaded env name wasm r hr =>
      obtain ⟨m, v, hnew, hgrows, -, hpush, -⟩ := (hW env name wasm).ok rfl hr
      obtain ⟨rfl, hcheck⟩ := Module.new_name hnew
      refine (hs.evolves hgrows.store).push ?_ hpush
      rw [checkName, hgrows.store.modules, hgrows.store.hostModules]
      exact hcheck
  | failed env name wasm e hr => exact hs.evolves ((hW env name wasm).error rfl hr).store

theorem Store.Named.loads {t t' : LoadTarget} (hs : t.store.Named)
    (h : ReflTransGen LoadStep t t') : t'.store.Named := by
  induction h with
  | refl => exact hs
  | tail _ hstep ih => exact ih.loadStep hstep

theorem Store.named_fromHostModules {maxModules : ℕ} {hostModules : List HostModule}
    {memories : List Memory} {tables : List (List TableElement)}
    (h : Store.fromHostModules maxModules hostModules memories tables = .ok s)
    (hnames : ∀ hm ∈ hostModules, hm.name ≠ [])
    (hdistinct : (hostModules.map HostModule.name).Nodup) : s.Named := by
  unfold Store.fromHostModules at h
  split at h
  · cases h
  · next hle =>
    cases h
    refine ⟨Nat.zero_le _, Nat.le_of_not_lt hle, hnames, ?_⟩
    rintro name (p | p) (q | q) - ⟨hm, hhm, hp⟩ ⟨hm', hhm', hq⟩
    · have hlt : p < hostModules.length := (List.getElem?_eq_some_iff.1 hhm).1
      have hname : (hostModules.map HostModule.name)[p]? = some name := by
        rw [List.getElem?_map, hhm, Option.map_some, hp]
      have hname' : (hostModules.map HostModule.name)[q]? = some name := by
        rw [List.getElem?_map, hhm', Option.map_some, hq]
      rw [(List.getElem?_inj (by rwa [List.length_map]) hdistinct).1 (hname.trans hname'.symm)]
    · cases hhm'
    · cases hhm
    · cases hhm

/-! ### Imports -/

/-- The import is resolved, to an entity that the module `p` exports. -/
def Store.Resolves (s : Store) (m : Module) (moduleName name : Name) (desc : ImportDesc)
    (j : Import) (p : Provider) : Prop :=
  linkImport m moduleName name desc s () = .ok j () ∧ s.Answers moduleName p ∧
    s.Exports m.types name desc j p

section Imports

variable {moduleName name : Name} {desc : ImportDesc} {j : Import}

/-- A resolved import is an entity that a module of the given name exports. -/
theorem Store.Named.exists_resolves (hs : s.Named)
    (h : linkImport m moduleName name desc s () = .ok j ()) :
    ∃ p, s.Resolves m moduleName name desc j p := by
  cases hhost : s.hostLookup moduleName name desc with
  | some found =>
      obtain ⟨mi, i⟩ := found
      obtain ⟨hentry, hoffers⟩ := (linkImport_host hhost).1 h
      obtain ⟨hm, hhm, hname⟩ := Store.hostLookup_name hhost
      exact ⟨.host mi, h, ⟨hm, hhm, hname⟩, i, hentry, hoffers⟩
  | none =>
      have hle := Nat.le_trans hs.modules_le hs.maxModules_le
      obtain ⟨mi, em, d, hexport, hentry, hmatches⟩ := (linkImport_export hle hhost).1 h
      obtain ⟨hem, hname, hmem⟩ := Store.findExport_some hexport
      exact ⟨.wasm mi, h, ⟨em, hem, hname⟩, em, d, hem, hmem, hentry, hmatches⟩

/-- No host symbol answers an import without a module name. -/
theorem Store.Named.hostLookup_nil (hs : s.Named) : s.hostLookup [] name desc = none := by
  cases hhost : s.hostLookup [] name desc with
  | none => rfl
  | some found =>
      obtain ⟨hm, hhm, hname⟩ := Store.hostLookup_name hhost
      exact absurd hname (hs.hosts hm (List.mem_of_getElem? hhm))

/-- The imports without a module name are those that unnamed modules answer. -/
theorem Store.Named.linkImport_nil (hs : s.Named) :
    (∃ j, linkImport m [] name desc s () = .ok j ()) ↔ s.UnnamedOffers m.types name desc := by
  have hle := Nat.le_trans hs.modules_le hs.maxModules_le
  simp only [linkImport_export hle hs.hostLookup_nil, UnnamedOffers]
  constructor
  · rintro ⟨j, mi, em, d, h⟩
    exact ⟨mi, em, d, j, h⟩
  · rintro ⟨mi, em, d, j, h⟩
    exact ⟨j, mi, em, d, h⟩

end Imports

/-- Over any history of loads, a name that is not empty has one module at most, and
an import is an entity that a module of its module name exports. It is an entity of
an unnamed module exactly if its module name is empty and the first unnamed module
that exports the name exports what is asked for. -/
theorem Store.names_resolve {maxModules : ℕ} {hostModules : List HostModule}
    {memories : List Memory} {tables : List (List TableElement)} {store : Store}
    {code : CodeBuilder} {t : LoadTarget}
    (hstore : Store.fromHostModules maxModules hostModules memories tables = .ok store)
    (hnames : ∀ hm ∈ hostModules, hm.name ≠ [])
    (hdistinct : (hostModules.map HostModule.name).Nodup)
    (hsteps : ReflTransGen LoadStep ⟨store, code⟩ t) :
    (∀ name p q, name ≠ [] → t.store.Answers name p → t.store.Answers name q → p = q) ∧
      ∀ (m : Module) (moduleName name : Name) (desc : ImportDesc),
        (∀ j, linkImport m moduleName name desc t.store () = .ok j () →
          ∃ p, t.store.Resolves m moduleName name desc j p) ∧
        ((∀ j p, t.store.Resolves m moduleName name desc j p → ¬t.store.Answers [] p) ↔
          moduleName ≠ [] ∨ ¬t.store.UnnamedOffers m.types name desc) := by
  have hs : t.store.Named := (Store.named_fromHostModules hstore hnames hdistinct).loads hsteps
  refine ⟨hs.unique, fun m moduleName name desc => ⟨fun j => hs.exists_resolves, ?_⟩⟩
  constructor
  · intro hnot
    by_cases hname : moduleName = []
    · subst hname
      refine Or.inr fun hoffers => ?_
      obtain ⟨j, hlink⟩ := hs.linkImport_nil.2 hoffers
      obtain ⟨p, hp⟩ := hs.exists_resolves hlink
      exact hnot j p hp hp.2.1
    · exact Or.inl hname
  · rintro hwhen j p ⟨hlink, hanswers, -⟩ hnil
    have hname : moduleName = [] := by
      cases p with
      | host | wasm =>
          obtain ⟨em, hem, rfl⟩ := hanswers
          obtain ⟨em', hem', hname⟩ := hnil
          rw [hem, Option.some.injEq] at hem'
          rw [hem', hname]
    subst hname
    exact hwhen.elim (fun h => h rfl) fun h => h (hs.linkImport_nil.1 ⟨j, hlink⟩)

/-- A module that exports a function without parameters and results as `f`. -/
def exporter : List U8 :=
  [0x00, 0x61, 0x73, 0x6D, 0x01, 0x00, 0x00, 0x00, 0x01, 0x04, 0x01, 0x60, 0x00, 0x00, 0x03, 0x02,
    0x01, 0x00, 0x07, 0x05, 0x01, 0x01, 0x66, 0x00, 0x00, 0x0A, 0x04, 0x01, 0x02, 0x00, 0x0B]

/-- A module that imports such a function, with an empty module name. -/
def importer : List U8 :=
  [0x00, 0x61, 0x73, 0x6D, 0x01, 0x00, 0x00, 0x00, 0x01, 0x04, 0x01, 0x60, 0x00, 0x00, 0x02, 0x06,
    0x01, 0x00, 0x01, 0x66, 0x00, 0x00]

theorem exporter_named :
    ∃ r t, loadModule simpleEnv [0x61] (Reader.new (.ofBytes exporter)) ⟨emptyStore, emptyBuilder⟩ =
        .ok r t ∧
      (∀ name p q, name ≠ [] → t.store.Answers name p → t.store.Answers name q → p = q) ∧
      ∀ (m : Module) (moduleName name : Name) (desc : ImportDesc),
        (∀ j, linkImport m moduleName name desc t.store () = .ok j () →
          ∃ p, t.store.Resolves m moduleName name desc j p) ∧
        ((∀ j p, t.store.Resolves m moduleName name desc j p → ¬t.store.Answers [] p) ↔
          moduleName ≠ [] ∨ ¬t.store.UnnamedOffers m.types name desc) := by
  have hok : (loadModule simpleEnv [0x61] (Reader.new (.ofBytes exporter))
    ⟨emptyStore, emptyBuilder⟩).isOk = true := by decide +kernel
  obtain ⟨r, t, hload⟩ := Outcome.isOk_iff.1 hok
  have hstore : Store.fromHostModules 8 [] [] [] = .ok emptyStore := rfl
  exact ⟨r, t, hload, Store.names_resolve hstore nofun .nil (.single (.loaded _ _ _ _ hload))⟩

/-- The module that makes this import, in front of its import section. -/
def importing : Module := { Module.empty [0x62] with types := [⟨[], []⟩] }

theorem exporter_importer :
    (match loadModule simpleEnv [] (Reader.new (.ofBytes exporter)) ⟨emptyStore, emptyBuilder⟩ with
    | .ok _ t => (loadModule simpleEnv [0x62] (Reader.new (.ofBytes importer)) t).isOk &&
        (linkImport importing [] [0x66] (.func 0) t.store ()).isOk
    | _ => false) = true := by decide +kernel

/-- A module loaded without a name answers an import, which a second load links. -/
theorem exporter_unnamed :
    ∃ r t, loadModule simpleEnv [] (Reader.new (.ofBytes exporter)) ⟨emptyStore, emptyBuilder⟩ =
        .ok r t ∧
      (∃ r' t', loadModule simpleEnv [0x62] (Reader.new (.ofBytes importer)) t = .ok r' t') ∧
      ∃ j p, t.store.Resolves importing [] [0x66] (.func 0) j p ∧ t.store.Answers [] p := by
  have hok : (loadModule simpleEnv [] (Reader.new (.ofBytes exporter))
    ⟨emptyStore, emptyBuilder⟩).isOk = true := by decide +kernel
  have hnext := exporter_importer
  obtain ⟨r, t, hload⟩ := Outcome.isOk_iff.1 hok
  rw [hload, Bool.and_eq_true, Outcome.isOk_iff, Outcome.isOk_iff] at hnext
  obtain ⟨himporter, j, _, hlink⟩ := hnext
  have hstore : Store.fromHostModules 8 [] [] [] = .ok emptyStore := rfl
  have hnamed : t.store.Named :=
    (Store.named_fromHostModules hstore nofun .nil).loadStep (.loaded _ _ _ _ hload)
  obtain ⟨p, hp⟩ := hnamed.exists_resolves hlink
  exact ⟨r, t, hload, himporter, j, p, hp, hp.2.1⟩

end SpaceWasm
