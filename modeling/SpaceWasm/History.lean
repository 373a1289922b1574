import Mathlib.Logic.Relation
import SpaceWasm.LoadRun

/-!
# Histories of loads

A store starts with its host modules and grows by load steps: a module is decoded
and, if that has succeeded, pushed. Either may fail, and a failed step leaves
behind whatever it has done so far. Every store that such a history leads to is
linked, so that no later load panics.
-/

namespace SpaceWasm

open Fallible Relation

/-- The host modules that a store is made from, with the memories and the tables
they hold handles to. An index of a host module has eight bits, that of a symbol
sixteen. -/
structure HostSetup where
  maxModules : ℕ
  hostModules : List HostModule
  memories : List Memory
  tables : List (List TableElement)
  hostModules_le : hostModules.length ≤ 256
  functions_le : ∀ hm ∈ hostModules, hm.functions.length ≤ 2 ^ 16
  globals_le : ∀ hm ∈ hostModules, hm.globals.length ≤ 2 ^ 16
  memory_le : ∀ hm ∈ hostModules, hm.memory.length ≤ 2 ^ 16
  table_le : ∀ hm ∈ hostModules, hm.table.length ≤ 2 ^ 16
  memory : ∀ hm ∈ hostModules, ∀ sym ∈ hm.memory, sym.value < memories.length
  table : ∀ hm ∈ hostModules, ∀ sym ∈ hm.table, sym.value < tables.length

def HostSetup.store (host : HostSetup) : Except AllocError Store :=
  Store.fromHostModules host.maxModules host.hostModules host.memories host.tables

/-- One load step, which succeeds or fails. -/
inductive LoadStep (t t' : LoadTarget) : Prop where
  | loaded (env : LoadEnv) (name : Name) (wasm : Reader) (r : ModuleRef) :
      loadModule env name wasm t = .ok r t' → LoadStep t t'
  | failed (env : LoadEnv) (name : Name) (wasm : Reader) (e : LoadError) :
      loadModule env name wasm t = .error e t' → LoadStep t t'

/-- A history of load steps over the store of some host modules leads to `t`. -/
def LoadTarget.Reachable (host : HostSetup) (t : LoadTarget) : Prop :=
  ∃ store code, host.store = .ok store ∧ ReflTransGen LoadStep ⟨store, code⟩ t

/-! ### One step -/

/-- A footprint without restrictions. -/
def Footprint.all : Footprint := ⟨fun _ _ _ => True, fun _ _ => True⟩

theorem LoadState.sectionWrites_all (env : LoadEnv) (kind : SectionKind) (s : LoadState) :
    s.SectionWrites env .all kind :=
  ⟨fun _ _ _ _ _ _ _ _ _ _ _ _ _ _ => trivial, fun _ _ _ _ _ _ _ _ _ _ _ _ => trivial⟩

theorem LoadState.loadWrites_all (env : LoadEnv) (last : SectionKind) (s : LoadState) :
    s.LoadWrites env .all last :=
  fun kind s _ => sectionWrites_all env kind s

theorem readSectionBody_advances {env : LoadEnv} {kind : SectionKind} {s t : LoadState}
    (h : readSectionBody env kind s = .ok () t) : s.wasm.Advances t.wasm :=
  (Guarded.ok (readSectionBody_frame (W := .all) env fun _ _ _ =>
    LoadState.sectionWrites_all env kind _) rfl h).wasm

theorem advances_sectionKind {kind : SectionKind} {s t : LoadState}
    (h : decoding SectionKind.read s = .ok kind t) : s.wasm.Advances t.wasm :=
  (Guarded.ok (quiet_decoding decoder_sectionKind) (.refl s) h).1.wasm

/-- A memory that a loaded module owns is a new one. -/
theorem Module.new_owned {env : LoadEnv} {name : Name} {wasm : Reader} {t u : LoadTarget}
    {m : Module} (h : Module.new env name wasm t = .ok m u) {mem : MemRef}
    (hmem : m.memory = some (.owned mem)) : t.store.memories.length ≤ mem := by
  have hrun := Module.read_frame (W := .all) env name
    (fun s _ => LoadState.loadWrites_all env _ s) (t.start name wasm) rfl
  unfold Module.new at h
  unfold LoadTarget.start at hrun
  cases hr : Module.read env name ⟨wasm, t.store, t.code, Module.empty name⟩ <;>
    rw [hr] at h hrun <;> cases h
  obtain ⟨hfollows, rfl⟩ := hrun
  obtain hempty | hle := hfollows.owns mem hmem
  · cases hempty
  · exact hle

section Push

variable {s s' : Store} {m : Module} {r : ModuleRef}

theorem Store.pushModule_eq_ok :
    s.pushModule m = .ok (r, s') ↔ s.modules.length < s.maxModules ∧
      r = BitVec.ofNat 8 s.modules.length ∧ s' = { s with modules := s.modules ++ [m] } := by
  unfold Store.pushModule
  split
  · next hlt => simp [hlt, eq_comm]
  · next hge => simp [hge]

theorem Store.Keeps.push (h : s.pushModule m = .ok (r, s')) : s.Keeps s' := by
  obtain ⟨-, -, rfl⟩ := Store.pushModule_eq_ok.1 h
  refine ⟨fun i em hem => ⟨em, ?_, .refl em⟩, rfl, Nat.le_refl _, Nat.le_refl _, fun _ _ h => h⟩
  rw [Store.module?] at hem ⊢
  rw [List.getElem?_append_left (List.getElem?_eq_some_iff.1 hem).1, hem]

/-- A store within its capacity. -/
structure Store.Bounded (s : Store) : Prop where
  linked : s.Linked
  modules_le : s.modules.length ≤ s.maxModules
  maxModules_le : s.maxModules ≤ 256

theorem Store.Bounded.push (hs : s.Bounded) (hm : m.Sound s) (h : s.pushModule m = .ok (r, s')) :
    s'.Bounded := by
  have hkeeps := Store.Keeps.push h
  obtain ⟨hlt, -, rfl⟩ := Store.pushModule_eq_ok.1 h
  have hmax := hs.maxModules_le
  have hlength : (s.modules ++ [m]).length ≤ s.maxModules := by
    rw [List.length_append, List.length_singleton]
    exact hlt
  refine ⟨⟨Nat.le_trans hlength hmax, hs.linked.hostModules_le, fun em hem => ?_, fun hm hhm =>
    (hs.linked.hostModules hm hhm).keeps hkeeps, hs.linked.zeroMemory, hs.linked.zeroTable⟩,
    hlength, hmax⟩
  rcases List.mem_append.1 hem with hem | hem
  · exact (hs.linked.modules em hem).keeps hkeeps
  · rw [List.mem_singleton.1 hem]
    exact hm.keeps hkeeps

/-- The new module is found under its reference. -/
theorem Store.Bounded.module?_push (hs : s.Bounded) (h : s.pushModule m = .ok (r, s')) :
    s'.module? r = some m := by
  obtain ⟨hlt, rfl, rfl⟩ := Store.pushModule_eq_ok.1 h
  have hmax := hs.maxModules_le
  rw [Store.module?, toNat_ofNat_of_lt (by omega), List.getElem?_append_right (Nat.le_refl _)]
  simp

end Push

theorem Store.Bounded.evolves {W : Footprint} {s t : Store} (hs : s.Bounded) (h : s.Evolves W t) :
    t.Bounded := by
  refine ⟨hs.linked.evolves h, ?_, ?_⟩
  · rw [h.modules, h.maxModules]
    exact hs.modules_le
  · rw [h.maxModules]
    exact hs.maxModules_le

/-- How a load step goes: the target grows, and a module is pushed if all went well. -/
theorem loadModule_frame (env : LoadEnv) (name : Name) (wasm : Reader) (t : LoadTarget)
    (W : Footprint)
    (hW : ∀ s, readHeader name (t.start name wasm) = .ok () s → s.LoadWrites env W .custom) :
    Guarded t.store.Linked (fun u => u = t) (loadModule env name wasm)
      (fun r u => ∃ m v, Module.new env name wasm t = .ok m v ∧ t.Grows W v ∧
        (t.store.Linked → m.Sound v.store) ∧ v.store.pushModule m = .ok (r, u.store) ∧
          u.code = v.code)
      fun _ u => t.Grows W u := by
  refine Guarded.bind_run (Guarded.mapError (Module.new_frame env name wasm t hW) fun _ _ h => h)
    fun m v hr hv => ?_
  rintro _ rfl
  rw [bind_of_ok (get_apply _)]
  cases hpush : Store.pushModule _ m with
  | ok p => exact ⟨m, _, mapError_eq_ok.1 hr, hv.1, hv.2, hpush, rfl⟩
  | error e => exact hv.1

theorem loadModule_not_linked {env : LoadEnv} {name : Name} {wasm : Reader} {t : LoadTarget}
    (h : loadModule env name wasm t = .panic) : ¬t.store.Linked := fun hlinked =>
  (loadModule_frame env name wasm t .all fun _ _ => LoadState.loadWrites_all _ _ _).ne_panic
    hlinked rfl h

theorem loadModule_ne_diverge (env : LoadEnv) (name : Name) (wasm : Reader) (t : LoadTarget) :
    loadModule env name wasm t ≠ .diverge :=
  (loadModule_frame env name wasm t .all fun _ _ => LoadState.loadWrites_all _ _ _).ne_diverge rfl

/-! ### Histories -/

theorem HostSetup.bounded {host : HostSetup} {store : Store} (h : host.store = .ok store) :
    store.Bounded := by
  unfold HostSetup.store Store.fromHostModules at h
  split at h
  · cases h
  · next hle =>
    cases h
    refine ⟨⟨Nat.zero_le _, host.hostModules_le, nofun, fun hm hhm => ?_, ?_, ?_⟩, Nat.zero_le _,
      Nat.le_of_not_lt hle⟩
    · refine ⟨host.globals_le hm hhm, host.functions_le hm hhm, host.memory_le hm hhm,
        host.table_le hm hhm, fun sym hsym => ?_, fun sym hsym => ?_⟩
      · exact Nat.lt_of_lt_of_le (host.memory hm hhm sym hsym) (by simp)
      · exact Nat.lt_of_lt_of_le (host.table hm hhm sym hsym) (by simp)
    · simp
    · simp

theorem LoadStep.bounded {t t' : LoadTarget} (h : LoadStep t t') (ht : t.store.Bounded) :
    t'.store.Bounded := by
  cases h with
  | loaded env name wasm r hr =>
      have hrun := (loadModule_frame env name wasm t .all fun _ _ =>
        LoadState.loadWrites_all _ _ _).ok
        rfl hr
      obtain ⟨m, v, -, hv, hm, hpush, -⟩ := hrun
      exact (ht.evolves hv.store).push (hm ht.linked) hpush
  | failed env name wasm e hr =>
      have hrun := (loadModule_frame env name wasm t .all fun _ _ =>
        LoadState.loadWrites_all _ _ _).error
        rfl hr
      exact ht.evolves hrun.store

theorem LoadTarget.Reachable.bounded {host : HostSetup} {t : LoadTarget} (h : t.Reachable host) :
    t.store.Bounded := by
  obtain ⟨store, code, hstore, hsteps⟩ := h
  induction hsteps with
  | refl => exact HostSetup.bounded hstore
  | tail _ hstep ih => exact hstep.bounded ih

end SpaceWasm
