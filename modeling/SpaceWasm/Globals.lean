import SpaceWasm.Compartments

/-!
# Globals

A global keeps its type for as long as the engine lives, and an immutable one keeps its
value: the compiler rejects code that would set it, the embedder is refused, and a load adds
globals but touches none that exist.
-/

namespace SpaceWasm

variable {η : Type} {floats : FloatOps} {host : HostEnv η} {s t u : Store}

/-- Every global goes on to exist with its type, an immutable one with its value. -/
def Store.KeepsGlobals (s t : Store) : Prop :=
  ∀ q x g, s.global? q x = some g →
    ∃ g', t.global? q x = some g' ∧ g'.type = g.type ∧ (g.type.mutable = false → g' = g)

namespace Store.KeepsGlobals

theorem refl (s : Store) : s.KeepsGlobals s := fun _ _ g hg => ⟨g, hg, rfl, fun _ => rfl⟩

theorem trans (h : s.KeepsGlobals t) (h' : t.KeepsGlobals u) : s.KeepsGlobals u := by
  intro q x g hg
  obtain ⟨g₁, hg₁, htype, hvalue⟩ := h q x g hg
  obtain ⟨g₂, hg₂, htype', hvalue'⟩ := h' q x g₁ hg₁
  refine ⟨g₂, hg₂, htype'.trans htype, fun hmut => ?_⟩
  rw [hvalue' (htype ▸ hmut), hvalue hmut]

end Store.KeepsGlobals

/-- Code keeps the types of all globals. -/
theorem Store.Runs.keepsGlobals (h : s.Runs t) (himmutable : ∀ q x g, s.global? q x = some g →
    g.type.mutable = false → t.global? q x = s.global? q x) : s.KeepsGlobals t := by
  intro q x g hg
  obtain ⟨m, hm, hx⟩ := Option.bind_eq_some_iff.1 hg
  obtain ⟨m', hm', hsimilar, -⟩ := h.similar hm
  obtain ⟨g', hg', htype⟩ := hsimilar.global hx
  have hfound : t.global? q x = some g' := by
    rw [Store.global?, hm']
    exact hg'
  refine ⟨g', hfound, htype, fun hmut => ?_⟩
  have hsame := himmutable q x g hg hmut
  rw [hfound, hg] at hsame
  exact Option.some.inj hsame

theorem Store.Confined.keepsGlobals {R : ModuleRef → Prop} {P : MemRef → Prop}
    (h : s.Confined R P t) : s.KeepsGlobals t :=
  h.runs.keepsGlobals fun q x g hg hmut => h.globals q x fun r _ hset => by
    obtain ⟨-, -, -, g', -, -, -, hg', hmut'⟩ := hset
    rw [hg] at hg'
    cases hg'
    rw [hmut] at hmut'
    cases hmut'

/-- A load keeps the modules that exist. -/
theorem LoadStep.modules {t t' : LoadTarget} (h : LoadStep t t') :
    t.store.modules <+: t'.store.modules := by
  cases h with
  | loaded env name wasm r hr =>
      obtain ⟨m, v, -, hgrows, -, hpush, -⟩ := (loadModule_frame env name wasm t .all fun _ _ =>
        LoadState.loadWrites_all _ _ _).ok rfl hr
      obtain ⟨-, -, hstore⟩ := Store.pushModule_eq_ok.1 hpush
      rw [hstore, ← hgrows.store.modules]
      exact List.prefix_append _ _
  | failed env name wasm e hr =>
      rw [((loadModule_frame env name wasm t .all fun _ _ =>
        LoadState.loadWrites_all _ _ _).error rfl hr).store.modules]

/-- A load changes no global that exists. -/
theorem LoadStep.global?_eq {t t' : LoadTarget} (h : LoadStep t t') {q : ModuleRef} {x : U16}
    {g : Global} (hg : t.store.global? q x = some g) : t'.store.global? q x = some g := by
  obtain ⟨m, hm, hx⟩ := Option.bind_eq_some_iff.1 hg
  have hm' : t'.store.module? q = some m := by
    obtain ⟨ms, hms⟩ := h.modules
    rw [Store.module?] at hm ⊢
    rw [← hms, List.getElem?_append_left (List.getElem?_eq_some_iff.1 hm).1, hm]
  rw [Store.global?, hm']
  exact hx

theorem LoadStep.keepsGlobals {t t' : LoadTarget} (h : LoadStep t t') :
    t.store.KeepsGlobals t'.store := fun _ _ g hg => ⟨g, h.global?_eq hg, rfl, fun _ => rfl⟩

/-! ### Calls -/

namespace Capi

variable {s t : Session η}

/-- The embedder sets a mutable global, to a value of its type. -/
theorem checkGlobal_eq_ok {store : Store} (hs : store.Linked) {module index : U32}
    {value : CValue} {v : Value} (h : checkGlobal module index value store = .ok v) :
    module.toNat < 2 ^ 8 ∧ index.toNat < 2 ^ 16 ∧
      ∃ g, store.global? (BitVec.ofNat 8 module.toNat) (BitVec.ofNat 16 index.toNat) = some g ∧
        v.type = g.type.ty ∧ g.type.mutable = true := by
  unfold checkGlobal at h
  split at h
  · cases h
  · next m hm =>
    split at h
    · cases h
    · next g hg =>
      split at h
      · cases h
      · split at h
        · cases h
        · next htype =>
          split at h
          · cases h
          · next hmut =>
            cases h
            have hsound := hs.modules m (List.mem_of_getElem? hm)
            have hindex : index.toNat < 2 ^ 16 := Nat.lt_of_lt_of_le
              (List.getElem?_eq_some_iff.1 hg).1 (Nat.le_trans hsound.globals_le (by decide))
            refine ⟨Nat.lt_of_lt_of_le (List.getElem?_eq_some_iff.1 hm).1 hs.modules_le, hindex, g,
              ?_, Decidable.not_not.1 htype, Decidable.not_not.1 hmut⟩
            rw [Store.global?, hs.module?_ofNat hm, toNat_ofNat_of_lt hindex]
            exact hg

theorem keepsGlobals_setGlobal {store : Store} {q : ModuleRef} {x : U16} {g : Global}
    (hg : store.global? q x = some g) (hmut : g.type.mutable = true) (v : RawValue) :
    store.KeepsGlobals (store.setGlobal q x v) := by
  refine (Store.Runs.setGlobal store q x v).keepsGlobals fun q' x' g' hg' hmut' =>
    Store.global?_setGlobal_ne v ?_
  rintro ⟨rfl, rfl⟩
  rw [hg] at hg'
  cases hg'
  rw [hmut] at hmut'
  cases hmut'

theorem Call.keepsGlobals (hs : s.Safe host) {c : Call η} (hc : c.Allowed s) {a : Answer}
    (h : c.perform floats host s = some (a, t)) :
    s.engine.store.KeepsGlobals t.engine.store := by
  by_cases hinside : c.Inside fun _ => True
  · have hin : s.engine.Enclosed s.code fun _ => True :=
      hs.sited.imp_right fun ⟨a, rest, n, hrun⟩ => ⟨a, rest, n, hrun, fun _ _ => trivial⟩
    exact (Call.confines (P := fun _ => True) hs hc hinside (fun _ _ _ _ => trivial) hin
      (fun _ _ _ _ _ _ => trivial) h).1.keepsGlobals
  · cases Call.performs h with
    | loadRefused | setGlobalRefused => exact .refl _
    | loaded _ hload => exact LoadStep.keepsGlobals (t := s.target) (.loaded _ _ _ _ hload)
    | loadFailed _ hload => exact LoadStep.keepsGlobals (t := s.target) (.failed _ _ _ _ hload)
    | setGlobal hcheck =>
        obtain ⟨-, -, g, hg, -, hmut⟩ := checkGlobal_eq_ok hs.bounded.linked hcheck
        exact keepsGlobals_setGlobal hg hmut _
    | resumed hgives | resumeRejected hgives =>
        cases hgives <;> exact absurd trivial hinside
    | _ => exact absurd trivial hinside

theorem Trace.keepsGlobals {calls : List (Call η × Answer)} (h : Trace floats host s calls t)
    (hs : s.Safe host) : s.engine.store.KeepsGlobals t.engine.store := by
  induction h with
  | nil => exact .refl _
  | cons hc hperform _ ih =>
      exact (Call.keepsGlobals hs hc hperform).trans (ih (Call.safe hs hc hperform))

end Capi

/-- Whatever calls follow one another, loads, runs, calls into the engine that it refuses and
calls that set a global among them: a global keeps its type, and an immutable one its value. -/
theorem Capi.Trace.globals_constant {setup : HostSetup} {stackSize : ℕ} {s s' : Session η}
    {calls : List (Call η × Answer)} (hregular : host.Regular setup.hostModules)
    (hsmall : stackSize < 2 ^ 31) (hs : s.Abides setup floats host stackSize)
    (h : Trace floats host s calls s') {q : ModuleRef} {x : U16} {g : Global}
    (hg : s.engine.store.global? q x = some g) :
    ∃ g', s'.engine.store.global? q x = some g' ∧ g'.type = g.type ∧
      (g.type.mutable = false → g' = g) :=
  h.keepsGlobals (hs.safe hregular hsmall) q x g hg

/-- The embedder tries to set an immutable global. -/
theorem Capi.Trace.globals_constant_settingGlobal : ∃ s calls s' g,
    emptySession.load? [0x61] settingGlobal = some s ∧
    replay .none .quiet [.setGlobal 0 0 (.fromValue (.i32 7)), .invoke 0 0 [], .run 9] s =
      some (calls, s') ∧
    s.engine.store.global? 0 0 = some g ∧ g.type.mutable = false ∧
    ∃ g', s'.engine.store.global? 0 0 = some g' ∧ g'.type = g.type ∧
      (g.type.mutable = false → g' = g) := by
  have hrun : ((emptySession.load? [0x61] settingGlobal).bind fun s =>
      (replay .none .quiet [.setGlobal 0 0 (.fromValue (.i32 7)), .invoke 0 0 [], .run 9] s).bind
        fun _ => (s.engine.store.global? 0 0).map fun g => g.type.mutable) = some false := by
    decide +kernel
  obtain ⟨s, h₀, hrun⟩ := Option.bind_eq_some_iff.1 hrun
  obtain ⟨⟨calls, s'⟩, h₁, hrun⟩ := Option.bind_eq_some_iff.1 hrun
  obtain ⟨g, hg, hmut⟩ := Option.map_eq_some_iff.1 hrun
  exact ⟨s, calls, s', g, h₀, h₁, hg, hmut, Capi.Trace.globals_constant quiet_regular (by decide)
    (emptySession_abides.step (.free rfl (Session.load?_step h₀))) (replay_trace h₁) hg⟩

end SpaceWasm
