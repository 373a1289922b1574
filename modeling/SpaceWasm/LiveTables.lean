import SpaceWasm.Interface

/-!
# Live tables

While a module is being loaded, its element segments write its functions to the table under
the reference that it will have. So an entry may designate a function of the module under
construction; once the load has succeeded, every entry designates a function that exists.
Code does not write to tables.
-/

namespace SpaceWasm

open Fallible

variable {s s' : Store} {env : LoadEnv} {u v : LoadState}

/-! ### Stores -/

theorem Store.EntryLive.keeps {x : TableElement} (h : s.EntryLive x) (hs : s.Keeps s') :
    s'.EntryLive x := by
  cases x with
  | uninitialized => trivial
  | host r index => rwa [Store.EntryLive, hs.hostModule?]
  | func r index =>
      obtain ⟨f, hf⟩ := Option.isSome_iff_exists.1 h
      obtain ⟨m, hm, hf⟩ := Option.bind_eq_some_iff.1 hf
      obtain ⟨m', hm', halike⟩ := hs.module r m hm
      have hfunctions : m'.functions = m.functions := by rw [halike.eq]
      change (s'.func? ⟨r, index⟩).isSome
      simp only [Store.func?, hm', Option.bind_eq_bind, Option.bind_some, hfunctions, hf,
        Option.isSome_some]

theorem Store.TablesLive.runs (h : s.TablesLive) (hs : s.Runs s') : s'.TablesLive := by
  intro entries hentries x hx
  rw [hs.tables] at hentries
  exact (h entries hentries x hx).keeps hs.keeps

/-! ### Loads -/

/-- The entry designates a function of the store, or one of the module under construction. -/
def LoadState.EntryLive (u : LoadState) (x : TableElement) : Prop :=
  u.store.EntryLive x ∨ ∃ i : U16, x = .func (BitVec.ofNat 8 u.store.modules.length) i ∧
    i.toNat < u.module.functions.length

theorem LoadState.EntryLive.mono {x : TableElement} (h : u.EntryLive x)
    (hmodules : v.store.modules = u.store.modules)
    (hhost : v.store.hostModules = u.store.hostModules)
    (hle : u.module.functions.length ≤ v.module.functions.length) : v.EntryLive x := by
  rcases h with h | ⟨i, rfl, hi⟩
  · refine .inl ?_
    cases x with
    | uninitialized => trivial
    | host r index =>
        rw [Store.EntryLive, Store.hostModule?, hhost]
        exact h
    | func r index =>
        rw [Store.EntryLive, Store.func?, Store.module?, hmodules]
        exact h
  · exact .inr ⟨i, by rw [hmodules], Nat.lt_of_lt_of_le hi hle⟩

/-- Whatever an element segment writes is live. -/
theorem LoadState.Linked.elementLive (h : u.Linked) {x : Idx} {r : Ref}
    (hr : u.module.getFuncRef x = some r) :
    u.EntryLive (tableElementOf u.store.modules.length r) := by
  obtain ⟨ty, hty⟩ := Option.isSome_iff_exists.1 (h.module.linked.funcs x r hr)
  cases r with
  | module index =>
      obtain ⟨f, hf, -⟩ := Option.bind_eq_some_iff.1 hty
      exact .inr ⟨index, rfl, (List.getElem?_eq_some_iff.1 hf).1⟩
  | host r index =>
      obtain ⟨hm, hhm, hty⟩ := Option.bind_eq_some_iff.1 hty
      obtain ⟨f, hf, -⟩ := Option.bind_eq_some_iff.1 hty
      exact .inl ⟨hm, f, hhm, hf⟩
  | extern_ r index =>
      obtain ⟨m, hm, hty⟩ := Option.bind_eq_some_iff.1 hty
      obtain ⟨f, hf, -⟩ := Option.bind_eq_some_iff.1 hty
      refine .inl ?_
      change (u.store.func? ⟨r, index⟩).isSome
      simp only [Store.func?, hm, Option.bind_eq_bind, Option.bind_some, hf, Option.isSome_some]

/-- A load in front of a section, with live tables. -/
structure LoadState.Live (last : SectionKind) (u : LoadState) : Prop where
  track : u.OnTrack last
  tables : ∀ entries ∈ u.store.tables, ∀ x ∈ entries, u.EntryLive x

theorem LoadState.Live.continues {last : SectionKind} (hu : u.Live last) (h : u.Continues v) :
    v.Live last := by
  refine ⟨hu.track.continues h, fun entries hentries x hx => ?_⟩
  rw [h.store] at hentries
  exact (hu.tables entries hentries x hx).mono (by rw [h.store]) (by rw [h.store])
    (by rw [h.module])

/-- The states of an element section keep what a live state needs. -/
theorem AtElement.within {s₀ : LoadState} (h : AtElement env s₀ u) : s₀.Within .all .element u := by
  obtain ⟨len, t, i, hlen, -, hiterate⟩ := h
  have ht : s₀.Continues t := (Guarded.ok (quiet_decoding decoder_readU32) (.refl s₀) hlen).1
  have hrounds : t.Within .all .element u := (Guarded.ok (InSection.rounds (W := .all) i
    fun _ _ w _ _ => readElement_frame env fun _ _ _ _ _ _ _ _ _ _ _ => trivial) rfl hiterate).1
  exact ht.within.trans hrounds

theorem LoadState.Live.section_ {last kind next : SectionKind} (hu : u.Live last)
    (horder : checkOrder last kind = .ok next) (h : readSectionBody env kind u = .ok () v) :
    v.Live next := by
  have hready : u.Ready kind := hu.track.ready horder
  have hwrites : ∀ size s, decoding readU32 u = .ok size s →
      (s.enter size.toNat).SectionWrites env
        ⟨fun _ _ x => u.EntryLive x, fun _ _ => True⟩ kind := by
    intro size s hsize
    have hs : u.Continues s := (Guarded.ok (quiet_decoding decoder_readU32) (.refl u) hsize).1
    refine ⟨?_, fun _ _ _ _ _ _ _ _ _ _ _ _ => trivial⟩
    rintro rfl t hat table offset len t' - k - - x r hr
    have ht := hat.within
    have hlinked : t.Linked := ht.linked ⟨⟨(hs.linked hready.linked).store,
      (hs.linked hready.linked).module⟩, by simp⟩
    have hmodule : t.module = u.module := (ht.module.eq (.inl rfl)).trans hs.module
    have hstore : (s.enter size.toNat).store = u.store := hs.store
    refine (hlinked.elementLive hr).mono ?_ ?_ (by rw [hmodule])
    · rw [ht.store.modules, hstore]
    · rw [ht.store.hostModules, hstore]
  have hwithin := Guarded.ok (readSectionBody_frame env hwrites) rfl h
  have hlength : u.module.functions.length ≤ v.module.functions.length := by
    by_cases hfunction : kind = .function
    · have hnil : u.module.functions = [] := by
        rcases checkOrder_eq_ok.1 horder with ⟨rfl, -⟩ | ⟨-, hlt, -⟩
        · cases hfunction
        · exact hu.track.fresh (hfunction ▸ hlt)
      rw [hnil]
      exact Nat.zero_le _
    · have hdecls := congrArg List.length (hwithin.module.decls hfunction)
      rw [List.length_map, List.length_map] at hdecls
      exact Nat.le_of_eq hdecls.symm
  have hlive : ∀ x, u.EntryLive x → v.EntryLive x := fun x hx =>
    hx.mono hwithin.store.modules hwithin.store.hostModules hlength
  refine ⟨hu.track.next horder hwithin, fun entries hentries x hx => ?_⟩
  obtain ⟨i, hi⟩ := List.mem_iff_getElem?.1 hentries
  obtain ⟨k, hk⟩ := List.mem_iff_getElem?.1 hx
  cases hold : u.store.tables[i]? with
  | none =>
      rcases hwithin.store.fresh i entries (List.getElem?_eq_none_iff.1 hold) hi k x hk
        with rfl | hw
      · exact .inl trivial
      · exact hlive x hw
  | some old =>
      obtain ⟨entries', hentries', hsame⟩ := hwithin.store.table i old hold
      obtain rfl := Option.some.inj (hi.symm.trans hentries')
      rcases hsame.entry k with heq | ⟨y, hy, hw⟩
      · exact hlive x (hu.tables old (List.mem_of_getElem? hold) x
          (List.mem_of_getElem? (heq.symm.trans hk)))
      · obtain rfl := Option.some.inj (hk.symm.trans hy)
        exact hlive x hw

theorem Module.new_live {t t' : LoadTarget} {m : Module} {name : Name} {wasm : Reader}
    (ht : t.store.Linked) (hlive : t.store.TablesLive) (h : Module.new env name wasm t = .ok m t') :
    ∀ entries ∈ t'.store.tables, ∀ x ∈ entries,
      LoadState.EntryLive ⟨wasm, t'.store, t'.code, m⟩ x := by
  have hstart : (t.start name wasm).Live .custom :=
    ⟨LoadTarget.start_onTrack ht name wasm, fun entries hentries x hx =>
      .inl (hlive entries hentries x hx)⟩
  obtain ⟨next, b, u, hu, rfl, rfl, -⟩ := Module.new_rule (I := fun last _ u => u.Live last)
    (fun hu => hu.continues) (fun hu => hu.section_) hstart h
  exact fun entries hentries x hx => (hu.tables entries hentries x hx).mono rfl rfl (Nat.le_refl _)

/-- After a load that has succeeded, every entry of a table designates a function. -/
theorem loadModule_live {t t' : LoadTarget} {name : Name} {wasm : Reader} {r : ModuleRef}
    (ht : t.store.Bounded) (hlive : t.store.TablesLive)
    (h : loadModule env name wasm t = .ok r t') : t'.store.TablesLive := by
  obtain ⟨m, v, hnew, hgrows, -, hpush, -⟩ := (loadModule_frame env name wasm t .all fun _ _ =>
    LoadState.loadWrites_all _ _ _).ok rfl h
  have hfound := (ht.evolves hgrows.store).module?_push hpush
  have hkeeps := Store.Keeps.push hpush
  obtain ⟨-, hr, hstore⟩ := Store.pushModule_eq_ok.1 hpush
  intro entries hentries x hx
  rw [hstore] at hentries
  rcases Module.new_live ht.linked hlive hnew entries hentries x hx with hx | ⟨i, rfl, hi⟩
  · exact hx.keeps hkeeps
  · rw [hr] at hfound
    change (t'.store.func? ⟨_, i⟩).isSome
    simp only [Store.func?, hfound, Option.bind_eq_bind, Option.bind_some,
      List.getElem?_eq_getElem hi, Option.isSome_some]

/-! ### Calls -/

namespace Capi

variable {η : Type} {floats : FloatOps} {host : HostEnv η} {s t : Session η}

/-- A call that loads no module does to the store what code may do. -/
theorem Call.runs {c : Call η} {a : Answer} (h : c.perform floats host s = some (a, t))
    (hc : ¬c.Loads) : s.engine.store.Runs t.engine.store := by
  cases Call.performs h with
  | loadRefused | loaded | loadFailed => exact absurd trivial hc
  | setGlobalRefused | invokeRefused | runIdle | badValue | reset | asked | outside =>
      exact .refl _
  | setGlobal => exact .setGlobal _ _ _ _
  | @invoked _ _ _ f vs e _ hinvoke =>
      have hstore : e.store = s.engine.store := ((invoke_guarded f vs s.engine).ok rfl hinvoke).2
      exact hstore ▸ .refl _
  | @invokeRejected _ _ _ f vs err e _ hinvoke =>
      obtain ⟨hbeside, -⟩ := (invoke_guarded f vs s.engine).error rfl hinvoke
      have hstore : e.store = s.engine.store := (congrArg Engine.store hbeside :)
      exact hstore ▸ .refl _
  | ran _ hrun => exact (run_continues hrun).runs
  | @resumed _ v e _ hresume =>
      have hbeside := (resume_guarded v s.engine).ok rfl hresume
      have hstore : e.store = s.engine.store := (congrArg Engine.store hbeside :)
      exact hstore ▸ .refl _
  | resumeRejected _ hresume =>
      obtain rfl := Engine.resume_rejected hresume
      exact .refl _

/-- The answer is that a load has begun and has failed. -/
def Answer.Fails : Answer → Bool
  | .loaded (.error e) => e ≠ .wrongState
  | _ => false

theorem Call.bounded (hs : s.engine.store.Bounded) {c : Call η} {a : Answer}
    (h : c.perform floats host s = some (a, t)) : t.engine.store.Bounded := by
  cases Call.performs h with
  | loadRefused => exact hs
  | loaded _ hload => exact LoadStep.bounded (t := s.target) (.loaded _ _ _ _ hload) hs
  | loadFailed _ hload => exact LoadStep.bounded (t := s.target) (.failed _ _ _ _ hload) hs
  | resumed hgives | resumeRejected hgives => exact hs.runs (Call.runs h hgives.not_loads)
  | _ => exact hs.runs (Call.runs h id)

/-- Every call keeps the tables live, a load that fails excepted. -/
theorem Call.tablesLive (hs : s.engine.store.Bounded) (hlive : s.engine.store.TablesLive)
    {c : Call η} {a : Answer} (h : c.perform floats host s = some (a, t)) (ha : ¬a.Fails) :
    t.engine.store.TablesLive := by
  cases Call.performs h with
  | loadRefused => exact hlive
  | loaded _ hload => exact loadModule_live (t := s.target) hs hlive hload
  | loadFailed => exact absurd (decide_eq_true (loadStatus_ne_wrongState _)) ha
  | resumed hgives | resumeRejected hgives => exact hlive.runs (Call.runs h hgives.not_loads)
  | _ => exact hlive.runs (Call.runs h id)

theorem Calls.tablesLive {calls : List (Call η × Answer)} (h : Calls floats host s calls t)
    (hs : s.engine.store.Bounded) (hlive : s.engine.store.TablesLive)
    (ha : ∀ p ∈ calls, ¬p.2.Fails) : t.engine.store.TablesLive := by
  induction h with
  | nil => exact hlive
  | cons hperform _ ih =>
      obtain ⟨hanswer, hanswers⟩ := List.forall_mem_cons.1 ha
      exact ih (Call.bounded hs hperform) (Call.tablesLive hs hlive hperform hanswer) hanswers

end Capi

end SpaceWasm
