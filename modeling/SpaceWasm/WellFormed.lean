import SpaceWasm.Interface

/-!
# Well-formed modules

What the loader accepts is well formed, and stays so whatever happens afterwards: a module
exports no name twice, every export stands for an entity that exists, and the start function
is code without parameters and results. So asking for the start function never
panics.
-/

namespace SpaceWasm

open Fallible Relation

variable {η : Type} {floats : FloatOps} {host : HostEnv η} {env : LoadEnv}
  {m m' : Module} {s s' : Store} {u v : LoadState}

/-- What an export stands for is there. -/
def Module.Offers (m : Module) (s : Store) : ExportDesc → Prop
  | .func i => ∃ r ty, m.getFuncRef i = some r ∧ s.refFuncType? m r = some ty
  | .table i => i = 0 ∧ ∃ kind t, m.table = some kind ∧ s.tableOf? kind = some t ∧
      t < s.tables.length
  | .mem i => i = 0 ∧ ∃ kind mem, m.memory = some kind ∧ s.memoryOf? kind = some mem ∧
      mem < s.memories.length
  | .global i => ∃ r x, m.getGlobalRef i = some r ∧ s.refGlobal? m r = some x

/-- The start function is code without parameters and results. -/
def Module.Starts (m : Module) (s : Store) (r : Ref) : Prop :=
  s.refFuncType? m r = some ⟨[], []⟩ ∧ ∀ q i, r ≠ .host q i

structure Module.WellFormed (m : Module) (s : Store) : Prop where
  names : (m.exports.map Export.name).Nodup
  exports : ∀ e ∈ m.exports, checkExport m e.desc = .ok ()
  start : ∀ r, m.start = some r → m.Starts s r

/-- The exports of a sound module are there. -/
theorem Module.Sound.offers (hm : m.Sound s) {desc : ExportDesc}
    (h : checkExport m desc = .ok ()) : m.Offers s desc := by
  cases desc with
  | func i =>
      simp only [checkExport] at h
      split at h
      · cases h
      · next hr =>
        obtain ⟨r, hr⟩ := Option.ne_none_iff_exists'.1 hr
        obtain ⟨ty, hty⟩ := Option.isSome_iff_exists.1 (hm.linked.funcs i r hr)
        exact ⟨r, ty, hr, hty⟩
  | table i =>
      simp only [checkExport] at h
      split at h
      · cases h
      · next hi =>
        split at h
        · cases h
        · next hkind =>
          obtain ⟨kind, hkind⟩ := Option.ne_none_iff_exists'.1 hkind
          obtain ⟨t, ht, hlt⟩ := hm.table kind hkind
          exact ⟨not_not.1 hi, kind, t, hkind, ht, hlt⟩
  | mem i =>
      simp only [checkExport] at h
      split at h
      · cases h
      · next hi =>
        split at h
        · cases h
        · next hkind =>
          obtain ⟨kind, hkind⟩ := Option.ne_none_iff_exists'.1 hkind
          obtain ⟨mem, hmem, hlt⟩ := hm.memory kind hkind
          exact ⟨not_not.1 hi, kind, mem, hkind, hmem, hlt⟩
  | global i =>
      simp only [checkExport] at h
      split at h
      · cases h
      · next hr =>
        obtain ⟨r, hr⟩ := Option.ne_none_iff_exists'.1 hr
        obtain ⟨x, hx⟩ := Option.isSome_iff_exists.1 (hm.linked.globals i r hr)
        exact ⟨r, x, hr, hx⟩

/-! ### What keeps modules well formed -/

theorem checkExport_similar (hm : m.Similar m') (htable : m'.table = m.table)
    (hmemory : m'.memory = m.memory) (desc : ExportDesc) :
    checkExport m' desc = checkExport m desc := by
  cases desc <;> simp only [checkExport, hm.getFuncRef, hm.getGlobalRef, htable, hmemory]

theorem Module.Starts.keeps {r : Ref} (h : m.Starts s r) (hs : s.Keeps s') (hm : m.Similar m') :
    m'.Starts s' r :=
  ⟨hs.refFuncType? hm h.1, h.2⟩

theorem Module.WellFormed.keeps (h : m.WellFormed s) (hs : s.Keeps s') (hm : m.Similar m')
    (htable : m'.table = m.table) (hmemory : m'.memory = m.memory)
    (hexports : m'.exports = m.exports)
    (hstart : m'.start = m.start) : m'.WellFormed s' where
  names := hexports ▸ h.names
  exports e he := (checkExport_similar hm htable hmemory e.desc).trans (h.exports e (hexports ▸ he))
  start r hr := (h.start r (hstart ▸ hr)).keeps hs hm

theorem Module.WellFormed.alike (h : m.WellFormed s) (hs : s.Keeps s') (hm : m.Alike m') :
    m'.WellFormed s' := by
  refine h.keeps hs hm.similar ?_ ?_ ?_ ?_ <;> rw [hm.eq]

/-! ### Sections -/

theorem readExport_checks (h : Export.read u = .ok e v) : checkExport u.module e.desc = .ok () := by
  have hquiet : Quiet u Export.read fun e => checkExport u.module e.desc = .ok () := by
    refine .bind quiet_readName fun name _ => .bind (quiet_decoding decoder_exportDesc)
      fun desc _ => .get_bind fun s _ hmodule => ?_
    rw [hmodule]
    exact .bind (.ofExcept (P := fun _ => checkExport u.module desc = .ok ()) fun _ h => h)
      fun _ hcheck => .pure hcheck
  exact (Guarded.ok hquiet (.refl u) h).2

/-- The loop over the exports: no name twice, and each one checked. -/
theorem readExports_checks {n : ℕ} {out exports : List Export}
    (hnames : (out.map Export.name).Nodup) (hout : ∀ e ∈ out, checkExport u.module e.desc = .ok ())
    (h : readExports n out u = .ok exports v) :
    (exports.map Export.name).Nodup ∧ ∀ e ∈ exports, checkExport u.module e.desc = .ok () := by
  induction n generalizing u out with
  | zero =>
      cases h
      exact ⟨hnames, hout⟩
  | succ n ih =>
      obtain ⟨e, w, hread, h⟩ := bind_eq_ok.1 h
      have hw := (Guarded.ok quiet_readExport (.refl u) hread).1
      have hcheck := readExport_checks hread
      split at h
      · cases h
      · next hnew =>
        have hfresh : e.name ∉ out.map Export.name := by
          intro hmem
          obtain ⟨x, hx, hname⟩ := List.mem_map.1 hmem
          exact hnew (List.any_eq_true.2 ⟨x, hx, decide_eq_true hname⟩)
        rw [← hw.module] at hout hcheck ⊢
        refine ih ?_ (fun x hx => ?_) h
        · rw [List.map_append]
          refine List.nodup_append.2 ⟨hnames, by simp, fun a ha b hb => ?_⟩
          rintro rfl
          exact hfresh (List.mem_singleton.1 hb ▸ ha)
        · rcases List.mem_append.1 hx with hx | hx
          · exact hout x hx
          · rw [List.mem_singleton.1 hx]
            exact hcheck

theorem readExportSection_checks (h : readExportSection u = .ok () v) :
    (v.module.exports.map Export.name).Nodup ∧
      ∀ e ∈ v.module.exports, checkExport v.module e.desc = .ok () := by
  obtain ⟨len, u₁, hlen, h⟩ := bind_eq_ok.1 h
  have h₁ := (Guarded.ok (quiet_decoding decoder_readU32) (.refl u) hlen).1
  obtain ⟨_, u₂, hnew, h⟩ := bind_eq_ok.1 h
  obtain ⟨exports, u₃, hread, h⟩ := bind_eq_ok.1 h
  have h₃ := (Guarded.ok (quiet_readExports _ _) (.refl u₂) hread).1
  have hnil : (([] : List Export).map Export.name).Nodup := by simp
  obtain ⟨hnames, hchecks⟩ := readExports_checks hnil (by simp) hread
  cases h
  rw [← h₃.module] at hchecks
  exact ⟨hnames, fun e he => (checkExport_similar (m := u₃.module) ⟨rfl, rfl, rfl, rfl⟩ rfl rfl
    e.desc).trans (hchecks e he)⟩

theorem checkStart_eq_ok {ty : FuncType} (h : checkStart ty u = .ok () v) :
    ty = ⟨[], []⟩ ∧ v = u := by
  unfold checkStart at h
  split at h
  · cases h
  · next hempty =>
    cases h
    obtain ⟨hparams, hreturns⟩ := not_or.1 hempty
    obtain ⟨params, returns⟩ := ty
    obtain rfl := not_not.1 hparams
    obtain rfl := not_not.1 hreturns
    exact ⟨rfl, rfl⟩

theorem readStartSection_starts (h : readStartSection u = .ok () v) :
    ∃ r, v.module.start = some r ∧ v.module.Starts v.store r := by
  obtain ⟨idx, u₁, hidx, h⟩ := bind_eq_ok.1 h
  obtain ⟨s, u₂, hget, h⟩ := bind_eq_ok.1 h
  cases hget
  obtain ⟨r, u₃, hr, h⟩ := bind_eq_ok.1 h
  obtain ⟨-, rfl⟩ := okOr_eq_ok.1 hr
  have hset : ∀ {w : LoadState} {x : Unit}, w.module.Starts w.store r →
      (modify fun s => { s with module := { s.module with start := some r } } : LoadM Unit) w =
        .ok x v → v.module.start = some r ∧ v.module.Starts v.store r := by
    rintro w x hstarts hmodify
    cases hmodify
    exact ⟨rfl, hstarts.keeps (.refl _) ⟨rfl, rfl, rfl, rfl⟩⟩
  refine ⟨r, ?_⟩
  cases r with
  | module index =>
      obtain ⟨f, u₄, hread, h⟩ := bind_eq_ok.1 h
      obtain ⟨hf, rfl⟩ := unwrap_eq_ok.1 hread
      obtain ⟨ty, u₅, hread, h⟩ := bind_eq_ok.1 h
      obtain ⟨hty, rfl⟩ := unwrap_eq_ok.1 hread
      obtain ⟨_, u₆, hcheck, h⟩ := bind_eq_ok.1 h
      obtain ⟨rfl, rfl⟩ := checkStart_eq_ok hcheck
      refine hset ⟨?_, by simp⟩ h
      simp only [Store.refFuncType?, hf, Option.bind_eq_bind, Option.bind_some, hty]
  | host q i => cases h
  | extern_ q index =>
      obtain ⟨em, u₄, hread, h⟩ := bind_eq_ok.1 h
      obtain ⟨hem, rfl⟩ := unwrap_eq_ok.1 hread
      obtain ⟨f, u₅, hread, h⟩ := bind_eq_ok.1 h
      obtain ⟨hf, rfl⟩ := unwrap_eq_ok.1 hread
      obtain ⟨ty, u₆, hread, h⟩ := bind_eq_ok.1 h
      obtain ⟨hty, rfl⟩ := unwrap_eq_ok.1 hread
      obtain ⟨_, u₇, hcheck, h⟩ := bind_eq_ok.1 h
      obtain ⟨rfl, rfl⟩ := checkStart_eq_ok hcheck
      refine hset ⟨?_, by simp⟩ h
      simp only [Store.refFuncType?, hem, hf, Option.bind_eq_bind, Option.bind_some, hty]

/-! ### Loads -/

/-- A load in front of a section. -/
structure LoadState.Forming (last : SectionKind) (s : LoadState) : Prop where
  wellFormed : s.module.WellFormed s.store
  noExports : last.toNat < SectionKind.export_.toNat → s.module.exports = []
  noStart : last.toNat < SectionKind.start.toNat → s.module.start = none

theorem LoadState.Forming.continues {last : SectionKind} (hu : u.Forming last)
    (h : u.Continues v) : v.Forming last := by
  refine ⟨?_, h.module ▸ hu.noExports, h.module ▸ hu.noStart⟩
  rw [h.store, h.module]
  exact hu.wellFormed

/-- A module without exports and start function. -/
theorem Module.WellFormed.none (hexports : m.exports = []) (hstart : m.start = Option.none) :
    m.WellFormed s := by
  refine ⟨by simp [hexports], by simp [hexports], by simp [hstart]⟩

/-- One section. -/
theorem LoadState.Forming.section_ {last kind next : SectionKind} (hu : u.Forming last)
    (horder : checkOrder last kind = .ok next) (h : readSectionBody env kind u = .ok () v) :
    v.Forming next := by
  have hwithin := Guarded.ok (readSectionBody_frame (W := .all) env fun _ _ _ =>
    LoadState.sectionWrites_all env kind _) rfl h
  obtain ⟨size, w, x, hsize, -, hsection, rfl, -⟩ := readSectionBody_eq_ok h
  have horder := checkOrder_eq_ok.1 horder
  have hexports : next.toNat < SectionKind.export_.toNat → (w.leave x).module.exports = [] := by
    intro hnext
    rcases horder with ⟨rfl, rfl⟩ | ⟨-, hlt, rfl⟩
    · rw [hwithin.module.exports (by simp), hu.noExports hnext]
    · rw [hwithin.module.exports (fun heq => by simp [heq] at hnext),
        hu.noExports (Nat.lt_trans hlt hnext)]
  have hstart : next.toNat < SectionKind.start.toNat → (w.leave x).module.start = Option.none := by
    intro hnext
    rcases horder with ⟨rfl, rfl⟩ | ⟨-, hlt, rfl⟩
    · rw [hwithin.module.start (by simp), hu.noStart hnext]
    · rw [hwithin.module.start (fun heq => by simp [heq] at hnext),
        hu.noStart (Nat.lt_trans hlt hnext)]
  refine ⟨?_, hexports, hstart⟩
  by_cases hexport : kind = .export_
  · subst hexport
    obtain ⟨hnames, hchecks⟩ := readExportSection_checks (v := x) hsection
    rcases horder with ⟨hcustom, -⟩ | ⟨-, -, rfl⟩
    · cases hcustom
    · refine ⟨hnames, hchecks, fun r hr => ?_⟩
      rw [hstart (by decide)] at hr
      cases hr
  by_cases hearly : next.toNat < SectionKind.export_.toNat
  · exact .none (hexports hearly) (hstart (Nat.lt_trans hearly (by decide)))
  -- Only custom sections and those after the exports are left.
  have hlate : kind = .custom ∨ SectionKind.export_.toNat < kind.toNat := by
    rcases horder with ⟨rfl, -⟩ | ⟨-, hlt, rfl⟩
    · exact .inl rfl
    · revert hearly hexport
      cases next <;> decide
  have hne : ∀ k : SectionKind, k ≠ .custom → k.toNat ≤ SectionKind.export_.toNat → kind ≠ k := by
    rintro k hcustom hle rfl
    exact hlate.elim hcustom fun hlt => absurd hlt (Nat.not_lt.2 hle)
  have hsimilar : u.module.Similar (w.leave x).module :=
    hwithin.similar (hne _ (by simp) (by decide)) (hne _ (by simp) (by decide))
      (hne _ (by simp) (by decide)) (hne _ (by simp) (by decide))
  have htable := hwithin.module.table (hne _ (by simp) (by decide)) (hne _ (by simp) (by decide))
  have hmemory := hwithin.module.memory (hne _ (by simp) (by decide)) (hne _ (by simp) (by decide))
  have hsame := hwithin.module.exports hexport
  refine ⟨hsame ▸ hu.wellFormed.names, fun e he => (checkExport_similar hsimilar htable hmemory
    e.desc).trans (hu.wellFormed.exports e (hsame ▸ he)), fun r hr => ?_⟩
  by_cases hkind : kind = .start
  · subst hkind
    obtain ⟨r', hr', hstarts⟩ := readStartSection_starts (v := x) hsection
    obtain rfl := Option.some.inj (hr.symm.trans hr')
    exact hstarts
  · exact (hu.wellFormed.start r (hwithin.module.start hkind ▸ hr)).keeps hwithin.store.keeps
      hsimilar

theorem Module.new_wellFormed {name : Name} {wasm : Reader} {t t' : LoadTarget}
    (h : Module.new env name wasm t = .ok m t') : m.WellFormed t'.store := by
  have hstart : (t.start name wasm).Forming .custom := ⟨.none rfl rfl, fun _ => rfl, fun _ => rfl⟩
  obtain ⟨next, b, x, hx, rfl, rfl, -⟩ := Module.new_rule (I := fun last _ u => u.Forming last)
    (fun hu => hu.continues) (fun hu => hu.section_) hstart h
  exact hx.wellFormed

/-! ### Sessions -/

/-- Every module is well formed. -/
def Store.WellFormed (s : Store) : Prop := ∀ m ∈ s.modules, m.WellFormed s

theorem Store.WellFormed.keeps (h : s.WellFormed) (hs : s.Keeps s')
    (hmodules : ∀ m' ∈ s'.modules, ∃ m ∈ s.modules, m.Alike m') : s'.WellFormed := by
  intro m' hm'
  obtain ⟨m, hm, halike⟩ := hmodules m' hm'
  exact (h m hm).alike hs halike

theorem LoadStep.wellFormed {t t' : LoadTarget} (h : LoadStep t t') (ht : t.store.WellFormed) :
    t'.store.WellFormed := by
  have hgrown : ∀ {v : LoadTarget}, t.Grows .all v → v.store.WellFormed := fun hv =>
    ht.keeps hv.store.keeps fun m hm => ⟨m, hv.store.modules ▸ hm, .refl m⟩
  cases h with
  | loaded env name wasm r hr =>
      obtain ⟨m, v, hnew, hv, -, hpush, -⟩ := (loadModule_frame env name wasm t .all fun _ _ =>
        LoadState.loadWrites_all _ _ _).ok rfl hr
      have hkeeps := Store.Keeps.push hpush
      obtain ⟨-, -, hstore⟩ := Store.pushModule_eq_ok.1 hpush
      intro m' hm'
      rw [hstore] at hm'
      rcases List.mem_append.1 hm' with hm' | hm'
      · exact (hgrown hv m' hm').alike hkeeps (.refl m')
      · rw [List.mem_singleton.1 hm']
        exact (Module.new_wellFormed hnew).alike hkeeps (.refl m)
  | failed env name wasm e hr =>
      exact hgrown ((loadModule_frame env name wasm t .all fun _ _ =>
        LoadState.loadWrites_all _ _ _).error rfl hr)

theorem Store.WellFormed.runs (h : s.WellFormed) (hs : s.Runs s') : s'.WellFormed := by
  refine h.keeps hs.keeps fun m' hm' => ?_
  obtain ⟨i, hi⟩ := List.mem_iff_getElem?.1 hm'
  have hlt := hs.modules ▸ (List.getElem?_eq_some_iff.1 hi).1
  obtain ⟨m'', hm'', halike⟩ := hs.module i _ (List.getElem?_eq_getElem hlt)
  obtain rfl := Option.some.inj (hi.symm.trans hm'')
  exact ⟨_, List.getElem_mem hlt, halike⟩

/-- A step of a session is a load, or it does to the store what code may do. -/
theorem SessionStep.store {s s' : Session η} (h : SessionStep floats host s s') :
    (∃ t, LoadStep s.target t ∧ s' = s.withTarget t) ∨ s.engine.store.Runs s'.engine.store := by
  cases h with
  | loaded env name wasm _ hload => exact .inl ⟨_, .loaded _ _ _ _ hload, rfl⟩
  | loadFailed env name wasm _ hload => exact .inl ⟨_, .failed _ _ _ _ hload, rfl⟩
  | @invoked f params e hinvoke =>
      have hstore : e.store = s.engine.store :=
        ((invoke_guarded f params s.engine).ok rfl hinvoke).2
      exact .inr (hstore ▸ .refl _)
  | @invokeRejected f params err e hinvoke =>
      obtain ⟨hbeside, -⟩ := (invoke_guarded f params s.engine).error rfl hinvoke
      have hstore : e.store = s.engine.store := (congrArg Engine.store hbeside :)
      exact .inr (hstore ▸ .refl _)
  | ran fuel hrun => exact .inr (run_continues hrun).runs
  | @resumed v e hresume =>
      have hbeside := (resume_guarded v s.engine).ok rfl hresume
      have hstore : e.store = s.engine.store := (congrArg Engine.store hbeside :)
      exact .inr (hstore ▸ .refl _)
  | resumeRejected v hresume =>
      obtain rfl := (resume_guarded v s.engine).error rfl hresume
      exact .inr (.refl _)
  | reset => exact .inr (.refl _)
  | outside world writes => exact .inr (.writeBytes _ _)
  | setGlobal r x v => exact .inr (.setGlobal _ _ _ _)

section Reachable

variable {setup : HostSetup} {s : Session η}

theorem Session.Reachable.wellFormed (h : s.Reachable setup floats host) :
    s.engine.store.Bounded ∧ s.engine.store.WellFormed := by
  obtain ⟨store, code, stackSize, world, hstore, hsteps⟩ := h
  induction hsteps with
  | refl =>
      refine ⟨HostSetup.bounded hstore, fun m hm => ?_⟩
      change m ∈ store.modules at hm
      rw [(HostSetup.store_eq hstore).1] at hm
      cases hm
  | tail _ hstep ih =>
      rcases hstep.store with ⟨t, ht, rfl⟩ | hruns
      · exact ⟨ht.bounded ih.1, ht.wellFormed ih.2⟩
      · exact ⟨ih.1.runs hruns, ih.2.runs hruns⟩

theorem Session.Abides.reachable {stackSize : ℕ} (h : s.Abides setup floats host stackSize) :
    s.Reachable setup floats host := by
  obtain ⟨store, code, world, hstore, hsteps⟩ := h
  exact ⟨store, code, stackSize, world, hstore, hsteps.lift id fun _ _ h => h.session⟩

end Reachable

/-! ### The start function -/

namespace Capi

variable {s t : Session η}

theorem moduleStart_answers (hs : s.engine.store.WellFormed) (module : U32) :
    ∃ x, moduleStart module s = some x := by
  unfold moduleStart
  split
  · exact ⟨_, rfl⟩
  · next m hm =>
    split
    · exact ⟨_, rfl⟩
    · next r hr =>
      have hcode := ((hs m (List.mem_of_getElem? hm)).start r hr).2
      cases r with
      | module index | extern_ q index => exact ⟨_, rfl⟩
      | host q i => exact absurd rfl (hcode q i)

end Capi

/-- A module that exports its start function `f`. -/
def exportingStart : List U8 :=
  [0x00, 0x61, 0x73, 0x6D, 0x01, 0x00, 0x00, 0x00, 0x01, 0x04, 0x01, 0x60, 0x00, 0x00, 0x03, 0x02,
    0x01, 0x00, 0x07, 0x05, 0x01, 0x01, 0x66, 0x00, 0x00, 0x08, 0x01, 0x00, 0x0A, 0x04, 0x01, 0x02,
    0x00, 0x0B]

/-- Whatever happens to an engine: a module exports no name twice, what it exports exists, and
its start function is code without parameters and results. -/
theorem Session.Reachable.modules_offer {setup : HostSetup} {s : Session η}
    (h : s.Reachable setup floats host) {m : Module} (hm : m ∈ s.engine.store.modules) :
    (m.exports.map Export.name).Nodup ∧ (∀ e ∈ m.exports, m.Offers s.engine.store e.desc) ∧
      ∀ r, m.start = some r → m.Starts s.engine.store r := by
  obtain ⟨hbounded, hwell⟩ := h.wellFormed
  have hsound := hbounded.linked.modules m hm
  exact ⟨(hwell m hm).names, fun e he => hsound.offers ((hwell m hm).exports e he),
    (hwell m hm).start⟩

theorem Session.Reachable.modules_offer_exportingStart : ∃ s m,
    emptySession.load? [0x61] exportingStart = some s ∧ s.engine.store.modules = [m] ∧
    m.exports = [⟨[0x66], .func 0⟩] ∧ m.start = some (.module 0) ∧
    (m.exports.map Export.name).Nodup ∧ (∀ e ∈ m.exports, m.Offers s.engine.store e.desc) ∧
      ∀ r, m.start = some r → m.Starts s.engine.store r := by
  have hrun : ((emptySession.load? [0x61] exportingStart).bind fun s =>
      s.engine.store.modules.head?.map fun m =>
        (decide (s.engine.store.modules.length = 1), m.exports, m.start)) =
      some (true, [⟨[0x66], .func 0⟩], some (.module 0)) := by
    decide +kernel
  obtain ⟨s, h₀, hrun⟩ := Option.bind_eq_some_iff.1 hrun
  obtain ⟨m, hhead, hm⟩ := Option.map_eq_some_iff.1 hrun
  simp only [Prod.mk.injEq] at hm
  obtain ⟨hlength, hexports, hstart⟩ := hm
  obtain ⟨rest, hrest⟩ := List.head?_eq_some_iff.1 hhead
  have hnil : rest = [] := by
    have hlength := of_decide_eq_true hlength
    rw [hrest] at hlength
    exact List.length_eq_zero_iff.1 (Nat.succ.inj hlength)
  rw [hnil] at hrest
  exact ⟨s, m, h₀, hrest, hexports, hstart, Session.Reachable.modules_offer
    (emptySession_abides.step (.free rfl (Session.load?_step h₀))).reachable
    (hrest ▸ List.mem_singleton_self m)⟩

end SpaceWasm
