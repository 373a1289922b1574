import SpaceWasm.LoadSections

/-!
# Whole loads

A load is a header and a sequence of sections, each of which ends within its
frame. So a load, wherever it stops, has consumed a prefix of the stream, has only
appended code, and has changed the store within the writes of the segments that
it has come to. Each round of the loop over the sections consumes a byte, so that
a load ends; from a linked store it does not panic, and it leaves a linked one.
-/

namespace SpaceWasm

open Fallible

variable {α β : Type} {W : Footprint} {kind last : SectionKind} {s₀ : LoadState}

/-! ### The body of a section -/

/-- The state in which the body of a section of a given size is read. -/
def LoadState.enter (s : LoadState) (size : ℕ) : LoadState :=
  { s with wasm := { s.wasm with limit := s.wasm.offset + size } }

/-- The state after it, with the limit restored. -/
def LoadState.leave (s t : LoadState) : LoadState :=
  { t with wasm := { t.wasm with limit := s.wasm.limit } }

theorem LoadState.Within.leave {size : ℕ} {t : LoadState}
    (hsize : s₀.wasm.offset + size ≤ s₀.wasm.limit) (h : (s₀.enter size).Within W kind t) :
    s₀.Within W kind (s₀.leave t) :=
  ⟨h.wasm.limited hsize, h.code, h.store, h.module, fun hready => by
    obtain ⟨hstore, hmodule⟩ := h.linked ⟨⟨hready.linked.store, hready.linked.module⟩, hready.types⟩
    exact ⟨hstore, hmodule⟩, h.owns⟩

theorem guarded_plain {x : LoadM α} {P : α → Prop} (h : Quiet s₀ x P) :
    Guarded s₀.Linked (fun s => s = s₀) (plain x) (fun a s => s₀.Continues s ∧ P a)
      fun _ s => s₀.Continues s := by
  refine Guarded.weaken (Guarded.mapError h fun _ _ hs => hs) id ?_ (fun _ _ hs => hs)
    fun _ _ hs => hs
  rintro s rfl
  exact .refl s

theorem plain_offset_apply (s : LoadState) : plain offset s = .ok s.wasm.offset s := rfl

/-- A section read within its size. -/
theorem limitedSection_frame (env : LoadEnv) {size : ℕ}
    (hW : (s₀.enter size).SectionWrites env W kind) :
    Guarded (s₀.Ready kind) (fun s => s = s₀)
      (withLimit LoadState.wasm (fun s wasm => { s with wasm := wasm })
        ValidationError.toSectionDecodeError size
        (mapError (fun e => e.withSection kind) (readSection env size kind)))
      (fun _ => s₀.Within W kind) fun _ => s₀.Within W kind := by
  rintro s rfl
  unfold withLimit
  simp only
  by_cases hsize : s.wasm.offset + size ≤ usizeMax ∧ s.wasm.offset + size ≤ s.wasm.limit
  · rw [if_pos hsize]
    have hframe : Guarded ((s.enter size).Ready kind) (fun t => t = s.enter size)
        (mapError (fun e => e.withSection kind) (readSection env size kind))
        (fun _ t => (s.enter size).Within W kind t ∧ True) fun _ => (s.enter size).Within W kind :=
      Guarded.mapError (readSection_frame env size hW) fun _ _ hs => hs
    have hrun := hframe (s.enter size) rfl
    unfold LoadState.enter at hrun
    cases hr : mapError (fun e => e.withSection kind) (readSection env size kind) _ <;>
      rw [hr] at hrun
    · exact hrun.1.leave hsize.2
    · exact hrun.leave hsize.2
    · exact fun hready => hrun ⟨⟨hready.linked.store, hready.linked.module⟩, hready.types⟩
    · exact hrun
  · rw [if_neg hsize]
    exact .refl s

theorem readSectionBody_frame (env : LoadEnv)
    (hW : ∀ size s, decoding readU32 s₀ = .ok size s →
      (s.enter size.toNat).SectionWrites env W kind) :
    Guarded (s₀.Ready kind) (fun s => s = s₀) (readSectionBody env kind)
      (fun _ => s₀.Within W kind) fun _ => s₀.Within W kind := by
  refine Guarded.bind_run (M := fun _ => s₀.Continues)
    ((guarded_plain (quiet_decoding decoder_readU32)).weaken (fun h => h.linked) (fun _ hs => hs)
      (fun _ _ hs => hs.1) fun _ _ hs => hs.within) fun size t hr ht => ?_
  have htw : s₀.Within W kind _ := ht.within
  rintro _ rfl
  rw [bind_of_ok (plain_offset_apply _)]
  refine Guarded.bind (M := fun _ => s₀.Within W kind) ((limitedSection_frame env
    (hW size _ (mapError_eq_ok.1 hr))).weaken htw.ready (fun _ hs => hs)
      (fun _ _ hs => htw.trans hs)
      fun _ _ hs => htw.trans hs) (fun _ u hu => ?_) _ rfl
  rw [bind_of_ok (plain_offset_apply u)]
  exact Guarded.ite (P := s₀.Within W kind) (Q := fun _ => s₀.Within W kind)
    (E := fun _ => s₀.Within W kind) (fun _ => Guarded.throw fun _ hs => hs)
    (fun _ => Guarded.pure fun _ hs => hs) u hu

/-! ### The sequence of sections -/

/-- A load that is in front of a section in `s₀`, after sections up to `last`, comes to
the body of a section of kind `kind` in state `s`. -/
inductive AtSection (env : LoadEnv) :
    LoadState → SectionKind → SectionKind → LoadState → Prop where
  | here {s₀ s₁ s₂ : LoadState} {last kind next : SectionKind} {size : U32} :
      decoding SectionKind.read s₀ = .ok kind s₁ → checkOrder last kind = .ok next →
      decoding readU32 s₁ = .ok size s₂ → AtSection env s₀ last kind (s₂.enter size.toNat)
  | later {s₀ s₁ s₂ s : LoadState} {last kind next kind' : SectionKind} :
      decoding SectionKind.read s₀ = .ok kind s₁ → checkOrder last kind = .ok next →
      readSectionBody env kind s₁ = .ok () s₂ → AtSection env s₂ next kind' s →
      AtSection env s₀ last kind' s

/-- The writes of the segments that a load comes to. -/
def LoadState.LoadWrites (env : LoadEnv) (W : Footprint) (last : SectionKind) (s₀ : LoadState) :
    Prop :=
  ∀ kind s, AtSection env s₀ last kind s → s.SectionWrites env W kind

/-- There are no functions before the function section. -/
structure LoadState.OnTrack (last : SectionKind) (s : LoadState) : Prop where
  linked : s.Linked
  fresh : last.toNat < SectionKind.function.toNat → s.module.functions = []

/-- `s` is a state of a load after `s₀`, between two sections. -/
structure LoadState.Follows (W : Footprint) (last : SectionKind) (s₀ s : LoadState) : Prop where
  wasm : s₀.wasm.Advances s.wasm
  code : s₀.code.Extends s.code
  store : s₀.store.Evolves W s.store
  linked : s₀.OnTrack last → s.Linked
  owns : s₀.Owns s

theorem LoadState.Continues.follows {s : LoadState} (h : s₀.Continues s) :
    s₀.Follows W last s :=
  ⟨h.wasm, h.code, h.store ▸ .refl W s₀.store, fun hs => h.linked hs.linked, fun _ hmem =>
    .inl (h.module ▸ hmem)⟩

theorem LoadState.Within.follows {s : LoadState} (h : s₀.Within W kind s)
    (hready : s₀.OnTrack last → s₀.Ready kind) : s₀.Follows W last s :=
  ⟨h.wasm, h.code, h.store, fun hs => h.linked (hready hs), h.owns⟩

theorem LoadState.Follows.trans {next : SectionKind} {s t : LoadState} (h : s₀.Follows W last s)
    (htrack : s₀.OnTrack last → s.OnTrack next) (h' : s.Follows W next t) : s₀.Follows W last t :=
  ⟨h.wasm.trans h'.wasm, h.code.trans h'.code, h.store.trans h'.store,
    fun hs => h'.linked (htrack hs), h.owns.trans h'.owns h.store.memories_le⟩

/-- The order of two sections: custom sections do not count. -/
theorem checkOrder_eq_ok {last new next : SectionKind} :
    checkOrder last new = .ok next ↔
      (new = .custom ∧ next = last) ∨ (new ≠ .custom ∧ last.toNat < new.toNat ∧ next = new) := by
  cases last <;> cases new <;> simp [checkOrder, SectionKind.toNat, eq_comm]

theorem LoadState.OnTrack.ready {next : SectionKind} (h : s₀.OnTrack last)
    (horder : checkOrder last kind = .ok next) : s₀.Ready kind := by
  refine ⟨h.linked, ?_⟩
  rintro rfl
  rcases checkOrder_eq_ok.1 horder with ⟨hcustom, -⟩ | ⟨-, hlt, -⟩
  · cases hcustom
  · exact h.fresh (Nat.lt_trans hlt (by decide))

theorem LoadState.OnTrack.next {next : SectionKind} {s : LoadState} (h : s₀.OnTrack last)
    (horder : checkOrder last kind = .ok next) (hs : s₀.Within W kind s) : s.OnTrack next := by
  refine ⟨hs.linked (h.ready horder), fun hnext => ?_⟩
  rcases checkOrder_eq_ok.1 horder with ⟨rfl, rfl⟩ | ⟨-, hlt, rfl⟩
  · rw [hs.module.functions nofun nofun, h.fresh hnext]
  · rw [hs.module.functions (fun heq => by simp [heq] at hnext)
      (fun heq => by simp [heq, SectionKind.toNat] at hnext), h.fresh (Nat.lt_trans hlt hnext)]

theorem LoadState.OnTrack.continues {s : LoadState} (h : s₀.OnTrack last) (hs : s₀.Continues s) :
    s.OnTrack last :=
  ⟨hs.linked h.linked, fun hlast => (congrArg Module.functions hs.module).trans (h.fresh hlast)⟩

/-- The id of a section is a byte of the stream. -/
theorem sectionKind_consumes {s t : LoadState} (h : decoding SectionKind.read s = .ok kind t) :
    t.wasm.input.length < s.wasm.input.length := by
  obtain ⟨r, hr, rfl⟩ := zoom_eq_ok.1 h
  obtain ⟨id, r', hread, hr⟩ := bind_eq_ok.1 hr
  have hadvance := readU8_advances s.wasm
  rw [hread] at hadvance
  obtain ⟨-, rfl⟩ := ofExcept_eq_ok.1 hr
  have hlength := hadvance.2
  simp only
  omega

theorem readSections_frame (env : LoadEnv) (fuel : ℕ) (last : SectionKind) (seenCode : Bool)
    (hfuel : s₀.wasm.input.length < fuel) (hW : s₀.LoadWrites env W last) :
    Guarded (s₀.OnTrack last) (fun s => s = s₀) (readSections env fuel last seenCode)
      (fun _ => s₀.Follows W last) fun _ => s₀.Follows W last := by
  induction fuel generalizing last seenCode s₀ with
  | zero => exact absurd hfuel (Nat.not_lt_zero _)
  | succ fuel ih =>
      rintro s rfl
      have hkind := (quiet_decoding decoder_sectionKind : Quiet s _ _) s (.refl s)
      unfold readSections
      cases hr : decoding SectionKind.read s with
      | error e t =>
          rw [hr] at hkind
          cases e <;> exact hkind.follows
      | panic =>
          rw [hr] at hkind
          exact fun htrack => hkind htrack.linked
      | diverge =>
          rw [hr] at hkind
          exact hkind
      | ok kind t =>
          rw [hr] at hkind
          have ht := hkind.1
          have hlt := sectionKind_consumes hr
          simp only
          cases horder : checkOrder last kind with
          | error e => exact ht.follows
          | ok next =>
              have hready : s.OnTrack last → t.Ready kind := fun h =>
                (h.continues ht).ready horder
              have hbody := readSectionBody_frame env fun size u hu =>
                hW kind _ (.here hr horder hu)
              refine Guarded.bind_run (Guarded.weaken hbody hready (fun _ hu => hu)
                (fun _ _ hu => hu) fun _ u hu => ?_) (fun _ u hu hwithin => ?_) t rfl
              · exact ht.follows.trans (fun h => h.continues ht)
                  (hu.follows fun h => h.ready horder)
              · have htu : s.Follows W last u := ht.follows.trans (fun h => h.continues ht)
                  (hwithin.follows fun h => h.ready horder)
                have hnext : s.OnTrack last → u.OnTrack next := fun h =>
                  (h.continues ht).next horder hwithin
                have hle := hwithin.wasm.length_le
                refine Guarded.weaken (ih next _ (by omega) fun kind' v hv =>
                  hW kind' v (.later hr horder hu hv)) hnext (fun _ hv => hv)
                  (fun _ _ hv => htu.trans hnext hv) fun _ _ hv => htu.trans hnext hv

/-! ### Modules -/

/-- The header of a module, up to its first section. -/
def readHeader (name : Name) : DecodeModuleM Unit := do
  let magic ← plain (decoding (stripBytes 4))
  if magic ≠ [0x00, 0x61, 0x73, 0x6D] then
    throw ValidationError.malformedMagic.toSectionDecodeError
  else do
    let version ← plain (decoding (stripBytes 4))
    if version ≠ [0x01, 0x00, 0x00, 0x00] then
      throw ValidationError.malformedVersion.toSectionDecodeError
    else do
      let s ← get
      plain (ofExcept (checkName name s.store))
      plain (newVec name.length)

/-- The rest of a module. -/
def readBody (env : LoadEnv) : DecodeModuleM Module := do
  let s ← get
  let seenCode ← readSections env (s.wasm.input.length + 1) .custom false
  let s ← get
  if seenCode = false ∧ s.module.functions ≠ [] then
    throw ValidationError.invalidCodeSectionFunctionCount.toSectionDecodeError
  else pure s.module

theorem Module.read_eq (env : LoadEnv) (name : Name) :
    Module.read env name = readHeader name >>= fun _ => readBody env := by
  unfold Module.read readHeader readBody
  rw [bind_assoc]
  congr 1
  funext magic
  split
  · rfl
  · rw [bind_assoc]
    congr 1
    funext version
    split
    · rfl
    · simp only [bind_assoc]

theorem readHeader_frame (name : Name) :
    Guarded s₀.Linked (fun s => s = s₀) (readHeader name) (fun _ => s₀.Continues)
      fun _ => s₀.Continues := by
  have hplain : ∀ {α : Type} {x : LoadM α} {P : α → Prop}, Quiet s₀ x P →
      Guarded s₀.Linked s₀.Continues (plain x) (fun _ => s₀.Continues) fun _ => s₀.Continues :=
    fun h => Guarded.mapError (Guarded.weaken h id (fun _ hs => hs) (fun _ _ hs => hs.1)
      fun _ _ hs => hs) fun _ _ hs => hs
  have hall : Guarded s₀.Linked s₀.Continues (readHeader name) (fun _ => s₀.Continues)
      fun _ => s₀.Continues := by
    refine Guarded.bind (hplain (quiet_decoding (decoder_stripBytes 4))) fun magic => ?_
    refine Guarded.ite (fun _ => Guarded.throw fun _ hs => hs) fun _ => ?_
    refine Guarded.bind (hplain (quiet_decoding (decoder_stripBytes 4))) fun version => ?_
    refine Guarded.ite (fun _ => Guarded.throw fun _ hs => hs) fun _ => ?_
    refine Guarded.get_bind fun s hs => ?_
    refine Guarded.weaken (Guarded.bind (hplain (.ofExcept (P := fun _ => True) fun _ _ => trivial))
      fun _ => hplain (quiet_newVec _)) id ?_ (fun _ _ hs => hs) fun _ _ hs => hs
    rintro t rfl
    exact hs
  refine hall.weaken id ?_ (fun _ _ hs => hs) fun _ _ hs => hs
  rintro s rfl
  exact .refl s

theorem readBody_frame (env : LoadEnv) (hW : s₀.LoadWrites env W .custom) :
    Guarded (s₀.OnTrack .custom) (fun s => s = s₀) (readBody env)
      (fun m s => s₀.Follows W .custom s ∧ m = s.module) fun _ => s₀.Follows W .custom := by
  unfold readBody
  rintro s rfl
  rw [bind_of_ok (get_apply s)]
  refine Guarded.bind (readSections_frame env _ .custom false (Nat.lt_succ_self _) hW)
    (fun seenCode t ht => ?_) s rfl
  rw [bind_of_ok (get_apply t)]
  exact Guarded.ite (P := fun u => u = t)
    (Q := fun m u => s.Follows W .custom u ∧ m = u.module) (E := fun _ => s.Follows W .custom)
    (fun _ => Guarded.throw fun u hu => hu ▸ ht)
    (fun _ => Guarded.pure fun u hu => ⟨hu ▸ ht, congrArg LoadState.module hu.symm⟩) t rfl

theorem Module.read_frame (env : LoadEnv) (name : Name)
    (hW : ∀ s, readHeader name s₀ = .ok () s → s.LoadWrites env W .custom) :
    Guarded (s₀.OnTrack .custom) (fun s => s = s₀) (Module.read env name)
      (fun m s => s₀.Follows W .custom s ∧ m = s.module) fun _ => s₀.Follows W .custom := by
  rw [Module.read_eq]
  refine Guarded.bind_run ((readHeader_frame name).weaken (fun h => h.linked) (fun _ hs => hs)
    (fun _ _ hs => hs) fun _ _ hs => hs.follows) fun _ t hr ht => ?_
  have htrans : ∀ u, t.Follows W .custom u → s₀.Follows W .custom u := fun u hu =>
    ht.follows.trans (fun h => h.continues ht) hu
  exact (readBody_frame env (hW t hr)).weaken (fun h => h.continues ht) (fun _ hu => hu)
    (fun _ u hu => ⟨htrans u hu.1, hu.2⟩) fun _ u hu => htrans u hu

/-! ### Loads -/

/-- What a load leaves to later ones. -/
structure LoadTarget.Grows (W : Footprint) (t t' : LoadTarget) : Prop where
  code : t.code.Extends t'.code
  store : t.store.Evolves W t'.store

theorem Module.Sound.empty (s : Store) (name : Name) : (Module.empty name).Sound s :=
  ⟨nofun, Nat.zero_le _, nofun, Nat.zero_le _, nofun, nofun⟩

/-- The state in which a load starts. -/
def LoadTarget.start (t : LoadTarget) (name : Name) (wasm : Reader) : LoadState :=
  ⟨wasm, t.store, t.code, Module.empty name⟩

theorem LoadTarget.start_onTrack {t : LoadTarget} (h : t.store.Linked) (name : Name)
    (wasm : Reader) :
    (t.start name wasm).OnTrack .custom :=
  ⟨⟨h, .empty _ name⟩, fun _ => rfl⟩

/-- A load ends. It grows the target and stays within the writes of its segments, and
if the store is linked, it does not panic, and the module it returns is sound. -/
theorem Module.new_frame (env : LoadEnv) (name : Name) (wasm : Reader) (t : LoadTarget)
    (hW : ∀ s, readHeader name (t.start name wasm) = .ok () s → s.LoadWrites env W .custom) :
    Guarded t.store.Linked (fun u => u = t) (Module.new env name wasm)
      (fun m u => t.Grows W u ∧ (t.store.Linked → m.Sound u.store)) fun _ u => t.Grows W u := by
  rintro _ rfl
  have hrun := Module.read_frame env name hW _ rfl
  unfold Module.new
  unfold LoadTarget.start at hrun
  cases hr : Module.read env name ⟨wasm, _, _, Module.empty name⟩ <;> rw [hr] at hrun
  · obtain ⟨hfollows, rfl⟩ := hrun
    exact ⟨⟨hfollows.code, hfollows.store⟩, fun h =>
      (hfollows.linked (LoadTarget.start_onTrack h name wasm)).module⟩
  · exact ⟨hrun.code, hrun.store⟩
  · exact fun h => hrun (LoadTarget.start_onTrack h name wasm)
  · exact hrun

/-- How a load that succeeds has gone: the header, and then the sections. -/
theorem Module.new_eq_ok {env : LoadEnv} {name : Name} {wasm : Reader} {t t' : LoadTarget}
    {m : Module} (h : Module.new env name wasm t = .ok m t') :
    ∃ u b x, readHeader name (t.start name wasm) = .ok () u ∧
      readSections env (u.wasm.input.length + 1) .custom false u = .ok b x ∧
      (b = false → x.module.functions = []) ∧ m = x.module ∧ t' = ⟨x.store, x.code⟩ := by
  unfold Module.new at h
  cases hr : Module.read env name ⟨wasm, t.store, t.code, Module.empty name⟩ with
  | ok m' v =>
      rw [hr] at h
      cases h
      rw [Module.read_eq] at hr
      obtain ⟨_, u, hheader, hr⟩ := bind_eq_ok.1 hr
      rw [readBody, bind_of_ok (get_apply u)] at hr
      obtain ⟨b, x, hsections, hr⟩ := bind_eq_ok.1 hr
      rw [bind_of_ok (get_apply x)] at hr
      split at hr
      · cases hr
      · next hseen =>
        obtain ⟨rfl, rfl⟩ := pure_eq_ok.1 hr
        exact ⟨u, b, x, hheader, hsections,
          fun hb => Decidable.not_not.1 fun hne => hseen ⟨hb, hne⟩, rfl, rfl⟩
  | error | panic | diverge =>
      rw [hr] at h
      cases h

/-! ### Invariants of loads that succeed -/

section Rule

variable {env : LoadEnv} {I : SectionKind → Bool → LoadState → Prop}
  (hcontinues : ∀ {last seenCode u v}, I last seenCode u → u.Continues v → I last seenCode v)
  (hsection : ∀ {last kind next seenCode u v}, I last seenCode u →
    checkOrder last kind = .ok next → readSectionBody env kind u = .ok () v →
      I next (seenCode || decide (kind = .code)) v)

include hcontinues hsection

/-- What every section keeps holds when all of them have been read. -/
theorem readSections_rule {fuel : ℕ} {last : SectionKind} {seenCode b : Bool} {u v : LoadState}
    (hu : I last seenCode u) (h : readSections env fuel last seenCode u = .ok b v) :
    ∃ next, I next b v := by
  induction fuel generalizing last seenCode u with
  | zero => cases h
  | succ fuel ih =>
      unfold readSections at h
      have hkind : Quiet u (decoding SectionKind.read) _ := quiet_decoding decoder_sectionKind
      have hkind := hkind u (.refl u)
      cases hr : decoding SectionKind.read u with
      | error e t =>
          simp only [hr] at h hkind
          cases e <;> cases h
          exact ⟨last, hcontinues hu hkind⟩
      | panic | diverge =>
          simp only [hr] at h
          cases h
      | ok kind t =>
          simp only [hr] at h hkind
          obtain ⟨next, t', hcheck, h⟩ := bind_eq_ok.1 h
          obtain ⟨horder, rfl⟩ := ofExcept_eq_ok.1 (mapError_eq_ok.1 hcheck)
          obtain ⟨_, w, hbody, h⟩ := bind_eq_ok.1 h
          exact ih (hsection (hcontinues hu hkind.1) horder hbody) h

/-- It holds of the module that has been loaded. -/
theorem Module.new_rule {name : Name} {wasm : Reader} {t t' : LoadTarget} {m : Module}
    (hstart : I .custom false (t.start name wasm)) (h : Module.new env name wasm t = .ok m t') :
    ∃ next b x, I next b x ∧ m = x.module ∧ t' = ⟨x.store, x.code⟩ ∧
      (b = false → x.module.functions = []) := by
  obtain ⟨u, b, x, hheader, hsections, hnone, rfl, rfl⟩ := Module.new_eq_ok h
  have hu := Guarded.ok (readHeader_frame name) rfl hheader
  obtain ⟨next, hx⟩ := readSections_rule (I := I) hcontinues hsection (hcontinues hstart hu)
    hsections
  exact ⟨next, b, x, hx, rfl, rfl, hnone⟩

end Rule

end SpaceWasm
