import SpaceWasm.Answers
import SpaceWasm.Globals

/-!
# Lookups

What the embedder has looked up by name, modules, functions, globals and start functions,
is an index that stays valid: whatever is called afterwards, the same lookup gives the same
index. A function that has been found, and whose signature has been checked, can be called.
-/

namespace SpaceWasm

variable {η : Type} {floats : FloatOps} {host : HostEnv η}

/-- The first element of a list stays the first one when the list grows and its elements
keep the property. -/
theorem List.findIdx?_of_grows {α : Type} {p : α → Bool} {l l' : List α} {i : ℕ}
    (h : ∀ (j : ℕ) (x : α), l[j]? = some x → ∃ y, l'[j]? = some y ∧ p y = p x)
    (hi : l.findIdx? p = some i) : l'.findIdx? p = some i := by
  obtain ⟨hlt, hp, hbefore⟩ := List.findIdx?_eq_some_iff_getElem.1 hi
  have hsame : ∀ j (hj : j < l.length), ∃ hj' : j < l'.length, p l'[j] = p l[j] := by
    intro j hj
    obtain ⟨y, hy, hpy⟩ := h j _ (List.getElem?_eq_getElem hj)
    obtain ⟨hj', rfl⟩ := List.getElem?_eq_some_iff.1 hy
    exact ⟨hj', hpy⟩
  obtain ⟨hlt', hp'⟩ := hsame i hlt
  refine List.findIdx?_eq_some_iff_getElem.2 ⟨hlt', hp' ▸ hp, fun j hj => ?_⟩
  obtain ⟨hj', hpj⟩ := hsame j (Nat.lt_trans hj hlt)
  rw [hpj]
  exact hbefore j hj

/-! ### Modules stay -/

/-- Every module stays where it is, and changes at most in the values of its globals. -/
def Store.Retains (s t : Store) : Prop :=
  ∀ (i : ℕ) (m : Module), s.modules[i]? = some m → ∃ m', t.modules[i]? = some m' ∧ m.Alike m'

namespace Store.Retains

variable {s t u : Store}

theorem refl (s : Store) : s.Retains s := fun _ m hm => ⟨m, hm, .refl m⟩

theorem trans (h : s.Retains t) (h' : t.Retains u) : s.Retains u := by
  intro i m hm
  obtain ⟨m', hm', halike⟩ := h i m hm
  obtain ⟨m'', hm'', halike'⟩ := h' i m' hm'
  exact ⟨m'', hm'', halike.trans halike'⟩

end Store.Retains

theorem LoadStep.retains {t t' : LoadTarget} (h : LoadStep t t') : t.store.Retains t'.store := by
  intro i m hm
  obtain ⟨ms, hms⟩ := h.modules
  refine ⟨m, ?_, .refl m⟩
  rw [← hms, List.getElem?_append_left (List.getElem?_eq_some_iff.1 hm).1, hm]

namespace Capi

variable {s t : Session η}

theorem Call.retains {c : Call η} {a : Answer} (h : c.perform floats host s = some (a, t)) :
    s.engine.store.Retains t.engine.store := by
  by_cases hc : c.Loads
  · cases Call.performs h with
    | loadRefused => exact .refl _
    | loaded _ hload => exact LoadStep.retains (t := s.target) (.loaded _ _ _ _ hload)
    | loadFailed _ hload => exact LoadStep.retains (t := s.target) (.failed _ _ _ _ hload)
    | resumed hgives | resumeRejected hgives => exact absurd hc hgives.not_loads
    | _ => exact hc.elim
  · exact (Call.runs h hc).module

theorem Calls.retains {calls : List (Call η × Answer)} (h : Calls floats host s calls t) :
    s.engine.store.Retains t.engine.store := by
  induction h with
  | nil => exact .refl _
  | cons hperform _ ih => exact (Call.retains hperform).trans ih

/-! ### Lookups -/

/-- The signature is that of the function. -/
theorem checkFuncSignature_eq_ok {module func : U32} {ps rs : List Char} :
    checkFuncSignature module func ps rs s = .ok ↔
      ∃ m f ty, tryNew ps = .ok ty.params ∧ tryNew rs = .ok ty.returns ∧
        s.engine.store.modules[module.toNat]? = some m ∧ m.functions[func.toNat]? = some f ∧
        m.types[f.ty]? = some ty := by
  have hstatus : ∀ e, hostValListStatus e ≠ .ok := fun e => by cases e <;> simp [hostValListStatus]
  constructor
  · intro h
    unfold checkFuncSignature at h
    split at h
    · exact absurd h (hstatus _)
    · next params hps =>
      split at h
      · exact absurd h (hstatus _)
      · next returns hrs =>
        split at h
        · cases h
        · next m hm =>
          split at h
          · cases h
          · next f hf =>
            split at h
            · cases h
            · next ty hty =>
              split at h
              · cases h
              · split at h
                · cases h
                · next htypes =>
                  obtain ⟨hparams, hreturns⟩ := not_or.1 htypes
                  exact ⟨m, f, ty, not_not.1 hparams ▸ hps, not_not.1 hreturns ▸ hrs, hm, hf, hty⟩
  · rintro ⟨m, f, ty, hps, hrs, hm, hf, hty⟩
    simp [checkFuncSignature, hps, hrs, hm, hf, hty]

section Lookups

variable (h : s.engine.store.Retains t.engine.store)

include h

theorem findModule_stable {name : Name} {i : U32} (hi : findModule name s = .ok i) :
    findModule name t = .ok i := by
  unfold findModule at hi ⊢
  split at hi
  · next k hk =>
    rw [List.findIdx?_of_grows (fun j m hm => ?_) hk]
    · exact hi
    · obtain ⟨m', hm', halike⟩ := h j m hm
      refine ⟨m', hm', ?_⟩
      rw [halike.eq]
  · cases hi

theorem findExportFunc_stable {module : U32} {name : Name} {i : U32}
    (hi : findExportFunc module name s = .ok i) : findExportFunc module name t = .ok i := by
  unfold findExportFunc at hi ⊢
  cases hm : s.engine.store.modules[module.toNat]? with
  | none =>
      rw [hm] at hi
      cases hi
  | some m =>
      obtain ⟨m', hm', halike⟩ := h _ m hm
      have hexports : m'.exports = m.exports := by rw [halike.eq]
      rw [hm] at hi
      rw [hm']
      dsimp only at hi ⊢
      rwa [hexports, funext halike.similar.getFuncRef]

theorem findGlobal_stable {module : U32} {name : Name} {i : U32}
    (hi : findGlobal module name s = .ok i) : findGlobal module name t = .ok i := by
  unfold findGlobal at hi ⊢
  cases hm : s.engine.store.modules[module.toNat]? with
  | none =>
      rw [hm] at hi
      cases hi
  | some m =>
      obtain ⟨m', hm', halike⟩ := h _ m hm
      have hexports : m'.exports = m.exports := by rw [halike.eq]
      rw [hm] at hi
      rw [hm']
      dsimp only at hi ⊢
      rwa [hexports, funext halike.similar.getGlobalRef]

theorem checkFuncSignature_stable {module func : U32} {ps rs : List Char}
    (hi : checkFuncSignature module func ps rs s = .ok) :
    checkFuncSignature module func ps rs t = .ok := by
  obtain ⟨m, f, ty, hps, hrs, hm, hf, hty⟩ := checkFuncSignature_eq_ok.1 hi
  obtain ⟨m', hm', halike⟩ := h _ m hm
  refine checkFuncSignature_eq_ok.2 ⟨m', f, ty, hps, hrs, hm', ?_, halike.similar.types ▸ hty⟩
  rw [halike.eq]
  exact hf

theorem moduleStart_stable {module : U32} {f : U32 × U32}
    (hi : moduleStart module s = some (.ok f)) : moduleStart module t = some (.ok f) := by
  unfold moduleStart at hi ⊢
  cases hm : s.engine.store.modules[module.toNat]? with
  | none =>
      rw [hm] at hi
      cases hi
  | some m =>
      obtain ⟨m', hm', halike⟩ := h _ m hm
      have hstart : m'.start = m.start := by rw [halike.eq]
      rw [hm] at hi
      rw [hm']
      dsimp only at hi ⊢
      rwa [hstart]

end Lookups

/-! ### Calls of what has been found -/

theorem findExportFunc_le {module : U32} {name : Name} {i : U32}
    (hi : findExportFunc module name s = .ok i) : i.toNat ≤ 0xFFFF := by
  unfold findExportFunc at hi
  split at hi
  · cases hi
  · dsimp only at hi
    split at hi
    · next index _ =>
      cases hi
      rw [BitVec.toNat_setWidth, Nat.mod_eq_of_lt (Nat.lt_trans index.isLt (by decide))]
      exact Nat.le_of_lt_succ index.isLt
    · cases hi

theorem tryNewFrom_length {data tys : List ValType} {cs : List Char}
    (hdata : data.length ≤ maxHostFunctionParams) (h : tryNewFrom data cs = .ok tys) :
    tys.length ≤ maxHostFunctionParams := by
  induction cs generalizing data with
  | nil =>
      cases h
      exact hdata
  | cons c cs ih =>
      rw [tryNewFrom] at h
      split at h
      · cases h
      · next hlt =>
        split at h
        · refine ih ?_ h
          rw [List.length_append, List.length_singleton]
          omega
        · cases h

theorem length_tryToValue {params : List CValue} {vs : List Value}
    (h : params.mapM CValue.tryToValue = some vs) : vs.length = params.length := by
  induction params generalizing vs with
  | nil =>
      cases h
      rfl
  | cons p params ih =>
      rw [List.mapM_cons] at h
      obtain ⟨v, -, h⟩ := Option.bind_eq_some_iff.1 h
      obtain ⟨vs', hvs, h⟩ := Option.bind_eq_some_iff.1 h
      cases h
      rw [List.length_cons, List.length_cons, ih hvs]

/-- A function can be called with values of its parameter types, unless its frame does not fit
on the stack. -/
theorem invoke_accepted (hs : s.Safe host) (hidle : s.engine.isIdle) {module func : U32}
    (hfunc : func.toNat ≤ 0xFFFF) {m : Module} {f : Func} {ty : FuncType}
    (hm : s.engine.store.modules[module.toNat]? = some m)
    (hf : m.functions[func.toNat]? = some f) (hty : m.types[f.ty]? = some ty)
    {params : List CValue} {vs : List Value} (hlength : params.length ≤ maxInvokeParams)
    (hvs : params.mapM CValue.tryToValue = some vs) (htypes : vs.map Value.type = ty.params) :
    ∃ a t, invoke module func params s = some (a, t) ∧ (a = .ok ∨ a = .stackOverflow) := by
  let ref : WasmRef := ⟨BitVec.ofNat 8 module.toNat, BitVec.ofNat 16 func.toNat⟩
  have hlt := (List.getElem?_eq_some_iff.1 hf).1
  have hcheck : checkInvoke module func params s.engine.isIdle s.engine.store = .ok (ref, vs) := by
    rw [checkInvoke, if_neg (Nat.not_lt.2 hfunc), if_neg (not_not.2 hidle), hm]
    dsimp only
    rw [if_neg (Nat.not_le.2 hlt), if_neg (Nat.not_lt.2 hlength), hvs]
  have hrest := hs.sited.idle (of_decide_eq_true hidle)
  have hmodule : s.engine.store.module? ref.module = some m := hs.bounded.linked.module?_ofNat hm
  have hindex : ref.index.toNat = func.toNat := toNat_ofNat_of_lt (Nat.lt_succ_of_le hfunc)
  have hfunction : m.functions[ref.index.toNat]? = some f := by rwa [hindex]
  have hrejection : f.rejection ty vs s.engine.stack.words.length =
      if s.engine.stack.words.length < wordsOf ty.params + f.requiredStackWords then
        some .stackOverflow
      else none := by
    rw [Func.rejection, if_neg (not_not.2 (by rw [← htypes, List.length_map])),
      if_neg (not_not.2 htypes)]
  unfold invoke
  rw [hcheck]
  dsimp only
  split at hrejection
  · obtain ⟨words, touched, -, hrun⟩ := invoke_error hrest hmodule hfunction hty hrejection
    rw [hrun]
    exact ⟨_, _, rfl, .inr rfl⟩
  · obtain ⟨mem, hmem⟩ := hs.bounded.linked.getMemory_eq hmodule
    obtain ⟨table, htable⟩ := hs.bounded.linked.getTable_eq hmodule
    obtain ⟨words, as, -, -, -, hrun⟩ :=
      invoke_ok hrest hmodule hfunction hty hrejection hmem htable
    rw [hrun]
    exact ⟨_, _, rfl, .inl rfl⟩

/-- A function that has been found and whose signature has been checked. -/
theorem invoke_found (hs : s.Safe host) (hidle : s.engine.isIdle) {module func : U32} {name : Name}
    {ps rs : List Char} {params : List CValue} {vs : List Value}
    (hfind : findExportFunc module name s = .ok func)
    (hsig : checkFuncSignature module func ps rs s = .ok)
    (hvs : params.mapM CValue.tryToValue = some vs) (htypes : tryNew ps = .ok (vs.map Value.type)) :
    ∃ a t, invoke module func params s = some (a, t) ∧ (a = .ok ∨ a = .stackOverflow) := by
  obtain ⟨m, f, ty, hps, -, hm, hf, hty⟩ := checkFuncSignature_eq_ok.1 hsig
  have hparams : vs.map Value.type = ty.params := Except.ok.inj (htypes.symm.trans hps)
  have hlength : params.length ≤ maxInvokeParams := by
    rw [← length_tryToValue hvs, ← List.length_map, hparams]
    exact Nat.le_trans (tryNewFrom_length (Nat.zero_le _) hps) (by decide)
  exact invoke_accepted hs hidle (findExportFunc_le hfind) hm hf hty hlength hvs hparams

end Capi

/-- A module that exports its function `f`, from a word to a word. -/
def exportingFunc : List U8 :=
  [0x00, 0x61, 0x73, 0x6D, 0x01, 0x00, 0x00, 0x00, 0x01, 0x06, 0x01, 0x60, 0x01, 0x7F, 0x01, 0x7F,
    0x03, 0x02, 0x01, 0x00, 0x07, 0x05, 0x01, 0x01, 0x66, 0x00, 0x00, 0x0A, 0x06, 0x01, 0x04, 0x00,
    0x20, 0x00, 0x0B]

/-- Whatever calls follow one another, what has been found under a name is found again, at the
same index and with the same signature. -/
theorem Capi.Calls.lookups_stable {s s' : Session η} {calls : List (Call η × Answer)}
    (h : Calls floats host s calls s') :
    (∀ name i, findModule name s = .ok i → findModule name s' = .ok i) ∧
    (∀ module name i, findExportFunc module name s = .ok i →
      findExportFunc module name s' = .ok i) ∧
    (∀ module name i, findGlobal module name s = .ok i → findGlobal module name s' = .ok i) ∧
    (∀ module func ps rs, checkFuncSignature module func ps rs s = .ok →
      checkFuncSignature module func ps rs s' = .ok) ∧
    (∀ module f, moduleStart module s = some (.ok f) → moduleStart module s' = some (.ok f)) :=
  ⟨fun _ _ => findModule_stable h.retains, fun _ _ _ => findExportFunc_stable h.retains,
    fun _ _ _ => findGlobal_stable h.retains, fun _ _ _ _ => checkFuncSignature_stable h.retains,
    fun _ _ => moduleStart_stable h.retains⟩

/-- Another module of the same name is loaded, and the function runs. -/
theorem Capi.Calls.lookups_stable_exportingFunc : ∃ s calls s',
    emptySession.load? [0x61] exportingFunc = some s ∧
    replay .none .quiet [.loadModule simpleEnv [0x61] (Reader.new (.ofBytes exportingFunc)),
      .invoke 0 0 [.fromValue (.i32 7)], .run 9] s = some (calls, s') ∧
    findExportFunc 0 [0x66] s = .ok 0 ∧ findExportFunc 0 [0x66] s' = .ok 0 := by
  have hrun : ((emptySession.load? [0x61] exportingFunc).bind fun s =>
      (replay .none .quiet [.loadModule simpleEnv [0x61] (Reader.new (.ofBytes exportingFunc)),
        .invoke 0 0 [.fromValue (.i32 7)], .run 9] s).map fun _ =>
          decide (findExportFunc 0 [0x66] s = .ok 0)) = some true := by
    decide +kernel
  obtain ⟨s, h₀, hrun⟩ := Option.bind_eq_some_iff.1 hrun
  obtain ⟨⟨calls, s'⟩, h₁, hfound⟩ := Option.map_eq_some_iff.1 hrun
  have hfound := of_decide_eq_true hfound
  exact ⟨s, calls, s', h₀, h₁, hfound,
    (Capi.Calls.lookups_stable (replay_trace h₁).calls).2.1 0 [0x66] 0 hfound⟩

/-- A function that the embedder has found, and whose signature it has checked, can be called
at any later point at which nothing runs: the call is accepted, unless the frame of the function
does not fit on the stack. -/
theorem Capi.Trace.found_callable {setup : HostSetup} {stackSize : ℕ} {s s' : Session η}
    {calls : List (Call η × Answer)} (hregular : host.Regular setup.hostModules)
    (hsmall : stackSize < 2 ^ 31) (hs : s.Abides setup floats host stackSize)
    {module func : U32} {name : Name} {ps rs : List Char}
    (hfind : findExportFunc module name s = .ok func)
    (hsig : checkFuncSignature module func ps rs s = .ok) (h : Trace floats host s calls s')
    (hidle : s'.engine.isIdle) {params : List CValue} {vs : List Value}
    (hvs : params.mapM CValue.tryToValue = some vs) (htypes : tryNew ps = .ok (vs.map Value.type)) :
    ∃ a t, invoke module func params s' = some (a, t) ∧ (a = .ok ∨ a = .stackOverflow) :=
  invoke_found (h.safe (hs.safe hregular hsmall)) hidle
    (findExportFunc_stable h.calls.retains hfind)
    (checkFuncSignature_stable h.calls.retains hsig) hvs htypes

/-- The function is called again after it has run. -/
theorem Capi.Trace.found_callable_exportingFunc : ∃ s calls s',
    emptySession.load? [0x61] exportingFunc = some s ∧
    replay .none .quiet [.invoke 0 0 [.fromValue (.i32 7)], .run 9] s = some (calls, s') ∧
    ∃ a t, invoke 0 0 [.fromValue (.i32 8)] s' = some (a, t) ∧ (a = .ok ∨ a = .stackOverflow) := by
  have hrun : ((emptySession.load? [0x61] exportingFunc).bind fun s =>
      (replay .none .quiet [.invoke 0 0 [.fromValue (.i32 7)], .run 9] s).map fun p =>
        (decide (findExportFunc 0 [0x66] s = .ok 0), checkFuncSignature 0 0 ['i'] ['i'] s,
          p.2.engine.isIdle)) = some (true, .ok, true) := by
    decide +kernel
  obtain ⟨s, h₀, hrun⟩ := Option.bind_eq_some_iff.1 hrun
  obtain ⟨⟨calls, s'⟩, h₁, hrun⟩ := Option.map_eq_some_iff.1 hrun
  simp only [Prod.mk.injEq] at hrun
  obtain ⟨hfound, hsig, hidle⟩ := hrun
  exact ⟨s, calls, s', h₀, h₁, Capi.Trace.found_callable quiet_regular (by decide)
    (emptySession_abides.step (.free rfl (Session.load?_step h₀))) (of_decide_eq_true hfound) hsig
    (replay_trace h₁) hidle rfl rfl⟩

/-! ### The start function -/

/-- The start function that the embedder asks for is code without parameters. -/
theorem Capi.moduleStart_eq_ok {s : Session η} (hs : s.engine.store.Bounded)
    (hwell : s.engine.store.WellFormed) {module : U32} {f : U32 × U32}
    (h : moduleStart module s = some (.ok f)) :
    f.2.toNat ≤ 0xFFFF ∧ ∃ m g ty, s.engine.store.modules[f.1.toNat]? = some m ∧
      m.functions[f.2.toNat]? = some g ∧ m.types[g.ty]? = some ty ∧ ty.params = [] := by
  have hindex : ∀ i : U16, (i.setWidth 32).toNat = i.toNat := fun i => by
    rw [BitVec.toNat_setWidth, Nat.mod_eq_of_lt (Nat.lt_trans i.isLt (by decide))]
  have hmodule : ∀ q : ModuleRef, (q.setWidth 32).toNat = q.toNat := fun q => by
    rw [BitVec.toNat_setWidth, Nat.mod_eq_of_lt (Nat.lt_trans q.isLt (by decide))]
  unfold moduleStart at h
  split at h
  · cases h
  · next m hm =>
    split at h
    · cases h
    · next r hr =>
      obtain ⟨hty, -⟩ := (hwell m (List.mem_of_getElem? hm)).start r hr
      obtain ⟨ref, href, hf⟩ := Option.map_eq_some_iff.1 h
      cases hf
      refine ⟨hindex ref.index ▸ Nat.le_of_lt_succ ref.index.isLt, ?_⟩
      simp only [hindex, hmodule]
      cases r with
      | module index =>
          cases href
          obtain ⟨g, hg, hty⟩ := Option.bind_eq_some_iff.1 hty
          exact ⟨m, g, _, hs.linked.module?_ofNat hm, hg, hty, rfl⟩
      | host q i => cases href
      | extern_ q index =>
          cases href
          obtain ⟨em, hem, hty⟩ := Option.bind_eq_some_iff.1 hty
          obtain ⟨g, hg, hty⟩ := Option.bind_eq_some_iff.1 hty
          exact ⟨em, g, _, hem, hg, hty, rfl⟩

/-- The start function of a module, which the embedder may ask for at any time, can be called
whenever nothing runs, unless its frame does not fit on the stack. -/
theorem Capi.Trace.start_callable {setup : HostSetup} {stackSize : ℕ} {s s' : Session η}
    {calls : List (Call η × Answer)} (hregular : host.Regular setup.hostModules)
    (hsmall : stackSize < 2 ^ 31) (hs : s.Abides setup floats host stackSize)
    (h : Trace floats host s calls s') (module : U32) :
    ∃ x, moduleStart module s = some x ∧ ∀ f, x = .ok f → s'.engine.isIdle →
      ∃ a t, invoke f.1 f.2 [] s' = some (a, t) ∧ (a = .ok ∨ a = .stackOverflow) := by
  have habides' := hs.trace hregular hsmall h
  obtain ⟨x, hx⟩ := moduleStart_answers hs.reachable.wellFormed.2 module
  refine ⟨x, hx, ?_⟩
  rintro f rfl hidle
  obtain ⟨hbounded, hwell⟩ := habides'.reachable.wellFormed
  obtain ⟨hfunc, m, g, ty, hm, hg, hty, hparams⟩ :=
    moduleStart_eq_ok hbounded hwell (moduleStart_stable h.calls.retains hx)
  have hnone : ([] : List CValue).mapM CValue.tryToValue = some [] := rfl
  exact invoke_accepted (habides'.safe hregular hsmall) hidle hfunc hm hg hty (Nat.zero_le _) hnone
    hparams.symm

/-- The start function is called again after it has run. -/
theorem Capi.Trace.start_callable_exportingStart : ∃ s calls s' f,
    emptySession.load? [0x61] exportingStart = some s ∧
    replay .none .quiet [.invoke 0 0 [], .run 9] s = some (calls, s') ∧
    moduleStart 0 s = some (.ok f) ∧
    ∃ a t, invoke f.1 f.2 [] s' = some (a, t) ∧ (a = .ok ∨ a = .stackOverflow) := by
  have hrun : ((emptySession.load? [0x61] exportingStart).bind fun s =>
      (replay .none .quiet [.invoke 0 0 [], .run 9] s).map fun p =>
        (moduleStart 0 s, p.2.engine.isIdle)) = some (some (.ok (0, 0)), true) := by
    decide +kernel
  obtain ⟨s, h₀, hrun⟩ := Option.bind_eq_some_iff.1 hrun
  obtain ⟨⟨calls, s'⟩, h₁, hrun⟩ := Option.map_eq_some_iff.1 hrun
  obtain ⟨hstart, hidle⟩ := Prod.mk.inj hrun
  obtain ⟨x, hx, hcallable⟩ := Capi.Trace.start_callable quiet_regular (by decide)
    (emptySession_abides.step (.free rfl (Session.load?_step h₀))) (replay_trace h₁) 0
  rw [hstart] at hx
  obtain rfl := Option.some.inj hx
  exact ⟨s, calls, s', (0, 0), h₀, h₁, hstart, hcallable _ rfl hidle⟩

end SpaceWasm
