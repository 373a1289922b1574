import SpaceWasm.Capi
import SpaceWasm.Protocol

/-!
# Traces of the C interface

An embedder in C abides by the protocol as soon as it does not run a paused engine: every
other call checks the state of the engine itself. What two engines answer to the same
calls depends on nothing that earlier calls have left behind.
-/

namespace SpaceWasm

open Fallible Relation

variable {η : Type} {floats : FloatOps} {host : HostEnv η} {code : CodeBuilder}
  {e e' : Engine η}

namespace Engine

/-! ### Engines at rest -/

/-- Two engines at rest over one store. Whatever else earlier calls have left in them may
differ. -/
structure Idles (e e' : Engine η) : Prop where
  left : e.Rests
  right : e'.Rests
  store : e'.store = e.store
  world : e'.world = e.world
  length : e'.stack.words.length = e.stack.words.length

theorem Matches.rests (hm : e.Matches e') (h : e.Rests) : e'.Rests :=
  ⟨hm.pc.trans h.pc, hm.sp.trans h.sp, hm.fp.trans h.fp, hm.jumped.trans h.jumped,
    hm.pause.trans h.pause⟩

theorem Matches.idles (hm : e.Matches e') (h : e.Rests) : e.Idles e' :=
  ⟨h, hm.rests h, hm.store, hm.world, hm.length⟩

theorem Rests.matches_withStack (h : e.Rests) {words : List U32} (touched : List ℕ)
    (hlength : words.length = e.stack.words.length) : e.Matches (e.withStack 0 words touched) :=
  ⟨rfl, h.sp.symm, hlength, fun i hi => by
    rw [h.sp] at hi
    exact absurd hi (Nat.not_lt_zero i)⟩

theorem Idles.invoked (h : e.Idles e') {r : ModuleRef} {mem : MemRef} {table : TableRef} {f : Func}
    {link pc : U32} {params : List Value} {words words' : List U32} {as as' : List ℕ}
    (hroom : wordsOf (params.map Value.type) ≤ e.stack.words.length)
    (he : Entered (wordsOf (params.map Value.type)) f link pc
      (putValues params 0 e.stack.words) words)
    (he' : Entered (wordsOf (params.map Value.type)) f link pc (putValues params 0 e'.stack.words)
      words') :
    (e.invoked r mem table f (wordsOf (params.map Value.type)) words as).Matches
      (e'.invoked r mem table f (wordsOf (params.map Value.type)) words' as') := by
  have hroom : 0 + wordsOf (params.map Value.type) ≤ e.stack.words.length := by rwa [Nat.zero_add]
  have hargs := putValues_agree params hroom h.length fun i hi => absurd hi (Nat.not_lt_zero i)
  rw [Nat.zero_add] at hargs
  refine ⟨?_, rfl, ?_, he.agree he' hargs⟩
  · simp only [besideStack, Engine.invoked, h.store, h.world, h.left.pause, h.right.pause]
  · exact he'.same.length.trans ((putValues_same params 0 _).length.trans (h.length.trans
      ((putValues_same params 0 _).length.symm.trans he.same.length.symm)))

/-- Engines at rest accept the same calls. -/
theorem Safe.invoke_idles (h : e.Safe host code) (hi : e.Idles e') {f : WasmRef}
    {params : List Value} {t : Engine η} (hinvoke : SpaceWasm.invoke f params e = .ok () t) :
    ∃ t', SpaceWasm.invoke f params e' = .ok () t' ∧ t.Matches t' := by
  obtain ⟨-, m, func, ty, mem, table, words, as, hmodule, hfunc, hdecl, htypes, hroom, hmem,
    htable, hentered, rfl⟩ := h.invoke hinvoke
  have hrejection : func.rejection ty params e'.stack.words.length = none := by
    rw [Func.rejection, if_neg (not_not.2 (by rw [← htypes, List.length_map])),
      if_neg (Nat.not_lt.2 (hi.length ▸ hroom)), if_neg (not_not.2 htypes)]
  obtain ⟨words', as', -, -, hentered', hinvoke'⟩ := invoke_ok hi.right (hi.store.symm ▸ hmodule)
    hfunc hdecl.type hrejection (hi.store.symm ▸ hmem) (hi.store.symm ▸ htable)
  refine ⟨_, hinvoke', ?_⟩
  rw [← htypes] at hroom hentered hentered' ⊢
  exact hi.invoked (Nat.le_trans (Nat.le_add_right _ _) hroom) hentered hentered'

/-- They reject the same calls for the same reason, and go on resting. -/
theorem Safe.invokeRejected_idles (h : e.Safe host code) (hi : e.Idles e') {f : WasmRef}
    {params : List Value} {err : InvokeError} {t : Engine η}
    (hinvoke : SpaceWasm.invoke f params e = .error err t) :
    e.Matches t ∧ ∃ t', SpaceWasm.invoke f params e' = .error err t' ∧ e'.Matches t' := by
  obtain ⟨m, func, ty, hmodule, hfunc, htype⟩ := invoke_exists hi.left
    (show SpaceWasm.invoke f params e ≠ .panic by rw [hinvoke]; simp)
  cases hrejection : func.rejection ty params e.stack.words.length with
  | none =>
      obtain ⟨mem, hmem⟩ := h.bounded.linked.getMemory_eq hmodule
      obtain ⟨table, htable⟩ := h.bounded.linked.getTable_eq hmodule
      obtain ⟨words, as, -, -, -, hrun⟩ :=
        invoke_ok hi.left hmodule hfunc htype hrejection hmem htable
      rw [hinvoke] at hrun
      cases hrun
  | some err' =>
      obtain ⟨words, touched, hwords, hrun⟩ := invoke_error hi.left hmodule hfunc htype hrejection
      obtain ⟨words', touched', hwords', hrun'⟩ := invoke_error hi.right (hi.store.symm ▸ hmodule)
        hfunc htype (hi.length.symm ▸ hrejection)
      rw [hinvoke] at hrun
      cases hrun
      exact ⟨hi.left.matches_withStack touched hwords, _, hrun',
        hi.right.matches_withStack touched' hwords'⟩

/-! ### Matching engines -/

/-- Matching engines run alike. -/
theorem Safe.run_matches (h : e.Safe host code) (hpause : e.hostPauseResult = none)
    (hm : e.Matches e') {n : ℕ} {r : InterpreterResult} {t : Engine η}
    (hrun : SpaceWasm.run ⟨code.pages, floats, host⟩ n e = some (r, t)) :
    ∃ t', SpaceWasm.run ⟨code.pages, floats, host⟩ n e' = some (r, t') ∧ t.Matches t' := by
  refine boundedRun_simulates
    (R := fun e e' => (e.Safe host code ∧ e.hostPauseResult = none) ∧ e.Matches e')
    (Q := fun _ e e' => e.Matches e') (fun _ _ h => h.2) ?_ ⟨⟨h, hpause⟩, hm⟩ hrun
  rintro e e' r t ⟨⟨h, hpause⟩, hm⟩ hround
  obtain ⟨hsafe, hfree, -⟩ := h.round hpause hround
  obtain ⟨t', hround', ht⟩ : ∃ t', runRound ⟨code.pages, floats, host⟩ e' = some (r, t') ∧
      t.Matches t' := by
    by_cases hpc : e.pc = JumpTarget.sentinel
    · rw [runRound_idle hpc] at hround
      cases hround
      exact ⟨e', runRound_idle (hm.pc.trans hpc), hm⟩
    · obtain ⟨a, rest, k, hrun⟩ := h.sited.running hpc
      rcases hrun.round hm (h.ready hpc hpause) with ⟨r₁, u, u', hu, hu', hto⟩ | ⟨-, -, hnone, -⟩
      · rw [hround] at hu
        cases hu
        exact ⟨u', hu', hto.twin⟩
      · rw [hround] at hnone
        cases hnone
  refine ⟨t', hround', ?_⟩
  cases r with
  | none => exact ⟨⟨hsafe, hfree rfl⟩, ht⟩
  | some r => exact ht

/-- They take the same results. -/
theorem Safe.resume_matches (h : e.Safe host code) (hm : e.Matches e') {v : Option Value}
    {t : Engine η} (hresume : SpaceWasm.resume v e = .ok () t) :
    ∃ t', SpaceWasm.resume v e' = .ok () t' ∧ t.Matches t' := by
  obtain ⟨a, rest, n, as, -, hp, hroom, rfl⟩ := h.resume hresume
  obtain ⟨as', -, hresume'⟩ := resume_ok (hm.pause.trans hp) rfl
    (show e'.sp + _ ≤ e'.stack.words.length by rwa [hm.sp, hm.length])
  exact ⟨_, hresume', hm.resumed hroom as as'⟩

theorem Safe.resumeRejected_matches (h : e.Safe host code) (hm : e.Matches e') {v : Option Value}
    {err : ResumeError} {t : Engine η} (hresume : SpaceWasm.resume v e = .error err t) :
    SpaceWasm.resume v e' = .error err e' := by
  cases hp : e.hostPauseResult with
  | none =>
      rw [resume_notPaused hp] at hresume
      cases hresume
      exact resume_notPaused (hm.pause.trans hp) v
  | some ret =>
      by_cases hv : v.map Value.type = ret
      · obtain ⟨as, -, hrun⟩ := resume_ok hp hv (h.resume_room hp).2
        rw [hresume] at hrun
        cases hrun
      · rw [resume_mismatch hp hv] at hresume
        cases hresume
        exact resume_mismatch (hm.pause.trans hp) hv

/-- What holds of an engine does not depend on stale words. -/
theorem Safe.matches (h : e.Safe host code) (hm : e.Matches e') : e'.Safe host code where
  bounded := hm.store ▸ h.bounded
  coded := hm.store ▸ h.coded
  coherent hpc := by
    rw [show e'.context = e.context from (congrArg Engine.context hm.beside :)]
    exact h.coherent (hm.pc ▸ hpc)
  regular := hm.store ▸ h.regular
  small := hm.length ▸ h.small
  sited := by
    rcases h.sited with h | ⟨a, rest, n, h⟩
    · exact .inl (hm.rests h)
    · exact .inr ⟨a, rest, n, hm.store ▸ h.matches hm⟩

theorem Matches.withStore (hm : e.Matches e') (s : Store) :
    Matches { e with store := s } { e' with store := s } :=
  ⟨(congrArg (fun b : Engine η => { b with store := s }) hm.beside :), hm.sp, hm.length, hm.words⟩

theorem Matches.withWorld (hm : e.Matches e') (w : η) :
    Matches { e with world := w } { e' with world := w } :=
  ⟨(congrArg (fun b : Engine η => { b with world := w }) hm.beside :), hm.sp, hm.length, hm.words⟩

theorem Matches.reset (hm : e.Matches e') : e.reset.Matches e'.reset := by
  refine ⟨?_, rfl, hm.length, fun i hi => absurd hi (Nat.not_lt_zero i)⟩
  exact (congrArg Engine.reset hm.beside :)

end Engine

/-! ### Sessions -/

namespace Session

/-- The sessions differ only in stale words of the stack. -/
structure Matches (s t : Session η) : Prop where
  code : t.code = s.code
  engine : s.engine.Matches t.engine

variable {s t u s' : Session η}

theorem Matches.refl (s : Session η) : s.Matches s := ⟨rfl, .refl _⟩

theorem Matches.symm (hm : s.Matches t) : t.Matches s := ⟨hm.code.symm, hm.engine.symm⟩

theorem Matches.idle (hm : s.Matches t) : t.engine.isIdle = s.engine.isIdle := by
  rw [Engine.isIdle, Engine.isIdle, hm.engine.pc]

end Session

/-! ### Calls -/

namespace Capi

variable {s t s' : Session η}

theorem Call.Allowed.matches {c : Call η} (hm : s.Matches t) (hc : c.Allowed s) : c.Allowed t := by
  cases c with
  | run => exact hm.engine.pause.trans hc
  | _ => trivial

section Matching

variable (hs : s.Safe host) (hm : s.Matches t)

include hm in
theorem loadModule_matches {env : LoadEnv} {name : Name} {wasm : Reader} {a : Except Status U32}
    (h : loadModule env name wasm s = some (a, s')) :
    ∃ t', loadModule env name wasm t = some (a, t') ∧ s'.Matches t' := by
  have henv : t.engine.loadEnv env = s.engine.loadEnv env := by
    rw [Engine.loadEnv, Engine.loadEnv, hm.engine.table]
  have htarget : t.target = s.target := by
    rw [Session.target, Session.target, hm.engine.store, hm.code]
  unfold loadModule at h ⊢
  rw [hm.idle, henv, htarget]
  by_cases hidle : ¬s.engine.isIdle
  · rw [if_pos hidle] at h ⊢
    cases h
    exact ⟨t, rfl, hm⟩
  · rw [if_neg hidle] at h ⊢
    split at h <;> cases h <;> exact ⟨_, rfl, rfl, hm.engine.withStore _⟩

include hm in
theorem setGlobal_matches {module index : U32} {value : CValue} {a : Status}
    (h : setGlobal module index value s = (a, s')) :
    ∃ t', setGlobal module index value t = (a, t') ∧ s'.Matches t' := by
  unfold setGlobal at h ⊢
  rw [hm.engine.store]
  split at h <;> cases h
  · exact ⟨t, rfl, hm⟩
  · exact ⟨_, rfl, hm.code, hm.engine.withStore _⟩

include hs hm

theorem invoke_matches {module func : U32} {params : List CValue} {a : Status}
    (h : invoke module func params s = some (a, s')) :
    ∃ t', invoke module func params t = some (a, t') ∧ s'.Matches t' := by
  unfold invoke at h ⊢
  rw [hm.idle, hm.engine.store]
  cases hcheck : checkInvoke module func params s.engine.isIdle s.engine.store with
  | error st =>
      rw [hcheck] at h
      cases h
      exact ⟨t, rfl, hm⟩
  | ok p =>
      have hidle := hs.sited.idle (of_decide_eq_true (checkInvoke_eq_ok hcheck).1)
      have hi := hm.engine.idles hidle
      simp only [hcheck] at h ⊢
      split at h
      · next e hinvoke =>
        obtain ⟨e', hinvoke', he⟩ := Engine.Safe.invoke_idles hs hi hinvoke
        cases h
        rw [hinvoke']
        exact ⟨_, rfl, hm.code, he⟩
      · next err e hinvoke =>
        obtain ⟨he, e', hinvoke', he'⟩ := Engine.Safe.invokeRejected_idles hs hi hinvoke
        cases h
        rw [hinvoke']
        exact ⟨_, rfl, hm.code, he.symm.trans (hm.engine.trans he')⟩
      · cases h

theorem run_matches (hpause : s.engine.hostPauseResult = none) {n : ℕ}
    {a : RunStatus × Option TrapReason} (h : run floats host n s = some (a, s')) :
    ∃ t', run floats host n t = some (a, t') ∧ s'.Matches t' := by
  unfold run at h ⊢
  rw [hm.idle]
  by_cases hidle : s.engine.isIdle
  · rw [if_pos hidle] at h ⊢
    cases h
    exact ⟨t, rfl, hm⟩
  · rw [if_neg hidle] at h ⊢
    obtain ⟨⟨r, e⟩, hrun, h⟩ := Option.map_eq_some_iff.1 h
    cases h
    obtain ⟨e', hrun', he⟩ := Engine.Safe.run_matches hs hpause hm.engine hrun
    rw [Session.env, hm.code, hrun']
    exact ⟨_, rfl, hm.code, he⟩

theorem resumeWith_matches {v : Option Value} {a : Status}
    (h : resumeWith v s = some (a, s')) : ∃ t', resumeWith v t = some (a, t') ∧ s'.Matches t' := by
  unfold resumeWith at h ⊢
  split at h
  · next e hresume =>
    obtain ⟨e', hresume', he⟩ := Engine.Safe.resume_matches hs hm.engine hresume
    cases h
    rw [hresume']
    exact ⟨_, rfl, hm.code, he⟩
  · next err e hresume =>
    have hresume' := Engine.Safe.resumeRejected_matches hs hm.engine hresume
    obtain rfl := Engine.resume_rejected hresume
    cases h
    rw [hresume']
    exact ⟨_, rfl, hm⟩
  · cases h

theorem resumeValue_matches {v : CValue} {a : Status} (h : resumeValue v s = some (a, s')) :
    ∃ t', resumeValue v t = some (a, t') ∧ s'.Matches t' := by
  unfold resumeValue at h ⊢
  cases hv : v.tryToValue with
  | none =>
      rw [hv] at h
      cases h
      exact ⟨t, rfl, hm⟩
  | some v =>
      rw [hv] at h
      exact resumeWith_matches hs hm h

/-- Sessions that differ in stale words give the same answers. -/
theorem Call.matches {c : Call η} (hc : c.Allowed s) {a : Answer}
    (h : c.perform floats host s = some (a, s')) :
    ∃ t', c.perform floats host t = some (a, t') ∧ s'.Matches t' := by
  have hmap : ∀ {β : Type} {f : β → Answer} {x y : Option (β × Session η)},
      x.map (Prod.map f id) = some (a, s') →
      (∀ b, x = some (b, s') → ∃ t', y = some (b, t') ∧ s'.Matches t') →
      ∃ t', y.map (Prod.map f id) = some (a, t') ∧ s'.Matches t' := by
    intro β f x y hx hy
    obtain ⟨⟨b, u⟩, hb, heq⟩ := Option.map_eq_some_iff.1 hx
    cases heq
    obtain ⟨t', rfl, ht⟩ := hy b hb
    exact ⟨t', rfl, ht⟩
  cases c with
  | loadModule env name wasm => exact hmap h fun _ h => loadModule_matches hm h
  | setGlobal module index value =>
      refine hmap (x := some (Capi.setGlobal module index value s))
        (y := some (Capi.setGlobal module index value t)) h fun _ h => ?_
      obtain ⟨t', ht', hmatch⟩ := setGlobal_matches hm (Option.some.inj h)
      exact ⟨t', congrArg some ht', hmatch⟩
  | invoke module func params => exact hmap h fun _ h => invoke_matches hs hm h
  | run fuel => exact hmap h fun _ h => run_matches hs hm hc h
  | resume => exact hmap h fun _ h => resumeWith_matches hs hm h
  | resumeValue v => exact hmap h fun _ h => resumeValue_matches hs hm h
  | reset =>
      cases h
      exact ⟨_, rfl, hm.code, hm.engine.reset⟩
  | ask q =>
      obtain ⟨b, hb, heq⟩ := Option.map_eq_some_iff.1 h
      cases heq
      refine ⟨t, ?_, hm⟩
      rw [Call.perform, q.answer_congr hm.engine.store fun _ => hm.engine.result, hb]
      rfl
  | outside world =>
      cases h
      exact ⟨_, rfl, hm.code, hm.engine.withWorld world⟩

end Matching

/-! ### The protocol -/

/-- A call that is allowed is a call that abides by the protocol, or changes nothing. -/
theorem Call.abides (hs : s.Safe host) {c : Call η} (hc : c.Allowed s) {a : Answer}
    (h : c.perform floats host s = some (a, s')) : ReflGen (ProtocolStep floats host) s s' := by
  have hfree : s.engine.isIdle → s.engine.hostPauseResult = none := fun hidle =>
    (hs.sited.idle (of_decide_eq_true hidle)).pause
  cases Call.performs h with
  | loadRefused | setGlobalRefused | invokeRefused | runIdle | badValue | asked => exact .refl
  | loaded hidle hload => exact .single (.free (hfree hidle) (.loaded _ _ _ hidle hload))
  | loadFailed hidle hload => exact .single (.free (hfree hidle) (.loadFailed _ _ _ hidle hload))
  | setGlobal => exact .single (.setGlobal _ _ _)
  | invoked hcheck hinvoke =>
      exact .single (.free (hfree (checkInvoke_eq_ok hcheck).1) (.invoked _ _ hinvoke))
  | invokeRejected hcheck hinvoke =>
      exact .single (.free (hfree (checkInvoke_eq_ok hcheck).1) (.invokeRejected _ _ hinvoke))
  | ran _ hrun => exact .single (.free hc (.ran _ hrun))
  | resumed _ hresume => exact .single (.resumed _ hresume)
  | resumeRejected _ hresume => exact .single (.resumeRejected _ hresume)
  | reset => exact .single .reset
  | outside => exact .single (.outside _ [])

theorem Call.safe (hs : s.Safe host) {c : Call η} (hc : c.Allowed s) {a : Answer}
    (h : c.perform floats host s = some (a, s')) : s'.Safe host := by
  cases Call.abides hs hc h with
  | refl => exact hs
  | single hstep => exact hstep.safe hs

namespace Trace

variable {calls : List (Call η × Answer)}

theorem safe (h : Trace floats host s calls s') (hs : s.Safe host) : s'.Safe host := by
  induction h with
  | nil => exact hs
  | cons hc hperform _ ih => exact ih (Call.safe hs hc hperform)

/-- A trace abides by the protocol. -/
theorem abides (h : Trace floats host s calls s') (hs : s.Safe host) :
    ReflTransGen (ProtocolStep floats host) s s' := by
  induction h with
  | nil => exact .refl
  | cons hc hperform _ ih =>
      exact (Call.abides hs hc hperform).to_reflTransGen.trans (ih (Call.safe hs hc hperform))

/-- Sessions that differ in stale words have the same traces. -/
theorem matches_ (h : Trace floats host s calls s') (hs : s.Safe host) (hm : s.Matches t) :
    ∃ t', Trace floats host t calls t' ∧ s'.Matches t' := by
  induction h generalizing t with
  | nil => exact ⟨t, .nil t, hm⟩
  | cons hc hperform _ ih =>
      obtain ⟨u, hu, hmatch⟩ := Call.matches hs hm hc hperform
      obtain ⟨t', ht', hmatch'⟩ := ih (Call.safe hs hc hperform) hmatch
      refine ⟨t', .cons (Call.Allowed.matches hm hc) hu ht', hmatch'⟩

end Trace

end Capi

theorem Session.Abides.trace {setup : HostSetup} {stackSize : ℕ} {s s' : Session η}
    {calls : List (Capi.Call η × Capi.Answer)} (hregular : host.Regular setup.hostModules)
    (hsmall : stackSize < 2 ^ 31) (h : s.Abides setup floats host stackSize)
    (htrace : Capi.Trace floats host s calls s') : s'.Abides setup floats host stackSize := by
  have hsafe := h.safe hregular hsmall
  obtain ⟨store, code, world, hstore, hsteps⟩ := h
  exact ⟨store, code, world, hstore, hsteps.trans (htrace.abides hsafe)⟩

/-! ### Calls that are replayed -/

theorem emptySession_abides : emptySession.Abides emptyHost .none .quiet 16 :=
  ⟨emptyStore, emptyBuilder, (), rfl, .refl⟩

theorem quiet_regular : HostEnv.quiet.Regular emptyHost.hostModules :=
  ⟨nofun, nofun⟩

/-- A module with two functions, of which the first one calls the second one. -/
def calling : List U8 :=
  [0x00, 0x61, 0x73, 0x6D, 0x01, 0x00, 0x00, 0x00, 0x01, 0x0A, 0x02, 0x60, 0x00, 0x01, 0x7F, 0x60,
    0x01, 0x7F, 0x01, 0x7F, 0x03, 0x03, 0x02, 0x00, 0x01, 0x0A, 0x12, 0x02, 0x06, 0x00, 0x41, 0x05,
    0x10, 0x01, 0x0B, 0x09, 0x01, 0x01, 0x7E, 0x20, 0x00, 0x41, 0x01, 0x6A, 0x0B]

/-- The session after some rounds of the first function. -/
def callingSession? (fuel : ℕ) : Option (Session Unit) :=
  (Capi.replay .none .quiet [.loadModule simpleEnv [0x61] (Reader.new (.ofBytes calling)),
    .invoke 0 0 [], .run fuel] emptySession).map Prod.snd

theorem callingSession?_abides {fuel : ℕ} {s : Session Unit} (h : callingSession? fuel = some s) :
    s.Abides emptyHost .none .quiet 16 := by
  obtain ⟨⟨calls, t⟩, hreplay, rfl⟩ := Option.map_eq_some_iff.1 h
  exact emptySession_abides.trace quiet_regular (by decide) (Capi.replay_trace hreplay)

end SpaceWasm
