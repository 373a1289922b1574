import SpaceWasm.EntryPoints
import SpaceWasm.Session

/-!
# Sessions that abide by the protocol

After a pause the embedder resumes or resets, and calls nothing else on the engine. Then
an engine rests, or it runs an activation of a function of its store: what a round takes
for granted holds of every session.
-/

namespace SpaceWasm

open Fallible Relation

variable {η : Type} {floats : FloatOps} {host : HostEnv η} {code : CodeBuilder}

/-- A call that abides by the protocol. -/
inductive ProtocolStep (floats : FloatOps) (host : HostEnv η) (s : Session η) :
    Session η → Prop where
  | free {s' : Session η} : s.engine.hostPauseResult = none → SessionStep floats host s s' →
      ProtocolStep floats host s s'
  | resumed (v : Option Value) {e : Engine η} : resume v s.engine = .ok () e →
      ProtocolStep floats host s (s.withEngine e)
  | resumeRejected (v : Option Value) {err : ResumeError} {e : Engine η} :
      resume v s.engine = .error err e → ProtocolStep floats host s (s.withEngine e)
  | reset : ProtocolStep floats host s (s.withEngine s.engine.reset)
  | outside (world : η) (writes : List ByteWrite) :
      ProtocolStep floats host s
        (s.withEngine { s.engine with world := world, store := s.engine.store.writeBytes writes })
  | setGlobal (r : ModuleRef) (x : U16) (v : RawValue) :
      ProtocolStep floats host s
        (s.withEngine { s.engine with store := s.engine.store.setGlobal r x v })

theorem ProtocolStep.session {s s' : Session η} (h : ProtocolStep floats host s s') :
    SessionStep floats host s s' := by
  cases h with
  | free _ h => exact h
  | resumed v h => exact .resumed v h
  | resumeRejected v h => exact .resumeRejected v h
  | reset => exact .reset
  | outside world writes => exact .outside world writes
  | setGlobal r x v => exact .setGlobal r x v

/-- The sessions of an embedder that abides by the protocol. -/
def Session.Abides (setup : HostSetup) (floats : FloatOps) (host : HostEnv η) (stackSize : ℕ)
    (s : Session η) : Prop :=
  ∃ store code world, setup.store = .ok store ∧
    ReflTransGen (ProtocolStep floats host) ⟨Engine.new stackSize store world, code⟩ s

theorem Session.Abides.step {setup : HostSetup} {stackSize : ℕ} {s s' : Session η}
    (h : s.Abides setup floats host stackSize) (hstep : ProtocolStep floats host s s') :
    s'.Abides setup floats host stackSize := by
  obtain ⟨store, code, world, hstore, hsteps⟩ := h
  exact ⟨store, code, world, hstore, hsteps.tail hstep⟩

/-! ### Engines -/

/-- The engine rests, or it runs an activation. -/
def Engine.Sited (e : Engine η) (code : CodeBuilder) : Prop :=
  e.Rests ∨ ∃ a rest h, e.Running e.store code a rest h

/-- What holds of an engine in every session that abides by the protocol. -/
structure Engine.Safe (e : Engine η) (host : HostEnv η) (code : CodeBuilder) : Prop where
  bounded : e.store.Bounded
  coded : e.store.Coded code
  coherent : e.pc ≠ JumpTarget.sentinel → e.context.Coherent
  regular : host.Regular e.store.hostModules
  small : e.stack.words.length < 2 ^ 31
  sited : e.Sited code

theorem Store.Bounded.runs {s s' : Store} (hs : s.Bounded) (h : s.Runs s') : s'.Bounded := by
  refine ⟨h.linked hs.linked, ?_, ?_⟩
  · rw [h.modules, h.maxModules]
    exact hs.modules_le
  · rw [h.maxModules]
    exact hs.maxModules_le

theorem Store.Coded.runs {s s' : Store} (hs : s.Coded code) (h : s.Runs s') : s'.Coded code := by
  refine hs.keeps h.keeps (fun m' hm' => ?_) (.refl code)
  obtain ⟨i, hi⟩ := List.mem_iff_getElem?.1 hm'
  have hlt := h.modules ▸ (List.getElem?_eq_some_iff.1 hi).1
  obtain ⟨m'', hm'', halike⟩ := h.module i _ (List.getElem?_eq_getElem hlt)
  obtain rfl := Option.some.inj (hi.symm.trans hm'')
  exact ⟨_, List.getElem_mem hlt, halike⟩

namespace Engine

variable {e e' : Engine η}

theorem Sited.idle (h : e.Sited code) (hpc : e.pc = JumpTarget.sentinel) : e.Rests := by
  rcases h with h | ⟨a, rest, n, h⟩
  · exact h
  · exact absurd hpc h.at_.ne_sentinel

theorem Sited.running (h : e.Sited code) (hpc : e.pc ≠ JumpTarget.sentinel) :
    ∃ a rest h, e.Running e.store code a rest h := by
  rcases h with h | h
  · exact absurd h.pc hpc
  · exact h

theorem Safe.ready (h : e.Safe host code) (hpc : e.pc ≠ JumpTarget.sentinel)
    (hpause : e.hostPauseResult = none) : e.Ready ⟨code.pages, floats, host⟩ code :=
  ⟨rfl, h.coded, h.bounded.linked, h.coherent hpc, h.regular, h.small, hpause⟩

/-- Code keeps an engine safe, wherever it goes. -/
theorem Safe.runs (h : e.Safe host code) (hruns : e.store.Runs e'.store)
    (hcoherent : e'.pc ≠ JumpTarget.sentinel → e'.context.Coherent)
    (hlength : e'.stack.words.length = e.stack.words.length) (hsited : e'.Sited code) :
    e'.Safe host code where
  bounded := h.bounded.runs hruns
  coded := h.coded.runs hruns
  coherent := hcoherent
  regular := hruns.hostModules.symm ▸ h.regular
  small := hlength.symm ▸ h.small
  sited := hsited

/-! ### Rounds -/

section Rounds

variable {a : Activation} {rest : List Activation} {r : RoundResult} {t t' : Engine η}

theorem Advance.running {s : Store} (h : Advance 1 s code a rest e t) :
    ∃ a rest h, t.Running s code a rest h := by
  cases h with
  | stays running | enters running | leaves _ _ running => exact ⟨_, _, _, running⟩

theorem Advance.length {s : Store} (h : Advance 1 s code a rest e t) :
    t.stack.words.length = e.stack.words.length := by
  cases h with
  | stays _ stack => exact stack.length
  | enters _ _ stack => exact stack.length
  | leaves _ _ _ _ _ stack => exact stack.length

theorem RoundsTo.length {s : Store} (h : RoundsTo s code a rest e r t t') :
    t.stack.words.length = e.stack.words.length := by
  cases h with
  | next advance => exact advance.length
  | pause _ _ stack => exact stack.length
  | trap _ _ stack => exact stack.length
  | finished _ _ _ _ stack => exact stack.length

theorem RoundsTo.sited {s : Store} (h : RoundsTo s code a rest e r t t') (hs : s.Runs t.store) :
    t.Sited code := by
  cases h with
  | next advance =>
      obtain ⟨b, rest', n, hb⟩ := advance.running
      exact .inr ⟨b, rest', n, hb.runs hs⟩
  | pause running => exact .inr ⟨_, _, _, running.runs hs⟩
  | trap _ rests => exact .inl rests
  | finished _ _ rests => exact .inl rests

theorem RoundsTo.twin {s : Store} (h : RoundsTo s code a rest e r t t') : t.Matches t' := by
  cases h with
  | next _ _ twin | pause _ _ _ twin | trap _ _ _ twin => exact twin
  | finished _ _ _ _ _ _ _ _ _ twin => exact twin

theorem RoundsTo.regular {s : Store} (h : RoundsTo s code a rest e r t t') :
    r ≠ some (.trap .malformedIr) := by
  cases h with
  | trap regular =>
      intro heq
      cases heq
      exact regular rfl
  | _ => simp

theorem RoundsTo.free {s : Store} (h : RoundsTo s code a rest e none t t') :
    t.hostPauseResult = none := by
  cases h with
  | next _ pause => exact pause

/-- A round of an engine that runs the activation `a`. -/
theorem Safe.roundsTo (h : e.Safe host code) {n : ℕ} (hrun : e.Running e.store code a rest n)
    (hpause : e.hostPauseResult = none)
    (hround : runRound ⟨code.pages, floats, host⟩ e = some (r, t)) :
    ∃ t', RoundsTo e.store code a rest e r t t' := by
  rcases hrun.round (.refl e) (h.ready hrun.at_.ne_sentinel hpause) with
    ⟨r', t', t'', hround', -, hto⟩ | ⟨-, -, hnone, -⟩
  · rw [hround] at hround'
    cases hround'
    exact ⟨t'', hto⟩
  · rw [hround] at hnone
    cases hnone

theorem runRound_idle {env : ExecEnv η} (hpc : e.pc = JumpTarget.sentinel) :
    runRound env e = some (some .finished, e) := if_pos hpc

/-- A round keeps an engine safe. -/
theorem Safe.round (h : e.Safe host code) (hpause : e.hostPauseResult = none)
    (hround : runRound ⟨code.pages, floats, host⟩ e = some (r, t)) :
    t.Safe host code ∧ (r = none → t.hostPauseResult = none) ∧ r ≠ some (.trap .malformedIr) := by
  by_cases hpc : e.pc = JumpTarget.sentinel
  · rw [runRound_idle hpc] at hround
    cases hround
    exact ⟨h, by simp, by simp⟩
  · obtain ⟨a, rest, n, hrun⟩ := h.sited.running hpc
    obtain ⟨t', hto⟩ := h.roundsTo hrun hpause hround
    have hcontinues := runRound_continues hround
    refine ⟨h.runs hcontinues.runs (hcontinues.coherent h.coherent) hto.length
      (hto.sited hcontinues.runs), ?_, hto.regular⟩
    rintro rfl
    exact hto.free

/-- So does a run, and it does not meet code that the decoder cannot read. -/
theorem Safe.run (h : e.Safe host code) (hpause : e.hostPauseResult = none) {n : ℕ}
    {r : InterpreterResult} (hrun : run ⟨code.pages, floats, host⟩ n e = some (r, t)) :
    t.Safe host code ∧ r ≠ .trap .malformedIr := by
  refine boundedRun_ends (I := fun e => e.Safe host code ∧ e.hostPauseResult = none)
    (Q := fun r t => t.Safe host code ∧ r ≠ .trap .malformedIr) (fun e he => ⟨he.1, by simp⟩)
    (fun e r t he hround => ?_) ⟨h, hpause⟩ hrun
  obtain ⟨hsafe, hfree, hregular⟩ := he.1.round he.2 hround
  cases r with
  | none => exact ⟨hsafe, hfree rfl⟩
  | some r => exact ⟨hsafe, fun heq => hregular (congrArg some heq)⟩

end Rounds

/-! ### Entry points -/

/-- What an accepted call makes of a resting engine. -/
theorem Safe.invoke (h : e.Safe host code) {f : WasmRef} {params : List Value} {t : Engine η}
    (hinvoke : SpaceWasm.invoke f params e = .ok () t) :
    e.Rests ∧ ∃ m func ty mem table words as, e.store.module? f.module = some m ∧
      m.functions[f.index.toNat]? = some func ∧ func.Declared m.types ty ∧
      params.map Value.type = ty.params ∧
      wordsOf ty.params + func.requiredStackWords ≤ e.stack.words.length ∧
      e.store.getMemory f.module = some mem ∧ e.store.getTable f.module = some table ∧
      Entered (wordsOf ty.params) func (func.linkWord (wordsOf ty.params) 0) JumpTarget.sentinel
        (putValues params 0 e.stack.words) words ∧
      t = e.invoked f.module mem table func (wordsOf ty.params) words as := by
  have hrest : e.Rests := by
    refine h.sited.idle (Decidable.not_not.1 fun hpc => ?_)
    rw [invoke_busy hpc] at hinvoke
    cases hinvoke
  obtain ⟨m, func, ty, hmodule, hfunc, htype⟩ := invoke_exists hrest
    (show SpaceWasm.invoke f params e ≠ .panic by rw [hinvoke]; simp)
  obtain ⟨mem, hmem⟩ := h.bounded.linked.getMemory_eq hmodule
  obtain ⟨table, htable⟩ := h.bounded.linked.getTable_eq hmodule
  obtain ⟨ty', hdecl⟩ := (h.coded m (List.mem_of_getElem? hmodule)).declared func
    (List.mem_of_getElem? hfunc)
  obtain rfl := Option.some.inj (hdecl.type.symm.trans htype)
  cases hrejection : func.rejection ty' params e.stack.words.length with
  | some err =>
      obtain ⟨words, touched, -, hrun⟩ := invoke_error hrest hmodule hfunc htype hrejection
      rw [hinvoke] at hrun
      cases hrun
  | none =>
      obtain ⟨words, as, htypes, hroom, hentered, hrun⟩ :=
        invoke_ok hrest hmodule hfunc htype hrejection hmem htable
      rw [hinvoke] at hrun
      cases hrun
      exact ⟨hrest, m, func, ty', mem, table, words, as, hmodule, hfunc, hdecl, htypes, hroom, hmem,
        htable, hentered, rfl⟩

/-- What a rejected call makes of an engine: nothing beside stale words. -/
theorem Safe.invokeRejected (h : e.Safe host code) {f : WasmRef} {params : List Value}
    {err : InvokeError} {t : Engine η} (hinvoke : SpaceWasm.invoke f params e = .error err t) :
    t = e ∨ e.Rests ∧ ∃ words touched, words.length = e.stack.words.length ∧
      t = e.withStack 0 words touched := by
  by_cases hpc : e.pc = JumpTarget.sentinel
  · have hrest := h.sited.idle hpc
    obtain ⟨m, func, ty, hmodule, hfunc, htype⟩ := invoke_exists hrest
      (show SpaceWasm.invoke f params e ≠ .panic by rw [hinvoke]; simp)
    cases hrejection : func.rejection ty params e.stack.words.length with
    | some err' =>
        obtain ⟨words, touched, hlength, hrun⟩ := invoke_error hrest hmodule hfunc htype hrejection
        rw [hinvoke] at hrun
        cases hrun
        exact .inr ⟨hrest, words, touched, hlength, rfl⟩
    | none =>
        obtain ⟨mem, hmem⟩ := h.bounded.linked.getMemory_eq hmodule
        obtain ⟨table, htable⟩ := h.bounded.linked.getTable_eq hmodule
        obtain ⟨words, as, -, -, -, hrun⟩ :=
          invoke_ok hrest hmodule hfunc htype hrejection hmem htable
        rw [hinvoke] at hrun
        cases hrun
  · rw [invoke_busy hpc] at hinvoke
    cases hinvoke
    exact .inl rfl

/-- A pending pause is one of a running engine, with room for the result. -/
theorem Safe.resume_room (h : e.Safe host code) {ret : ResultType}
    (hp : e.hostPauseResult = some ret) :
    (∃ a rest n, e.Running e.store code a rest n) ∧ e.sp + ret.words ≤ e.stack.words.length := by
  have hpc : e.pc ≠ JumpTarget.sentinel := fun hpc => by
    rw [(h.sited.idle hpc).pause] at hp
    cases hp
  obtain ⟨a, rest, n, hrun⟩ := h.sited.running hpc
  refine ⟨⟨a, rest, n, hrun⟩, ?_⟩
  have hsp := hrun.sp
  rw [pendingWords, hp, Option.elim_some] at hsp
  have hle := hrun.at_.le
  have hhigh := hrun.chain.high_le
  have heq : a.high = a.base + a.func.stackUsage := rfl
  omega

/-- A result that is accepted is pushed into the activation that made the host call. -/
theorem Safe.resume (h : e.Safe host code) {v : Option Value} {t : Engine η}
    (hresume : SpaceWasm.resume v e = .ok () t) :
    ∃ a rest n as, e.Running e.store code a rest n ∧
      e.hostPauseResult = some (v.map Value.type) ∧
      e.sp + ResultType.words (v.map Value.type) ≤ e.stack.words.length ∧ t = e.resumed v as := by
  cases hp : e.hostPauseResult with
  | none =>
      rw [resume_notPaused hp] at hresume
      cases hresume
  | some ret =>
      by_cases hv : v.map Value.type = ret
      · obtain ⟨⟨a, rest, n, hrun⟩, hroom⟩ := h.resume_room hp
        obtain ⟨as, -, hrun'⟩ := resume_ok hp hv hroom
        rw [hresume] at hrun'
        cases hrun'
        exact ⟨a, rest, n, as, hrun, by rw [hv], hv ▸ hroom, rfl⟩
      · rw [resume_mismatch hp hv] at hresume
        cases hresume

/-- A rejected result changes nothing. -/
theorem resume_rejected {v : Option Value} {err : ResumeError} {t : Engine η}
    (hresume : SpaceWasm.resume v e = .error err t) : t = e :=
  (resume_guarded v e).error rfl hresume

end Engine

/-! ### Sessions -/

/-- What holds of a session that abides by the protocol. -/
def Session.Safe (s : Session η) (host : HostEnv η) : Prop := s.engine.Safe host s.code

/-- An engine that has changed its store, as code may. -/
theorem Engine.Running.store {e : Engine η} {a : Activation} {rest : List Activation} {h : ℕ}
    (hrun : e.Running e.store code a rest h) {s : Store} (world : η) (hruns : e.store.Runs s) :
    Engine.Running { e with world := world, store := s } s code a rest h := by
  have hrun := hrun.runs hruns
  exact ⟨hrun.at_, hrun.chain, hrun.module, hrun.fp, hrun.base_le, hrun.sp, hrun.jumped⟩

theorem Engine.Safe.store {e : Engine η} (h : e.Safe host code) {s : Store} (world : η)
    (hruns : e.store.Runs s) : Engine.Safe { e with world := world, store := s } host code := by
  refine h.runs hruns (fun hpc => ?_) rfl ?_
  · have hcoherent := h.coherent hpc
    exact ⟨(hruns.getMemory e.module).trans hcoherent.memory,
      (hruns.getTable e.module).trans hcoherent.table⟩
  · rcases h.sited with hrest | ⟨a, rest, n, hrun⟩
    · exact .inl ⟨hrest.pc, hrest.sp, hrest.fp, hrest.jumped, hrest.pause⟩
    · exact .inr ⟨a, rest, n, hrun.store world hruns⟩

theorem LoadStep.keeps {t t' : LoadTarget} (h : LoadStep t t') : t.store.Keeps t'.store := by
  cases h with
  | loaded env name wasm r hr =>
      obtain ⟨m, v, -, hgrows, -, hpush, -⟩ := (loadModule_frame env name wasm t .all fun _ _ =>
        LoadState.loadWrites_all _ _ _).ok rfl hr
      exact hgrows.store.keeps.trans (Store.Keeps.push hpush)
  | failed env name wasm e hr =>
      exact ((loadModule_frame env name wasm t .all fun _ _ =>
        LoadState.loadWrites_all _ _ _).error rfl hr).store.keeps

/-- A load into an idle engine. -/
theorem Session.Safe.load {s : Session η} (h : s.Safe host) (hidle : s.engine.isIdle)
    {t : LoadTarget} (hstep : LoadStep s.target t) : (s.withTarget t).Safe host := by
  have hpc : s.engine.pc = JumpTarget.sentinel := of_decide_eq_true hidle
  have hrest := h.sited.idle hpc
  have hcoded : LoadTarget.Coded s.target := h.coded
  exact ⟨hstep.bounded h.bounded, hcoded.step hstep, fun hne => absurd hpc hne,
    hstep.keeps.hostModules.symm ▸ h.regular, h.small,
    .inl ⟨hrest.pc, hrest.sp, hrest.fp, hrest.jumped, hrest.pause⟩⟩

/-- Every call that abides by the protocol keeps a session safe. -/
theorem ProtocolStep.safe {s s' : Session η} (h : ProtocolStep floats host s s')
    (hs : s.Safe host) : s'.Safe host := by
  have hresumed : ∀ {v : Option Value} {e : Engine η}, resume v s.engine = .ok () e →
      e.Safe host s.code := by
    intro v e hresume
    obtain ⟨a, rest, n, as, hrun, hp, hroom, rfl⟩ := hs.resume hresume
    exact hs.runs (.refl _) hs.coherent (s.engine.resumed_words v as).length
      (.inr ⟨a, rest, n, hrun.resumed hp rfl as⟩)
  have hreset : s.engine.reset.Safe host s.code :=
    hs.runs (.refl _) (fun hne => absurd rfl hne) rfl (.inl ⟨rfl, rfl, rfl, rfl, rfl⟩)
  cases h with
  | resumed v hresume => exact hresumed hresume
  | resumeRejected v hresume =>
      rw [Engine.resume_rejected hresume]
      exact hs
  | reset => exact hreset
  | outside world writes => exact hs.store world (.writeBytes _ _)
  | setGlobal r x v => exact hs.store s.engine.world (.setGlobal _ _ _ _)
  | free hpause h =>
      cases h with
      | loaded env name wasm hidle hload => exact hs.load hidle (.loaded env name wasm _ hload)
      | loadFailed env name wasm hidle hload => exact hs.load hidle (.failed env name wasm _ hload)
      | invoked f params hinvoke =>
          obtain ⟨hrest, m, func, ty, mem, table, words, as, hmodule, hfunc, hdecl, htypes,
              hroom, hmem,
            htable, hentered, rfl⟩ := hs.invoke hinvoke
          have hlength := (putValues_same params 0 s.engine.stack.words).length
          exact hs.runs (.refl _) (fun _ => ⟨hmem, htable⟩) (hentered.same.length.trans hlength)
            (.inr ⟨_, _, _, hrest.invoked_running hs.coded hmodule
              (List.mem_of_getElem? hfunc) hdecl
              hroom hlength hentered⟩)
      | invokeRejected f params hinvoke =>
          rcases hs.invokeRejected hinvoke with rfl | ⟨hrest, words, touched, hlength, rfl⟩
          · exact hs
          · exact hs.runs (.refl _) (fun hne => absurd hrest.pc hne) hlength
              (.inl ⟨hrest.pc, rfl, hrest.fp, hrest.jumped, hrest.pause⟩)
      | ran fuel hrun => exact (hs.run hpause hrun).1
      | resumed v hresume => exact hresumed hresume
      | resumeRejected v hresume =>
          rw [Engine.resume_rejected hresume]
          exact hs
      | reset => exact hreset
      | outside world writes => exact hs.store world (.writeBytes _ _)
      | setGlobal r x v => exact hs.store s.engine.world (.setGlobal _ _ _ _)

theorem Session.safe_new {setup : HostSetup} {store : Store} {stackSize : ℕ}
    (hregular : host.Regular setup.hostModules) (hsmall : stackSize < 2 ^ 31)
    (h : setup.store = .ok store) (world : η) (code : CodeBuilder) :
    (Session.mk (Engine.new stackSize store world) code).Safe host := by
  obtain ⟨hmodules, hhost, -⟩ := HostSetup.store_eq h
  refine ⟨HostSetup.bounded h, fun m hm => ?_, fun hne => absurd rfl hne, ?_, ?_,
    .inl ⟨rfl, rfl, rfl, rfl, rfl⟩⟩
  · change m ∈ store.modules at hm
    rw [hmodules] at hm
    cases hm
  · change host.Regular store.hostModules
    rwa [hhost]
  · change (List.replicate stackSize 0).length < 2 ^ 31
    rwa [List.length_replicate]

theorem Session.Abides.safe {setup : HostSetup} {stackSize : ℕ} {s : Session η}
    (hregular : host.Regular setup.hostModules) (hsmall : stackSize < 2 ^ 31)
    (h : s.Abides setup floats host stackSize) : s.Safe host := by
  obtain ⟨store, code, world, hstore, hsteps⟩ := h
  induction hsteps with
  | refl => exact Session.safe_new hregular hsmall hstore world code
  | tail _ hstep ih => exact hstep.safe ih

end SpaceWasm
