import SpaceWasm.CallDiscipline

/-!
# Leftovers

What an earlier execution has left in an engine, stale words on its stack, the module, the
memory and the table that it caches and its last result, has no influence on what the next
call answers, nor on anything after it: every word is written before it is read. A call
that is refused leaves nothing but stale words.
-/

namespace SpaceWasm

open Relation

variable {η : Type} {floats : FloatOps} {host : HostEnv η} {code : CodeBuilder}
  {e e' t t' : Engine η}

/-! ### Engines at rest -/

namespace Engine.Idles

theorem withStore (h : e.Idles e') (s : Store) :
    Engine.Idles { e with store := s } { e' with store := s } :=
  ⟨⟨h.left.pc, h.left.sp, h.left.fp, h.left.jumped, h.left.pause⟩,
    ⟨h.right.pc, h.right.sp, h.right.fp, h.right.jumped, h.right.pause⟩, rfl, h.world, h.length⟩

theorem withWorld (h : e.Idles e') (w : η) :
    Engine.Idles { e with world := w } { e' with world := w } :=
  ⟨⟨h.left.pc, h.left.sp, h.left.fp, h.left.jumped, h.left.pause⟩,
    ⟨h.right.pc, h.right.sp, h.right.fp, h.right.jumped, h.right.pause⟩, h.store, rfl, h.length⟩

theorem reset (h : e.Idles e') : e.reset.Idles e'.reset :=
  ⟨⟨rfl, rfl, rfl, rfl, rfl⟩, ⟨rfl, rfl, rfl, rfl, rfl⟩, h.store, h.world, h.length⟩

theorem congr (h : e.Idles e') (hm : e.Matches t) (hm' : e'.Matches t') : t.Idles t' :=
  ⟨hm.rests h.left, hm'.rests h.right, hm'.store.trans (h.store.trans hm.store.symm),
    hm'.world.trans (h.world.trans hm.world.symm),
    hm'.length.trans (h.length.trans hm.length.symm)⟩

end Engine.Idles

/-- Two sessions at rest over the same store and the same code. -/
structure Session.Idles (s t : Session η) : Prop where
  code : t.code = s.code
  engine : s.engine.Idles t.engine

/-! ### New frames -/

/-- The engine is at the start of a function: it has no operands, and its local variables
are zero. -/
def Engine.Starts (e : Engine η) (code : CodeBuilder) : Prop :=
  ∃ m f, e.Executing code m f ∧ e.sp = e.fp + 2 + f.localSize ∧
    ∀ i, e.fp + 2 ≤ i → i < e.sp → e.stack.words[i]? = some 0

theorem Engine.Running.starts {a : Activation} {rest : List Activation}
    (hrun : e.Running e.store code a rest 0) (hpause : e.hostPauseResult = none)
    (hzero : ∀ i, a.fp + 2 ≤ i → i < a.base → e.stack.words[i]? = some 0) : e.Starts code := by
  obtain ⟨m, hm⟩ := hrun.executing
  have hsp := hrun.sp
  rw [Engine.pendingWords, hpause, Option.elim_none, Nat.add_zero, Nat.add_zero] at hsp
  refine ⟨m, a.func, hm, ?_, ?_⟩ <;> rw [hsp, hrun.fp]
  · rfl
  · exact hzero

theorem Session.Safe.invoked_starts {s : Session η} (hs : s.Safe host) {f : WasmRef}
    {params : List Value} (hinvoke : invoke f params s.engine = .ok () e) : e.Starts s.code := by
  obtain ⟨hrest, m, func, ty, mem, table, words, as, hmodule, hfunc, hdecl, -, hroom, -, -,
    hentered, rfl⟩ := hs.invoke hinvoke
  refine Engine.Running.starts (hrest.invoked_running hs.coded hmodule
    (List.mem_of_getElem? hfunc) hdecl hroom (putValues_same params 0 _).length hentered)
    hrest.pause hentered.zero

theorem Session.Safe.entered_starts {s : Session η} (hs : s.Safe host)
    (hpause : s.engine.hostPauseResult = none)
    (hround : runRound (s.env floats host) s.engine = some (none, e))
    (henter : s.engine.fp < e.fp) : e.Starts s.code := by
  obtain ⟨b, c, rest, n, -, hrun, -, -, hzero⟩ := Session.called hs hpause hround henter
  exact hrun.starts ((Engine.Safe.round hs hpause hround).2.1 rfl) hzero

/-- Whatever is left on the stack, the local variables of a function are zero when it is
called, by the embedder or by another function. -/
theorem Session.Abides.locals_zero {setup : HostSetup} {stackSize : ℕ} {s : Session η}
    (hregular : host.Regular setup.hostModules) (hsmall : stackSize < 2 ^ 31)
    (h : s.Abides setup floats host stackSize) :
    (∀ f params e, invoke f params s.engine = .ok () e → e.Starts s.code) ∧
      ∀ e, s.engine.hostPauseResult = none →
        runRound (s.env floats host) s.engine = some (none, e) → s.engine.fp < e.fp →
          e.Starts s.code :=
  ⟨fun _ _ _ hinvoke => (h.safe hregular hsmall).invoked_starts hinvoke,
    fun _ hpause hround henter => (h.safe hregular hsmall).entered_starts hpause hround henter⟩

theorem Session.Abides.locals_zero_calling : ∃ s, callingSession? 1 = some s ∧
    (∀ f params e, invoke f params s.engine = .ok () e → e.Starts s.code) ∧
      ∀ e, s.engine.hostPauseResult = none →
        runRound (s.env .none .quiet) s.engine = some (none, e) → s.engine.fp < e.fp →
          e.Starts s.code := by
  obtain ⟨s, hs⟩ := Option.isSome_iff_exists.1
    (show (callingSession? 1).isSome = true by decide +kernel)
  exact ⟨s, hs, Session.Abides.locals_zero quiet_regular (by decide) (callingSession?_abides hs)⟩

/-! ### Calls into engines at rest -/

namespace Capi

variable {s s' u : Session η}

/-- The call starts a function. -/
def Starts (c : Call η) (a : Answer) : Bool :=
  match c, a with
  | .invoke .., .status st => st = .ok
  | _, _ => false

/-- The call asks for the result of the last function. -/
def Call.AsksResult : Call η → Bool
  | .ask q => q.AsksResult
  | _ => false

theorem starts_not_asks {c : Call η} {a : Answer} (h : Starts c a) : ¬c.AsksResult := by
  cases c with
  | ask q => cases h
  | _ => exact Bool.false_ne_true

/-- No result is asked for before a function has been started. -/
def AsksLate : List (Call η × Answer) → Bool
  | [] => true
  | p :: calls => Starts p.1 p.2 || (!p.1.AsksResult && AsksLate calls)

theorem resumeWith_idles (hi : s.Idles u) {v : Option Value} {a : Status}
    (h : resumeWith v s = some (a, s')) :
    ∃ u', resumeWith v u = some (a, u') ∧ s'.Idles u' := by
  unfold resumeWith at h ⊢
  rw [resume_notPaused hi.engine.left.pause] at h
  rw [resume_notPaused hi.engine.right.pause]
  cases h
  exact ⟨_, rfl, hi.code, hi.engine⟩

theorem resumeValue_idles (hi : s.Idles u) {v : CValue} {a : Status}
    (h : resumeValue v s = some (a, s')) :
    ∃ u', resumeValue v u = some (a, u') ∧ s'.Idles u' := by
  unfold resumeValue at h ⊢
  cases hv : v.tryToValue with
  | none =>
      rw [hv] at h
      cases h
      exact ⟨u, rfl, hi⟩
  | some v =>
      rw [hv] at h
      exact resumeWith_idles hi h

theorem setGlobal_idles (hi : s.Idles u) {module index : U32} {value : CValue} {a : Status}
    (h : setGlobal module index value s = (a, s')) :
    ∃ u', setGlobal module index value u = (a, u') ∧ s'.Idles u' := by
  unfold setGlobal at h ⊢
  rw [hi.engine.store]
  split at h <;> cases h
  · exact ⟨u, rfl, hi⟩
  · exact ⟨_, rfl, hi.code, hi.engine.withStore _⟩

theorem run_idles (hi : s.Idles u) {fuel : ℕ} {a : RunStatus × Option TrapReason}
    (h : run floats host fuel s = some (a, s')) :
    ∃ u', run floats host fuel u = some (a, u') ∧ s'.Idles u' := by
  unfold run at h ⊢
  rw [if_pos hi.engine.left.isIdle] at h
  rw [if_pos hi.engine.right.isIdle]
  cases h
  exact ⟨u, rfl, hi⟩

theorem invokeStatus_ne_ok (err : InvokeError) : invokeStatus err ≠ .ok := by
  cases err <;> simp [invokeStatus]

theorem invoke_idles (hs : s.Safe host) (hi : s.Idles u) {module func : U32}
    {params : List CValue} {a : Status} (h : invoke module func params s = some (a, s')) :
    ∃ u', invoke module func params u = some (a, u') ∧
      (a = .ok ∧ s'.Matches u' ∨ a ≠ .ok ∧ s'.Idles u') := by
  have hidle : u.engine.isIdle = s.engine.isIdle := by
    rw [hi.engine.left.isIdle, hi.engine.right.isIdle]
  unfold invoke at h ⊢
  rw [hidle, hi.engine.store]
  split at h
  · next st hcheck =>
    cases h
    exact ⟨u, rfl, .inr ⟨fun hok => checkInvoke_ne_ok _ _ _ _ _ (hok ▸ hcheck), hi⟩⟩
  · split at h
    · next e hinvoke =>
      obtain ⟨e', hinvoke', he⟩ := Engine.Safe.invoke_idles hs hi.engine hinvoke
      cases h
      rw [hinvoke']
      exact ⟨_, rfl, .inl ⟨rfl, hi.code, he⟩⟩
    · next err e hinvoke =>
      obtain ⟨he, e', hinvoke', he'⟩ := Engine.Safe.invokeRejected_idles hs hi.engine hinvoke
      cases h
      rw [hinvoke']
      exact ⟨_, rfl, .inr ⟨invokeStatus_ne_ok err, hi.code, hi.engine.congr he he'⟩⟩
    · cases h

/-- Sessions at rest give the same answers, apart from the result of what they have run
before. When a call is accepted they go on alike. -/
theorem Call.idles (hs : s.Safe host) (hi : s.Idles u) {c : Call η} (hc : ¬c.Loads)
    (hask : ¬c.AsksResult) {a : Answer} (h : c.perform floats host s = some (a, s')) :
    ∃ u', c.perform floats host u = some (a, u') ∧ (s'.Matches u' ∨ ¬Starts c a ∧ s'.Idles u') := by
  have hmap : ∀ {β : Type} {f : β → Answer} {x y : Option (β × Session η)} {Q : Session η → Prop},
      x.map (Prod.map f id) = some (a, s') →
      (∀ b, a = f b → x = some (b, s') → ∃ u', y = some (b, u') ∧ Q u') →
      ∃ u', y.map (Prod.map f id) = some (a, u') ∧ Q u' := by
    intro β f x y Q hx hy
    obtain ⟨⟨b, v⟩, hb, heq⟩ := Option.map_eq_some_iff.1 hx
    cases heq
    obtain ⟨u', rfl, hu⟩ := hy b rfl hb
    exact ⟨u', rfl, hu⟩
  have hquiet : ∀ {α : Type} {x : α} {y : Option (α × Session η)},
      (¬Starts c a) → (∃ u', y = some (x, u') ∧ s'.Idles u') →
      ∃ u', y = some (x, u') ∧ (s'.Matches u' ∨ ¬Starts c a ∧ s'.Idles u') := by
    rintro α x y hstarts ⟨u', hy, hi⟩
    exact ⟨u', hy, .inr ⟨hstarts, hi⟩⟩
  cases c with
  | loadModule => exact absurd trivial hc
  | setGlobal module index value =>
      refine hmap (x := some (Capi.setGlobal module index value s))
        (y := some (Capi.setGlobal module index value u)) h fun _ _ h => ?_
      refine hquiet (by simp [Starts]) ?_
      obtain ⟨u', hu, hi'⟩ := setGlobal_idles hi (Option.some.inj h)
      exact ⟨u', congrArg some hu, hi'⟩
  | invoke module func params =>
      refine hmap h fun b hb h => ?_
      obtain ⟨u', hu, ⟨-, hm⟩ | ⟨hne, hi'⟩⟩ := invoke_idles hs hi h
      · exact ⟨u', hu, .inl hm⟩
      · refine ⟨u', hu, .inr ⟨?_, hi'⟩⟩
        rw [hb]
        simpa [Starts] using hne
  | run fuel => exact hmap h fun _ _ h => hquiet (by simp [Starts]) (run_idles hi h)
  | resume => exact hmap h fun _ _ h => hquiet (by simp [Starts]) (resumeWith_idles hi h)
  | resumeValue v => exact hmap h fun _ _ h => hquiet (by simp [Starts]) (resumeValue_idles hi h)
  | reset =>
      cases h
      exact ⟨_, rfl, .inr ⟨by simp [Starts], hi.code, hi.engine.reset⟩⟩
  | ask q =>
      obtain ⟨b, hb, heq⟩ := Option.map_eq_some_iff.1 h
      cases heq
      refine ⟨u, ?_, .inr ⟨by simp [Starts], hi⟩⟩
      rw [Call.perform, q.answer_congr hi.engine.store fun hresult => absurd hresult hask, hb]
      rfl
  | outside world =>
      cases h
      exact ⟨_, rfl, .inr ⟨by simp [Starts], hi.code, hi.engine.withWorld world⟩⟩

theorem Trace.idles {calls : List (Call η × Answer)} (h : Trace floats host s calls s')
    (hs : s.Safe host) (hi : s.Idles u) (hc : ∀ p ∈ calls, ¬p.1.Loads) (hlate : AsksLate calls) :
    ∃ u', Trace floats host u calls u' ∧
      (s'.Matches u' ∨ (∀ p ∈ calls, ¬Starts p.1 p.2) ∧ s'.Idles u') := by
  induction h generalizing u with
  | nil => exact ⟨u, .nil u, .inr ⟨by simp, hi⟩⟩
  | @cons s t s' c a calls hallowed hperform htrace ih =>
      obtain ⟨hcall, hcalls⟩ := List.forall_mem_cons.1 hc
      have ht := Call.safe hs hallowed hperform
      have hallowed' : c.Allowed u := by
        cases c with
        | run => exact hi.engine.right.pause
        | _ => trivial
      have hlate : Starts c a = true ∨ ¬c.AsksResult ∧ AsksLate calls := by
        simpa [AsksLate] using hlate
      have hask : ¬c.AsksResult := by
        rcases hlate with hstarts | ⟨hask, -⟩
        · exact starts_not_asks hstarts
        · exact hask
      obtain ⟨v, hv, hm | ⟨hstarts, hi'⟩⟩ := Call.idles hs hi hcall hask hperform
      · obtain ⟨u', hu', hm'⟩ := htrace.matches_ ht hm
        exact ⟨u', .cons hallowed' hv hu', .inl hm'⟩
      · obtain ⟨u', hu', hfinal⟩ := ih ht hi' hcalls (hlate.resolve_left hstarts).2
        refine ⟨u', .cons hallowed' hv hu', hfinal.imp_right fun h => ⟨?_, h.2⟩⟩
        exact List.forall_mem_cons.2 ⟨hstarts, h.1⟩

end Capi

/-- Two engines that have been used before, for whatever, are driven in the same way over the
same store, and asked for a result only after they have started a function: they give the
same answers and do the same to the store and the world, and once a function has been
started they differ in stale words only. -/
theorem Capi.Trace.leftovers {setup setup' : HostSetup} {stackSize : ℕ} {s u s' : Session η}
    {calls : List (Call η × Answer)} (hregular : host.Regular setup.hostModules)
    (hregular' : host.Regular setup'.hostModules) (hsmall : stackSize < 2 ^ 31)
    (hs : s.Abides setup floats host stackSize) (hu : u.Abides setup' floats host stackSize)
    (hidle : s.engine.isIdle) (hidle' : u.engine.isIdle) (hcode : u.code = s.code)
    (hstore : u.engine.store = s.engine.store) (hworld : u.engine.world = s.engine.world)
    (hlength : u.engine.stack.words.length = s.engine.stack.words.length)
    (h : Trace floats host s calls s') (hc : ∀ p ∈ calls, ¬p.1.Loads) (hlate : AsksLate calls) :
    ∃ u', Trace floats host u calls u' ∧ u'.engine.store = s'.engine.store ∧
      u'.engine.world = s'.engine.world ∧ u'.engine.isIdle = s'.engine.isIdle ∧
      ((∃ p ∈ calls, Starts p.1 p.2) → s'.Matches u') := by
  have hs := hs.safe hregular hsmall
  have hu := hu.safe hregular' hsmall
  have hi : s.Idles u := ⟨hcode, hs.sited.idle (of_decide_eq_true hidle),
    hu.sited.idle (of_decide_eq_true hidle'), hstore, hworld, hlength⟩
  obtain ⟨u', htrace, hm | ⟨hstarts, hi'⟩⟩ := h.idles hs hi hc hlate
  · exact ⟨u', htrace, hm.engine.store, hm.engine.world, hm.idle, fun _ => hm⟩
  · refine ⟨u', htrace, hi'.engine.store, hi'.engine.world, ?_, fun ⟨p, hp, hstart⟩ =>
      absurd hstart (hstarts p hp)⟩
    rw [hi'.engine.left.isIdle, hi'.engine.right.isIdle]

/-- The same call into an engine that has just loaded its module, and into one that has begun
to run it before and has been reset. -/
theorem Capi.Trace.leftovers_calling : ∃ s s₁ calls s', emptySession.load? [0x61] calling = some s ∧
    s.invoke? ⟨0, 0⟩ = some s₁ ∧ replay .none .quiet
      [.invoke 0 0 [], .run 9, .ask (.getResult 0)] s = some (calls, s') ∧
    ∃ u', Trace .none .quiet (s₁.withEngine s₁.engine.reset) calls u' ∧
      u'.engine.store = s'.engine.store ∧ u'.engine.world = s'.engine.world ∧
      u'.engine.isIdle = s'.engine.isIdle ∧
      ((∃ p ∈ calls, Starts p.1 p.2) → s'.Matches u') := by
  have hrun : ((emptySession.load? [0x61] calling).bind fun s => (s.invoke? ⟨0, 0⟩).bind fun s₁ =>
      (replay .none .quiet [.invoke 0 0 [], .run 9, .ask (.getResult 0)] s).map fun p =>
        (s.engine.isIdle, s.engine.hostPauseResult, s₁.engine.stack.words.length,
          s.engine.stack.words.length, decide (∀ q ∈ p.1, ¬q.1.Loads), AsksLate p.1)) =
      some (true, none, 16, 16, true, true) := by decide +kernel
  obtain ⟨s, h₀, hrun⟩ := Option.bind_eq_some_iff.1 hrun
  obtain ⟨s₁, h₁, hrun⟩ := Option.bind_eq_some_iff.1 hrun
  obtain ⟨⟨calls, s'⟩, h₂, hrun⟩ := Option.map_eq_some_iff.1 hrun
  simp only [Prod.mk.injEq] at hrun
  obtain ⟨hidle, hpause, hlength₁, hlength, hcalls, hlate⟩ := hrun
  have habides := emptySession_abides.step (.free rfl (Session.load?_step h₀))
  have hinvoked : SessionStep .none .quiet s s₁ := Session.invoke?_step h₁
  obtain ⟨e, hinvoke, rfl⟩ := Session.invoke?_eq h₁
  obtain ⟨-, m, func, ty, mem, table, words, as, -, -, -, -, -, -, -, -, rfl⟩ :=
    Engine.Safe.invoke (habides.safe quiet_regular (by decide)) hinvoke
  exact ⟨s, _, calls, s', h₀, h₁, h₂, Capi.Trace.leftovers quiet_regular quiet_regular (by decide)
    habides ((habides.step (.free hpause hinvoked)).step .reset) hidle (decide_eq_true rfl) rfl rfl
    rfl (hlength₁.trans hlength.symm) (replay_trace h₂) (of_decide_eq_true hcalls) hlate⟩

/-! ### Calls that are refused -/

namespace Capi

variable {s s' u : Session η}

/-- The answer refuses the call. -/
def Answer.Refuses : Answer → Prop
  | .status st => st ≠ .ok
  | .loaded r => r = .error .wrongState
  | .ran r => r = (RunStatus.trap, Option.none)
  | .found r => ∃ st, r = .error st
  | .start r => ∃ st, r = .error st
  | .value r => ∃ st, r = .error st
  | .none => False

theorem runStatus_ne (r : InterpreterResult) : runStatus r ≠ (.trap, none) := by
  cases r <;> simp [runStatus]

/-- A call that is refused leaves nothing but stale words. -/
theorem Call.refused (hs : s.Safe host) {c : Call η} {a : Answer}
    (h : c.perform floats host s = some (a, s')) (ha : a.Refuses) : s.Matches s' := by
  cases Call.performs h with
  | loadRefused | setGlobalRefused | invokeRefused | runIdle | badValue | asked => exact .refl s
  | loaded => cases ha
  | loadFailed => exact absurd (Except.error.inj ha) (loadStatus_ne_wrongState _)
  | setGlobal | invoked | resumed | reset => exact absurd rfl ha
  | invokeRejected _ hinvoke =>
      rcases hs.invokeRejected hinvoke with rfl | ⟨hrest, words, touched, hlength, rfl⟩
      · exact .refl s
      · exact ⟨rfl, hrest.matches_withStack touched hlength⟩
  | ran => exact absurd ha (runStatus_ne _)
  | resumeRejected _ hresume =>
      obtain rfl := Engine.resume_rejected hresume
      exact .refl s
  | outside => exact absurd ha id

end Capi

/-- A call that is refused might never have been made: it changes no register and nothing in
the store, and whatever is called afterwards is answered as without it. -/
theorem Capi.Call.refused_invisible {setup : HostSetup} {stackSize : ℕ} {s s' : Session η}
    (hregular : host.Regular setup.hostModules) (hsmall : stackSize < 2 ^ 31)
    (hs : s.Abides setup floats host stackSize) {c : Call η} {a : Answer} (hc : c.Allowed s)
    (h : c.perform floats host s = some (a, s')) (ha : a.Refuses) :
    s.Matches s' ∧
      (∀ calls u, Trace floats host s' calls u →
        ∃ u', Trace floats host s calls u' ∧ u.Matches u') ∧
      ∀ calls u, Trace floats host s calls u →
        ∃ u', Trace floats host s' calls u' ∧ u.Matches u' := by
  have hs := hs.safe hregular hsmall
  have hm : s.Matches s' := Call.refused hs h ha
  exact ⟨hm, fun calls u htrace => htrace.matches_ (Call.safe hs hc h) hm.symm,
    fun calls u htrace => htrace.matches_ hs hm⟩

/-- A call with an argument of a wrong type. -/
theorem Capi.Call.refused_invisible_calling :
    ∃ s c a s', emptySession.load? [0x61] calling = some s ∧
    c = Call.invoke 0 1 [CValue.fromValue (.i64 5)] ∧
    Call.perform .none .quiet s c = some (a, s') ∧ s.Matches s' ∧
      (∀ calls u, Trace .none .quiet s' calls u →
        ∃ u', Trace .none .quiet s calls u' ∧ u.Matches u') ∧
      ∀ calls u, Trace .none .quiet s calls u →
        ∃ u', Trace .none .quiet s' calls u' ∧ u.Matches u' := by
  have hrun : ((emptySession.load? [0x61] calling).bind fun s =>
      (Capi.invoke 0 1 [CValue.fromValue (.i64 5)] s).map Prod.fst) = some .paramTypeMismatch := by
    decide +kernel
  obtain ⟨s, h₀, hrun⟩ := Option.bind_eq_some_iff.1 hrun
  obtain ⟨⟨st, s'⟩, hinvoke, rfl⟩ := Option.map_eq_some_iff.1 hrun
  have hperform : Call.perform .none .quiet s (.invoke 0 1 [CValue.fromValue (.i64 5)]) =
      some (.status .paramTypeMismatch, s') :=
    congrArg (Option.map (Prod.map Answer.status id)) hinvoke
  have habides := emptySession_abides.step (.free rfl (Session.load?_step h₀))
  have hallowed : Call.Allowed s (.invoke 0 1 [CValue.fromValue (.i64 5)]) := trivial
  exact ⟨s, _, _, s', h₀, rfl, hperform,
    Capi.Call.refused_invisible quiet_regular (by decide) habides
    hallowed hperform (by simp [Answer.Refuses])⟩

end SpaceWasm
