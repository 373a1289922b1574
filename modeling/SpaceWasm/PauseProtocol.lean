import SpaceWasm.Answers
import SpaceWasm.CallDiscipline

/-!
# The pause protocol

From the moment that a run reports a pause until a result is accepted or the engine is
reset, no call changes a register or a word of the stack. The result is accepted when it
has the type that the host function declares. It is pushed once, into the activation that
has made the host call.
-/

namespace SpaceWasm

open Relation

variable {η : Type} {floats : FloatOps} {host : HostEnv η} {code : CodeBuilder} {e t : Engine η}

/-! ### Runs that pause -/

theorem Engine.Safe.round_pending (h : e.Safe host code) (hpause : e.hostPauseResult = none)
    {r : RoundResult} (hround : runRound ⟨code.pages, floats, host⟩ e = some (r, t)) :
    r = some .pause → t.hostPauseResult ≠ none := by
  rintro rfl
  by_cases hpc : e.pc = JumpTarget.sentinel
  · rw [Engine.runRound_idle hpc] at hround
    cases hround
  · obtain ⟨a, rest, n, hrun⟩ := h.sited.running hpc
    obtain ⟨t', hto⟩ := h.roundsTo hrun hpause hround
    cases hto with
    | pause _ pending => exact pending

/-- A run that reports a pause waits for a result. -/
theorem Engine.Safe.run_pending (h : e.Safe host code) (hpause : e.hostPauseResult = none) {n : ℕ}
    (hrun : SpaceWasm.run ⟨code.pages, floats, host⟩ n e = some (.pause, t)) :
    t.hostPauseResult ≠ none := by
  refine boundedRun_ends (I := fun e => e.Safe host code ∧ e.hostPauseResult = none)
    (Q := fun r t => r = .pause → t.hostPauseResult ≠ none) (by simp) (fun e r t he hround => ?_)
    ⟨h, hpause⟩ hrun rfl
  obtain ⟨hsafe, hfree, -⟩ := he.1.round he.2 hround
  cases r with
  | none => exact ⟨hsafe, hfree rfl⟩
  | some r => exact fun hr => he.1.round_pending he.2 hround (congrArg some hr)

namespace Capi

variable {s s' : Session η}

/-! ### Calls into a paused engine -/

/-- The call ends the pause: it resets the engine, or gives a result that is accepted. -/
def Releases (c : Call η) (a : Answer) : Bool :=
  match c, a with
  | .reset, _ => true
  | .resume, .status st => st = .ok
  | .resumeValue _, .status st => st = .ok
  | _, _ => false

/-- The sessions differ at most in the store and in the world of the embedder. -/
def Held (s s' : Session η) : Prop :=
  s'.code = s.code ∧
    s'.engine = { s.engine with store := s'.engine.store, world := s'.engine.world }

theorem Held.refl (s : Session η) : Held s s := ⟨rfl, rfl⟩

theorem Held.trans {t : Session η} (h : Held s s') (h' : Held s' t) : Held s t := by
  refine ⟨h'.1.trans h.1, h'.2.trans ?_⟩
  rw [h.2]

theorem Held.pending (h : Held s s') : s'.engine.hostPauseResult = s.engine.hostPauseResult := by
  rw [h.2]

theorem Held.busy (h : Held s s') : s'.engine.isIdle = s.engine.isIdle := by
  rw [Engine.isIdle, Engine.isIdle, h.2]

theorem Call.Gives.releases {c : Call η} {v : Option Value} (h : c.Gives v) :
    Releases c (.status .ok) := by
  cases h <;> rfl

theorem Call.held {ret : ResultType} (hp : s.engine.hostPauseResult = some ret)
    (hbusy : ¬s.engine.isIdle) {c : Call η} {a : Answer} (hc : c.Allowed s)
    (h : c.perform floats host s = some (a, s')) (hr : ¬Releases c a) : Held s s' := by
  cases Call.performs h with
  | loadRefused | setGlobalRefused | invokeRefused | badValue | asked => exact .refl s
  | loaded hidle | loadFailed hidle | runIdle hidle => exact absurd hidle hbusy
  | setGlobal => exact ⟨rfl, rfl⟩
  | invoked hcheck | invokeRejected hcheck => exact absurd (checkInvoke_eq_ok hcheck).1 hbusy
  | ran =>
      have hfree : s.engine.hostPauseResult = none := hc
      rw [hp] at hfree
      cases hfree
  | resumed hgives => exact absurd hgives.releases hr
  | resumeRejected _ hresume =>
      obtain rfl := Engine.resume_rejected hresume
      exact .refl s
  | reset => exact absurd rfl hr
  | outside => exact ⟨rfl, rfl⟩

theorem Trace.held {calls : List (Call η × Answer)} (h : Trace floats host s calls s')
    {ret : ResultType} (hp : s.engine.hostPauseResult = some ret) (hbusy : ¬s.engine.isIdle)
    (hr : ∀ p ∈ calls, ¬Releases p.1 p.2) : Held s s' := by
  induction h with
  | nil s => exact .refl s
  | cons hc hperform _ ih =>
      obtain ⟨hcall, hcalls⟩ := List.forall_mem_cons.1 hr
      have hheld := Call.held hp hbusy hc hperform hcall
      exact hheld.trans (ih (hheld.pending.trans hp) (hheld.busy ▸ hbusy) hcalls)

end Capi

theorem Capi.run_pause {s s' : Session η} (hs : s.Safe host)
    (hpause : s.engine.hostPauseResult = none)
    {fuel : ℕ} (h : Capi.run floats host fuel s = some ((.pause, none), s')) :
    s'.Safe host ∧ ¬s'.engine.isIdle ∧ ∃ ret, s'.engine.hostPauseResult = some ret := by
  unfold Capi.run at h
  split at h
  · simp at h
  · obtain ⟨⟨r, e⟩, hrun, heq⟩ := Option.map_eq_some_iff.1 h
    obtain ⟨hr, rfl⟩ := Prod.mk.inj heq
    obtain rfl : r = .pause := by
      cases r <;> simp [runStatus] at hr ⊢
    have hsafe := (hs.run hpause hrun).1
    obtain ⟨ret, hret⟩ := Option.ne_none_iff_exists'.1 (Engine.Safe.run_pending hs hpause hrun)
    refine ⟨hsafe, fun hidle => ?_, ret, hret⟩
    have hnone := (hsafe.sited.idle (of_decide_eq_true hidle)).pause
    rw [hret] at hnone
    cases hnone

theorem Engine.Executing.owns {m : Module} {f : Func} {ret : ResultType} {i : ℕ}
    (h : e.Executing code m f) (hp : e.hostPauseResult = some ret) (hle : e.sp ≤ i)
    (hlt : i < e.sp + ret.words) : e.Owns f i := by
  have hbase := h.base_le
  have hsp := h.sp_le
  rw [pendingWords, hp, Option.elim_some] at hsp
  exact ⟨by omega, by omega⟩

theorem Engine.Executing.resumed {m : Module} {f : Func} {ret : ResultType} {v : Option Value}
    (h : e.Executing code m f) (hp : e.hostPauseResult = some ret) (hv : v.map Value.type = ret)
    (as : List ℕ) : (e.resumed v as).Executing code m f where
  module := h.module
  mem := h.mem
  fetch := h.fetch
  params_le := h.params_le
  base_le := Nat.le_trans h.base_le (Nat.le_add_right _ _)
  sp_le := by
    have hsp := h.sp_le
    rwa [pendingWords, hp, Option.elim_some, ← hv] at hsp
  usage_le := (e.resumed_words v as).length.symm ▸ h.usage_le

/-- What a session that is safe does from a pause on. -/
theorem Session.Safe.pause_holds {s₀ s s' : Session η} {fuel : ℕ}
    {calls : List (Capi.Call η × Capi.Answer)} (hsafe : s₀.Safe host)
    (hpause : s₀.engine.hostPauseResult = none)
    (hrun : Capi.run floats host fuel s₀ = some ((.pause, none), s))
    (htrace : Capi.Trace floats host s calls s') (hc : ∀ p ∈ calls, ¬Capi.Releases p.1 p.2) :
    ∃ ret m f, s.engine.hostPauseResult = some ret ∧ Capi.Held s s' ∧
      s'.engine.Executing s'.code m f ∧ ∀ v : Option Value,
        (v.map Value.type ≠ ret → Capi.resumeWith v s' = some (.paramTypeMismatch, s')) ∧
        (v.map Value.type = ret → ∃ as,
          Capi.resumeWith v s' = some (.ok, s'.withEngine (s'.engine.resumed v as)) ∧
          (∀ i ∈ as, s.engine.sp ≤ i ∧ i < s.engine.sp + ret.words ∧ s'.engine.Owns f i) ∧
          (s'.engine.resumed v as).Executing s'.code m f ∧
          ∀ v', Capi.resumeWith v' (s'.withEngine (s'.engine.resumed v as)) =
            some (.wrongState, s'.withEngine (s'.engine.resumed v as))) := by
  obtain ⟨hs, hbusy, ret, hret⟩ := Capi.run_pause hsafe hpause hrun
  have hheld := htrace.held hret hbusy hc
  have hs' : s'.Safe host := htrace.safe hs
  have hret' : s'.engine.hostPauseResult = some ret := hheld.pending.trans hret
  obtain ⟨⟨a, rest, n, hactive⟩, hroom⟩ := hs'.resume_room hret'
  obtain ⟨m, hm⟩ := hactive.executing
  have hsp : s'.engine.sp = s.engine.sp := by rw [hheld.2]
  refine ⟨ret, m, a.func, hret, hheld, hm, fun v => ⟨fun hv => ?_, fun hv => ?_⟩⟩
  · rw [Capi.resumeWith, resume_mismatch hret' hv]
    rfl
  · obtain ⟨as, has, hresume⟩ := resume_ok hret' hv hroom
    rw [hsp] at has
    refine ⟨as, by rw [Capi.resumeWith, hresume], fun i hi => ?_, ?_, fun v' => ?_⟩
    · obtain ⟨hle, hlt⟩ := has i hi
      exact ⟨hle, hlt, hm.owns hret' (hsp ▸ hle) (hsp ▸ hlt)⟩
    · exact hm.resumed hret' hv as
    · rw [Capi.resumeWith,
        show SpaceWasm.resume v' (s'.withEngine (s'.engine.resumed v as)).engine =
        _ from resume_notPaused rfl v']
      rfl

/-- After a run has reported a pause, whatever calls follow that neither reset the engine
nor give it a result that it accepts: no register and no word of the stack changes. Then a
result is accepted if and only if it is of the pending type. It is pushed into the frame of
the function that has made the host call, and no other result is accepted after it. -/
theorem Session.Abides.pause_held {setup : HostSetup} {stackSize : ℕ} {s₀ s s' : Session η}
    {fuel : ℕ} {calls : List (Capi.Call η × Capi.Answer)}
    (hregular : host.Regular setup.hostModules)
    (hsmall : stackSize < 2 ^ 31) (h : s₀.Abides setup floats host stackSize)
    (hpause : s₀.engine.hostPauseResult = none)
    (hrun : Capi.run floats host fuel s₀ = some ((.pause, none), s))
    (htrace : Capi.Trace floats host s calls s') (hc : ∀ p ∈ calls, ¬Capi.Releases p.1 p.2) :
    ∃ ret m f, s.engine.hostPauseResult = some ret ∧ Capi.Held s s' ∧
      s'.engine.Executing s'.code m f ∧ ∀ v : Option Value,
        (v.map Value.type ≠ ret → Capi.resumeWith v s' = some (.paramTypeMismatch, s')) ∧
        (v.map Value.type = ret → ∃ as,
          Capi.resumeWith v s' = some (.ok, s'.withEngine (s'.engine.resumed v as)) ∧
          (∀ i ∈ as, s.engine.sp ≤ i ∧ i < s.engine.sp + ret.words ∧ s'.engine.Owns f i) ∧
          (s'.engine.resumed v as).Executing s'.code m f ∧
          ∀ v', Capi.resumeWith v' (s'.withEngine (s'.engine.resumed v as)) =
            some (.wrongState, s'.withEngine (s'.engine.resumed v as))) :=
  (h.safe hregular hsmall).pause_holds hpause hrun htrace hc

/-! ### A host function that pauses -/

/-- A module whose function calls that of the host. -/
def callingHost : List U8 :=
  [0x00, 0x61, 0x73, 0x6D, 0x01, 0x00, 0x00, 0x00, 0x01, 0x05, 0x01, 0x60, 0x00, 0x01, 0x7F, 0x02,
    0x07, 0x01, 0x01, 0x68, 0x01, 0x66, 0x00, 0x00, 0x03, 0x02, 0x01, 0x00, 0x0A, 0x06, 0x01, 0x04,
    0x00, 0x10, 0x00, 0x0B]

/-- The session after the calls. -/
def askingSession? (calls : List (Capi.Call Unit)) : Option (Session Unit) :=
  match (pausingHost .i32).store with
  | .ok store =>
      (Capi.replay .none .asking calls ⟨Engine.new 16 store (), emptyBuilder⟩).map Prod.snd
  | .error _ => none

theorem askingSession?_abides {calls : List (Capi.Call Unit)} {s : Session Unit}
    (h : askingSession? calls = some s) : s.Abides (pausingHost .i32) .none .asking 16 := by
  unfold askingSession? at h
  split at h
  · next store hstore =>
    obtain ⟨⟨answers, t⟩, hreplay, rfl⟩ := Option.map_eq_some_iff.1 h
    have hstart : Session.Abides (pausingHost .i32) .none .asking 16
        ⟨Engine.new 16 store (), emptyBuilder⟩ := ⟨store, emptyBuilder, (), hstore, .refl⟩
    exact hstart.trace (asking_regular _) (by decide) (Capi.replay_trace hreplay)
  · cases h

/-- A paused engine refuses a result of a wrong type, and a call. -/
theorem Session.Abides.pause_held_asking : ∃ s₀ s calls s',
    askingSession? [.loadModule simpleEnv [0x61] (Reader.new (.ofBytes callingHost)),
      .invoke 0 0 []] = some s₀ ∧
    Capi.run .none .asking 5 s₀ = some ((.pause, none), s) ∧
    Capi.replay .none .asking [.resumeValue (.fromValue (.i64 5)), .invoke 0 0 []] s =
      some (calls, s') ∧
    ∃ ret m f, s.engine.hostPauseResult = some ret ∧ Capi.Held s s' ∧
      s'.engine.Executing s'.code m f ∧ ∀ v : Option Value,
        (v.map Value.type ≠ ret → Capi.resumeWith v s' = some (.paramTypeMismatch, s')) ∧
        (v.map Value.type = ret → ∃ as,
          Capi.resumeWith v s' = some (.ok, s'.withEngine (s'.engine.resumed v as)) ∧
          (∀ i ∈ as, s.engine.sp ≤ i ∧ i < s.engine.sp + ret.words ∧ s'.engine.Owns f i) ∧
          (s'.engine.resumed v as).Executing s'.code m f ∧
          ∀ v', Capi.resumeWith v' (s'.withEngine (s'.engine.resumed v as)) =
            some (.wrongState, s'.withEngine (s'.engine.resumed v as))) := by
  have hrun : ((askingSession? [.loadModule simpleEnv [0x61] (Reader.new (.ofBytes callingHost)),
      .invoke 0 0 []]).bind fun s₀ => (Capi.run .none .asking 5 s₀).bind fun p =>
      (Capi.replay .none .asking [.resumeValue (.fromValue (.i64 5)), .invoke 0 0 []] p.2).map
        fun q => (s₀.engine.hostPauseResult, p.1, decide (∀ c ∈ q.1, ¬Capi.Releases c.1 c.2))) =
      some (none, (.pause, none), true) := by decide +kernel
  obtain ⟨s₀, h₀, hrun⟩ := Option.bind_eq_some_iff.1 hrun
  obtain ⟨⟨r, s⟩, h₁, hrun⟩ := Option.bind_eq_some_iff.1 hrun
  obtain ⟨⟨calls, s'⟩, h₂, hrun⟩ := Option.map_eq_some_iff.1 hrun
  obtain ⟨hpause, hrest⟩ := Prod.mk.inj hrun
  obtain ⟨rfl, hcalls⟩ := Prod.mk.inj hrest
  exact ⟨s₀, s, calls, s', h₀, h₁, h₂, Session.Abides.pause_held (asking_regular _) (by decide)
    (askingSession?_abides h₀) hpause h₁ (Capi.replay_trace h₂) (of_decide_eq_true hcalls)⟩

/-! ### The protocol as a whole -/

/-- The session `t` goes on to wait for the result, of type `ret`, for which `s` has paused:
nothing has been executed. A result of this type is accepted once; it is pushed where the host
function has paused, into the frame of the function that has called it. -/
structure Capi.Waits (s t : Session η) (ret : ResultType) : Prop where
  pending : s.engine.hostPauseResult = some ret
  held : Held s t
  refuses : ∀ v : Option Value, v.map Value.type ≠ ret →
    resumeWith v t = some (.paramTypeMismatch, t)
  accepts : ∃ m f, t.engine.Executing t.code m f ∧ ∀ v : Option Value, v.map Value.type = ret →
    ∃ as, resumeWith v t = some (.ok, t.withEngine (t.engine.resumed v as)) ∧
      (∀ i ∈ as, s.engine.sp ≤ i ∧ i < s.engine.sp + ret.words ∧ t.engine.Owns f i) ∧
      (t.engine.resumed v as).Executing t.code m f ∧
      ∀ v', resumeWith v' (t.withEngine (t.engine.resumed v as)) =
        some (.wrongState, t.withEngine (t.engine.resumed v as))

end SpaceWasm
