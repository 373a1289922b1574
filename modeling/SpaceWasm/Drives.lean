import SpaceWasm.Answers
import SpaceWasm.Compartments
import SpaceWasm.Noninterference

/-!
# Driving an engine

An embedder drives one engine: it invokes a function, runs it in slices, gives the results
that host functions owe and resets it. As long as it does not run an engine that is paused,
what the engine does depends on nothing that was left on the stack, and a call that is
rejected is as if it had not been made. An engine that is run while it is paused may read
words that it has not written.
-/

namespace SpaceWasm

open Relation

variable {η : Type} {floats : FloatOps} {host : HostEnv η} {code : CodeBuilder}

namespace Engine

/-- A call of an entry point. -/
inductive Command where
  | invoke (f : WasmRef) (params : List Value)
  | run (fuel : ℕ)
  | resume (v : Option Value)
  | reset
  deriving DecidableEq

/-- What an entry point returns. -/
inductive Reply where
  | invoked (r : Except InvokeError Unit)
  | ran (r : InterpreterResult)
  | resumed (r : Except ResumeError Unit)
  | reset
  deriving DecidableEq

/-- What an entry point answers; a panic is no answer. -/
def answer {ε : Type} (f : Except ε Unit → Reply) :
    Outcome ε (Engine η) Unit → Option (Reply × Engine η)
  | .ok () t => some (f (.ok ()), t)
  | .error err t => some (f (.error err), t)
  | .panic | .diverge => none

def Command.perform (env : ExecEnv η) (e : Engine η) : Command → Option (Reply × Engine η)
  | .invoke f params => answer .invoked (SpaceWasm.invoke f params e)
  | .run fuel => (SpaceWasm.run env fuel e).map fun p => (.ran p.1, p.2)
  | .resume v => answer .resumed (SpaceWasm.resume v e)
  | .reset => some (.reset, e.reset)

/-- The protocol: an engine that waits for a result is not run. -/
def Command.Allowed (e : Engine η) : Command → Prop
  | .run _ => e.hostPauseResult = none
  | _ => True

instance (e : Engine η) : (c : Command) → Decidable (c.Allowed e)
  | .run _ => inferInstanceAs (Decidable (e.hostPauseResult = none))
  | .invoke .. | .resume _ | .reset => inferInstanceAs (Decidable True)

/-- The commands that are given to an engine one after the other, each where `ok` allows
it, with the replies. -/
inductive Drive (ok : Engine η → Command → Prop) (env : ExecEnv η) :
    Engine η → List (Command × Reply) → Engine η → Prop
  | nil (e : Engine η) : Drive ok env e [] e
  | cons {e t u : Engine η} {c : Command} {r : Reply} {rest : List (Command × Reply)} :
      ok e c → c.perform env e = some (r, t) → Drive ok env t rest u →
      Drive ok env e ((c, r) :: rest) u

/-- Give the commands to the engine, as long as `ok` allows them. -/
def drive? (ok : Engine η → Command → Prop) [∀ e c, Decidable (ok e c)] (env : ExecEnv η) :
    List Command → Engine η → Option (List (Command × Reply) × Engine η)
  | [], e => some ([], e)
  | c :: cs, e =>
      if ok e c then
        (c.perform env e).bind fun p =>
          (drive? ok env cs p.2).map fun q => ((c, p.1) :: q.1, q.2)
      else none

variable {e e' t : Engine η}

theorem drive?_drive {ok : Engine η → Command → Prop} [∀ e c, Decidable (ok e c)]
    {env : ExecEnv η} {cs : List Command} {ds : List (Command × Reply)}
    (h : drive? ok env cs e = some (ds, t)) : Drive ok env e ds t := by
  induction cs generalizing e ds with
  | nil =>
      cases h
      exact .nil _
  | cons c cs ih =>
      rw [drive?] at h
      split at h
      · next hc =>
        obtain ⟨⟨r, u⟩, hperform, h⟩ := Option.bind_eq_some_iff.1 h
        obtain ⟨⟨ds', t'⟩, hrest, heq⟩ := Option.map_eq_some_iff.1 h
        cases heq
        exact .cons hc hperform (ih hrest)
      · cases h

theorem Drive.append {ok : Engine η → Command → Prop} {env : ExecEnv η}
    {cs ds : List (Command × Reply)} {v : Engine η} (h : Drive ok env e cs t)
    (h' : Drive ok env t ds v) : Drive ok env e (cs ++ ds) v := by
  induction h with
  | nil => exact h'
  | cons hc hperform _ ih => exact .cons hc hperform (ih h')

theorem Drive.append_inv {ok : Engine η → Command → Prop} {env : ExecEnv η}
    {cs ds : List (Command × Reply)} {v : Engine η} (h : Drive ok env e cs t)
    (h' : Drive ok env e (cs ++ ds) v) : Drive ok env t ds v := by
  induction h with
  | nil => exact h'
  | cons _ hperform _ ih =>
      cases h' with
      | cons _ hperform' hrest =>
          rw [hperform] at hperform'
          cases hperform'
          exact ih hrest

theorem answer_eq_some {ε : Type} {f : Except ε Unit → Reply} {o : Outcome ε (Engine η) Unit}
    {r : Reply} (h : answer f o = some (r, t)) :
    r = f (.ok ()) ∧ o = .ok () t ∨ ∃ err, r = f (.error err) ∧ o = .error err t := by
  cases o with
  | ok a u =>
      cases h
      exact .inl ⟨rfl, rfl⟩
  | error err u =>
      cases h
      exact .inr ⟨err, rfl, rfl⟩
  | panic | diverge => cases h

theorem Command.runs {env : ExecEnv η} {c : Command} {r : Reply}
    (h : c.perform env e = some (r, t)) : e.store.Runs t.store := by
  cases c with
  | invoke f params =>
      rcases answer_eq_some h with ⟨-, hok⟩ | ⟨err, -, herr⟩
      · rw [show t.store = e.store from ((invoke_guarded f params e).ok rfl hok).2]
        exact .refl _
      · have hbeside := ((invoke_guarded f params e).error rfl herr).1
        rw [show t.store = e.store from (congrArg Engine.store hbeside :)]
        exact .refl _
  | run fuel =>
      obtain ⟨⟨res, w⟩, hrun, heq⟩ := Option.map_eq_some_iff.1 h
      cases heq
      exact (run_continues hrun).runs
  | resume v =>
      rcases answer_eq_some h with ⟨-, hok⟩ | ⟨err, -, herr⟩
      · have hbeside := (resume_guarded v e).ok rfl hok
        rw [show t.store = e.store from (congrArg Engine.store hbeside :)]
        exact .refl _
      · rw [(resume_guarded v e).error rfl herr]
        exact .refl _
  | reset =>
      cases h
      exact .refl _

theorem Drive.runs {ok : Engine η → Command → Prop} {env : ExecEnv η}
    {cs : List (Command × Reply)} (h : Drive ok env e cs t) : e.store.Runs t.store := by
  induction h with
  | nil => exact .refl _
  | cons _ hperform _ ih => exact (Command.runs hperform).trans ih

/-- A command that the protocol allows keeps an engine safe. -/
theorem Command.safe (h : e.Safe host code) {c : Command} (hc : c.Allowed e) {r : Reply}
    (hperform : c.perform ⟨code.pages, floats, host⟩ e = some (r, t)) : t.Safe host code := by
  have hs : Session.Safe ⟨e, code⟩ host := h
  have hstep : ∀ {u : Engine η}, ProtocolStep floats host ⟨e, code⟩ ⟨u, code⟩ → u.Safe host code :=
    fun hstep => hstep.safe hs
  cases c with
  | invoke f params =>
      by_cases hpc : e.pc = JumpTarget.sentinel
      · have hpause := (h.sited.idle hpc).pause
        rcases answer_eq_some hperform with ⟨-, hok⟩ | ⟨err, -, herr⟩
        · exact hstep (.free hpause (.invoked f params hok))
        · exact hstep (.free hpause (.invokeRejected f params herr))
      · rw [Command.perform, invoke_busy hpc] at hperform
        cases hperform
        exact h
  | run fuel =>
      obtain ⟨⟨res, u⟩, hrun, heq⟩ := Option.map_eq_some_iff.1 hperform
      cases heq
      exact (h.run hc hrun).1
  | resume v =>
      rcases answer_eq_some hperform with ⟨-, hok⟩ | ⟨err, -, herr⟩
      · exact hstep (.resumed v hok)
      · exact hstep (.resumeRejected v herr)
  | reset =>
      cases hperform
      exact hstep .reset

/-- Engines that differ in stale words obey a command alike. -/
theorem Command.matches_ (h : e.Safe host code) (hm : e.Matches e') {c : Command}
    (hc : c.Allowed e) {r : Reply}
    (hperform : c.perform ⟨code.pages, floats, host⟩ e = some (r, t)) :
    ∃ t', c.perform ⟨code.pages, floats, host⟩ e' = some (r, t') ∧ t.Matches t' := by
  cases c with
  | invoke f params =>
      by_cases hpc : e.pc = JumpTarget.sentinel
      · have hi := hm.idles (h.sited.idle hpc)
        rcases answer_eq_some hperform with ⟨rfl, hok⟩ | ⟨err, rfl, herr⟩
        · obtain ⟨t', hok', ht⟩ := h.invoke_idles hi hok
          exact ⟨t', by rw [Command.perform, hok', answer], ht⟩
        · obtain ⟨ht, t', herr', ht'⟩ := h.invokeRejected_idles hi herr
          exact ⟨t', by rw [Command.perform, herr', answer], ht.symm.trans (hm.trans ht')⟩
      · rw [Command.perform, invoke_busy hpc] at hperform
        cases hperform
        exact ⟨e', by rw [Command.perform, invoke_busy (hm.pc.symm ▸ hpc), answer], hm⟩
  | run fuel =>
      obtain ⟨⟨res, u⟩, hrun, heq⟩ := Option.map_eq_some_iff.1 hperform
      cases heq
      obtain ⟨t', hrun', ht⟩ := h.run_matches hc hm hrun
      exact ⟨t', by rw [Command.perform, hrun']; rfl, ht⟩
  | resume v =>
      rcases answer_eq_some hperform with ⟨rfl, hok⟩ | ⟨err, rfl, herr⟩
      · obtain ⟨t', hok', ht⟩ := h.resume_matches hm hok
        exact ⟨t', by rw [Command.perform, hok', answer], ht⟩
      · have herr' := h.resumeRejected_matches hm herr
        rw [resume_rejected herr]
        exact ⟨e', by rw [Command.perform, herr', answer], hm⟩
  | reset =>
      cases hperform
      exact ⟨e'.reset, rfl, hm.reset⟩

theorem Command.Allowed.of_matches (hm : e.Matches e') {c : Command} (hc : c.Allowed e) :
    c.Allowed e' := by
  cases c with
  | run => exact hm.pause.trans hc
  | _ => trivial

namespace Drive

variable {cs : List (Command × Reply)}

theorem safe (hd : Drive (fun e c => c.Allowed e) ⟨code.pages, floats, host⟩ e cs t)
    (h : e.Safe host code) : t.Safe host code := by
  induction hd with
  | nil => exact h
  | cons hc hperform _ ih => exact ih (Command.safe h hc hperform)

/-- So they are driven alike. -/
theorem matches_ (hd : Drive (fun e c => c.Allowed e) ⟨code.pages, floats, host⟩ e cs t)
    (h : e.Safe host code) (hm : e.Matches e') :
    ∃ t', Drive (fun e c => c.Allowed e) ⟨code.pages, floats, host⟩ e' cs t' ∧ t.Matches t' := by
  induction hd generalizing e' with
  | nil => exact ⟨e', .nil e', hm⟩
  | cons hc hperform _ ih =>
      obtain ⟨u, hu, hmatch⟩ := Command.matches_ h hm hc hperform
      obtain ⟨t', ht', hfinal⟩ := ih (Command.safe h hc hperform) hmatch
      exact ⟨t', .cons (Command.Allowed.of_matches hm hc) hu ht', hfinal⟩

end Drive

/-! ### Engines at rest -/

/-- The command has started a function. -/
def Reply.Starts (r : Reply) : Prop := r = .invoked (.ok ())

/-- An engine at rest has nothing to run. -/
theorem run_idle {env : ExecEnv η} (hpc : e.pc = JumpTarget.sentinel) (n : ℕ) :
    SpaceWasm.run env n e = some (if n = 0 then .outOfFuel else .finished, e) := by
  cases n with
  | zero => rfl
  | succ n =>
      rw [SpaceWasm.run, boundedRun, runRound_idle hpc]
      rfl

/-- Engines at rest reply alike, whatever has been left in them. When a function is started
they go on alike. -/
theorem Command.idles (h : e.Safe host code) (hi : e.Idles e') {c : Command} {r : Reply}
    (hperform : c.perform ⟨code.pages, floats, host⟩ e = some (r, t)) :
    ∃ t', c.perform ⟨code.pages, floats, host⟩ e' = some (r, t') ∧
      (t.Matches t' ∨ ¬r.Starts ∧ t.Idles t') := by
  cases c with
  | invoke f params =>
      rcases answer_eq_some hperform with ⟨rfl, hok⟩ | ⟨err, rfl, herr⟩
      · obtain ⟨t', hok', ht⟩ := h.invoke_idles hi hok
        exact ⟨t', by rw [Command.perform, hok', answer], .inl ht⟩
      · obtain ⟨ht, t', herr', ht'⟩ := h.invokeRejected_idles hi herr
        exact ⟨t', by rw [Command.perform, herr', answer], .inr ⟨nofun, hi.congr ht ht'⟩⟩
  | run fuel =>
      rw [Command.perform, run_idle hi.left.pc] at hperform
      cases hperform
      exact ⟨e', by rw [Command.perform, run_idle hi.right.pc]; rfl, .inr ⟨nofun, hi⟩⟩
  | resume v =>
      rw [Command.perform, resume_notPaused hi.left.pause] at hperform
      cases hperform
      exact ⟨e', by rw [Command.perform, resume_notPaused hi.right.pause, answer],
        .inr ⟨nofun, hi⟩⟩
  | reset =>
      cases hperform
      exact ⟨e'.reset, rfl, .inr ⟨nofun, hi.reset⟩⟩

theorem Drive.idles {cs : List (Command × Reply)}
    (hd : Drive (fun e c => c.Allowed e) ⟨code.pages, floats, host⟩ e cs t)
    (h : e.Safe host code) (hi : e.Idles e') :
    ∃ t', Drive (fun e c => c.Allowed e) ⟨code.pages, floats, host⟩ e' cs t' ∧
      (t.Matches t' ∨ (∀ p ∈ cs, ¬p.2.Starts) ∧ t.Idles t') := by
  induction hd generalizing e' with
  | nil => exact ⟨e', .nil e', .inr ⟨by simp, hi⟩⟩
  | @cons e u t c r rest hc hperform hrest ih =>
      have hsafe := Command.safe h hc hperform
      have hc' : c.Allowed e' := by
        cases c with
        | run => exact hi.right.pause
        | _ => trivial
      obtain ⟨u', hu, hm | ⟨hstarts, hi'⟩⟩ := Command.idles h hi hperform
      · obtain ⟨t', ht', hfinal⟩ := hrest.matches_ hsafe hm
        exact ⟨t', .cons hc' hu ht', .inl hfinal⟩
      · obtain ⟨t', ht', hfinal⟩ := ih hsafe hi'
        exact ⟨t', .cons hc' hu ht',
          hfinal.imp_right fun h => ⟨List.forall_mem_cons.2 ⟨hstarts, h.1⟩, h.2⟩⟩

end Engine

/-- Two engines of the same size over the same store, which were used before for whatever,
are driven in the same way, and neither is run while it is paused. They give the same
replies and leave the same store and the same world; once a function has been started they
have the same result and differ in stale words only. The local variables of every function
are zero when it starts. -/
theorem Session.Abides.drives_alike {setup setup' : HostSetup} {stackSize : ℕ} {s u : Session η}
    {cs : List (Engine.Command × Engine.Reply)} {t : Engine η}
    (hregular : host.Regular setup.hostModules) (hregular' : host.Regular setup'.hostModules)
    (hsmall : stackSize < 2 ^ 31) (hs : s.Abides setup floats host stackSize)
    (hu : u.Abides setup' floats host stackSize) (hidle : s.engine.isIdle)
    (hidle' : u.engine.isIdle) (hcode : u.code = s.code)
    (hstore : u.engine.store = s.engine.store) (hworld : u.engine.world = s.engine.world)
    (hlength : u.engine.stack.words.length = s.engine.stack.words.length)
    (hd : Engine.Drive (fun e c => c.Allowed e) (s.env floats host) s.engine cs t) :
    (∃ t', Engine.Drive (fun e c => c.Allowed e) (u.env floats host) u.engine cs t' ∧
      t'.store = t.store ∧ t'.world = t.world ∧ t'.isIdle = t.isIdle ∧
      ((∃ p ∈ cs, p.2.Starts) → t'.result = t.result ∧ t.Matches t')) ∧
    (∀ f params e, invoke f params t = .ok () e → e.Starts s.code) ∧
    ∀ e, t.hostPauseResult = none → runRound (s.env floats host) t = some (none, e) →
      t.fp < e.fp → e.Starts s.code := by
  have hs := hs.safe hregular hsmall
  have hu := hu.safe hregular' hsmall
  have ht : Session.Safe ⟨t, s.code⟩ host := hd.safe hs
  refine ⟨?_, fun f params e hinvoke => ht.invoked_starts hinvoke,
    fun e hpause hround henter => ht.entered_starts hpause hround henter⟩
  have hi : s.engine.Idles u.engine := ⟨hs.sited.idle (of_decide_eq_true hidle),
    hu.sited.idle (of_decide_eq_true hidle'), hstore, hworld, hlength⟩
  obtain ⟨t', hdrive, hfinal⟩ := hd.idles hs hi
  rw [Session.env, hcode]
  rcases hfinal with hm | ⟨hstarts, hi'⟩
  · refine ⟨t', hdrive, hm.store, hm.world, ?_, fun _ => ⟨hm.result, hm⟩⟩
    rw [Engine.isIdle, Engine.isIdle, hm.pc]
  · refine ⟨t', hdrive, hi'.store, hi'.world, ?_, ?_⟩
    · rw [hi'.left.isIdle, hi'.right.isIdle]
    · rintro ⟨p, hp, hstart⟩
      exact absurd hstart (hstarts p hp)

/-- An engine that has just loaded its module, and one that has begun to run it before and has
been reset. -/
theorem Session.Abides.drives_alike_calling : ∃ s e₁ cs t,
    emptySession.load? [0x61] calling = some s ∧ invoke ⟨0, 0⟩ [] s.engine = .ok () e₁ ∧
    Engine.drive? (fun e c => c.Allowed e) (s.env .none .quiet) [.invoke ⟨0, 0⟩ [], .run 9]
      s.engine = some (cs, t) ∧
    (∃ t', Engine.Drive (fun e c => c.Allowed e) (s.env .none .quiet) e₁.reset cs t' ∧
      t'.store = t.store ∧ t'.world = t.world ∧ t'.isIdle = t.isIdle ∧
      ((∃ p ∈ cs, p.2.Starts) → t'.result = t.result ∧ t.Matches t')) ∧
    (∀ f params e, invoke f params t = .ok () e → e.Starts s.code) ∧
    ∀ e, t.hostPauseResult = none → runRound (s.env .none .quiet) t = some (none, e) →
      t.fp < e.fp → e.Starts s.code := by
  have hrun : ((emptySession.load? [0x61] calling).bind fun s => (s.invoke? ⟨0, 0⟩).bind fun s₁ =>
      (Engine.drive? (fun e c => c.Allowed e) (s.env .none .quiet) [.invoke ⟨0, 0⟩ [], .run 9]
        s.engine).map fun _ => (s.engine.isIdle, s₁.engine.stack.words.length,
          s.engine.stack.words.length)) = some (true, 16, 16) := by decide +kernel
  obtain ⟨s, h₀, hrun⟩ := Option.bind_eq_some_iff.1 hrun
  obtain ⟨s₁, h₁, hrun⟩ := Option.bind_eq_some_iff.1 hrun
  obtain ⟨⟨cs, t⟩, h₂, hrun⟩ := Option.map_eq_some_iff.1 hrun
  simp only [Prod.mk.injEq] at hrun
  obtain ⟨hidle, hlength₁, hlength⟩ := hrun
  have habides := emptySession_abides.step (.free rfl (Session.load?_step h₀))
  have hinvoked : SessionStep .none .quiet s s₁ := Session.invoke?_step h₁
  obtain ⟨e₁, hinvoke, rfl⟩ := Session.invoke?_eq h₁
  have hsafe := habides.safe quiet_regular (by decide)
  have hpause := (Engine.Safe.invoke hsafe hinvoke).1.pause
  obtain ⟨-, m, func, ty, mem, table, words, as, -, -, -, -, -, -, -, -, rfl⟩ :=
    Engine.Safe.invoke hsafe hinvoke
  exact ⟨s, _, cs, t, h₀, hinvoke, h₂, Session.Abides.drives_alike
    (u := s.withEngine (Engine.reset _)) quiet_regular quiet_regular (by decide) habides
    ((habides.step (.free hpause hinvoked)).step .reset) hidle (decide_eq_true rfl) rfl rfl rfl
    (hlength₁.trans hlength.symm) (Engine.drive?_drive h₂)⟩

/-- A function is started and, while it waits for the host, run. -/
def overrunCommands : List Engine.Command := [.invoke ⟨0, 2⟩ [], .run 9, .run 11]

/-- The arguments of the last function of `overrunning`. -/
def overrunParams (last : Value) : List Value := [.i64 1, .i64 1, .i64 5, last]

/-- Two engines at rest over the same store, one of them after a call that was reset, which
are run while they are paused: a word that only one of them has on its stack gets into a
global. -/
theorem overrun_leftovers : ∃ s e₁ cs t t', pausingSession? overrunning = some s ∧
    s.Abides (pausingHost .i64) .none .asking 16 ∧
    invoke ⟨0, 3⟩ (overrunParams (.i64 1)) s.engine = .ok () e₁ ∧
    (s.withEngine e₁.reset).Abides (pausingHost .i64) .none .asking 16 ∧ s.engine.isIdle ∧
    e₁.reset.store = s.engine.store ∧ e₁.reset.world = s.engine.world ∧
    e₁.reset.stack.words.length = s.engine.stack.words.length ∧
    Engine.Drive (fun _ _ => True) (s.env .none .asking) s.engine cs t ∧
    Engine.Drive (fun _ _ => True) (s.env .none .asking) e₁.reset cs t' ∧
    t'.store.global? 0 0 ≠ t.store.global? 0 0 := by
  have hrun : ((pausingSession? overrunning).bind fun s =>
      (Engine.answer .invoked (invoke ⟨0, 3⟩ (overrunParams (.i64 1)) s.engine)).bind fun p =>
      (Engine.drive? (fun _ _ => True) (s.env .none .asking) overrunCommands s.engine).bind fun q =>
      (Engine.drive? (fun _ _ => True) (s.env .none .asking) overrunCommands p.2.reset).map
        fun q' => decide (p.1 = .invoked (.ok ()) ∧ s.engine.isIdle ∧
          p.2.stack.words.length = s.engine.stack.words.length ∧ q'.1 = q.1 ∧
          q'.2.store.global? 0 0 ≠ q.2.store.global? 0 0)) = some true := by decide +kernel
  obtain ⟨s, h₀, hrun⟩ := Option.bind_eq_some_iff.1 hrun
  obtain ⟨⟨r, e₁⟩, h₁, hrun⟩ := Option.bind_eq_some_iff.1 hrun
  obtain ⟨⟨cs, t⟩, h₂, hrun⟩ := Option.bind_eq_some_iff.1 hrun
  obtain ⟨⟨cs', t'⟩, h₃, hrun⟩ := Option.map_eq_some_iff.1 hrun
  obtain ⟨rfl, hidle, hlength, rfl, hglobal⟩ := of_decide_eq_true hrun
  have habides := pausingSession?_abides h₀
  have hsafe := habides.safe (asking_regular _) (by decide)
  rcases Engine.answer_eq_some h₁ with ⟨-, hinvoke⟩ | ⟨err, herr, -⟩
  · have hpause := (Engine.Safe.invoke hsafe hinvoke).1.pause
    obtain ⟨-, m, func, ty, mem, table, words, as, -, -, -, -, -, -, -, -, rfl⟩ :=
      Engine.Safe.invoke hsafe hinvoke
    exact ⟨s, _, cs', t, t', h₀, habides, hinvoke,
      (habides.step (.free hpause (.invoked _ _ hinvoke))).step .reset, hidle, rfl, rfl, hlength,
      Engine.drive?_drive h₂, Engine.drive?_drive h₃, hglobal⟩
  · cases herr

/-- A call that is rejected changes no register and nothing in the store, and whatever the
engine is told to do afterwards, it does as if the call had not been made. A result that is
rejected changes nothing. A call of a function that exists is accepted or rejected. -/
theorem Session.Abides.rejected_atomic {setup : HostSetup} {stackSize : ℕ} {s : Session η}
    (hregular : host.Regular setup.hostModules) (hsmall : stackSize < 2 ^ 31)
    (hs : s.Abides setup floats host stackSize) :
    (∀ f params err e, invoke f params s.engine = .error err e →
      e.besideStack = s.engine.besideStack ∧ e.sp = s.engine.sp ∧
      (∀ cs t, Engine.Drive (fun e c => c.Allowed e) (s.env floats host) e cs t →
        ∃ t', Engine.Drive (fun e c => c.Allowed e) (s.env floats host) s.engine cs t' ∧
          t.Matches t') ∧
      ∀ cs t, Engine.Drive (fun e c => c.Allowed e) (s.env floats host) s.engine cs t →
        ∃ t', Engine.Drive (fun e c => c.Allowed e) (s.env floats host) e cs t' ∧
          t.Matches t') ∧
    (∀ v err e, resume v s.engine = .error err e → e = s.engine) ∧
    ∀ f params func, s.engine.store.func? f = some func →
      (∃ e, invoke f params s.engine = .ok () e) ∨
        ∃ err e, invoke f params s.engine = .error err e := by
  have hs : s.Safe host := hs.safe hregular hsmall
  refine ⟨fun f params err e hinvoke => ?_, fun v err e hresume =>
    Engine.resume_rejected hresume, fun f params func hfunc => ?_⟩
  · obtain ⟨hbeside, hsp⟩ := (invoke_guarded f params s.engine).error rfl hinvoke
    have hm : s.engine.Matches e := by
      rcases hs.invokeRejected hinvoke with rfl | ⟨hrest, words, touched, hlength, rfl⟩
      · exact .refl _
      · exact hrest.matches_withStack touched hlength
    exact ⟨hbeside, hsp, fun cs t hd => hd.matches_ (Engine.Safe.matches hs hm) hm.symm,
      fun cs t hd => hd.matches_ hs hm⟩
  · obtain ⟨m, hm, hfunc⟩ := Option.bind_eq_some_iff.1 hfunc
    exact Engine.Safe.invoke_answers hs hm (List.getElem?_eq_some_iff.1 hfunc).1 params

/-- A call with an argument of a wrong type, and a call of a function that exists. -/
theorem Session.Abides.rejected_atomic_calling : ∃ s e,
    emptySession.load? [0x61] calling = some s ∧
    invoke ⟨0, 1⟩ [.i64 5] s.engine = .error .paramTypeMismatch e ∧
    (e.besideStack = s.engine.besideStack ∧ e.sp = s.engine.sp ∧
      (∀ cs t, Engine.Drive (fun e c => c.Allowed e) (s.env .none .quiet) e cs t →
        ∃ t', Engine.Drive (fun e c => c.Allowed e) (s.env .none .quiet) s.engine cs t' ∧
          t.Matches t') ∧
      ∀ cs t, Engine.Drive (fun e c => c.Allowed e) (s.env .none .quiet) s.engine cs t →
        ∃ t', Engine.Drive (fun e c => c.Allowed e) (s.env .none .quiet) e cs t' ∧
          t.Matches t') ∧
    (∃ u, resume none s.engine = .error .notPaused u ∧ u = s.engine) ∧
    ((∃ u, invoke ⟨0, 0⟩ [.i32 1] s.engine = .ok () u) ∨
      ∃ err u, invoke ⟨0, 0⟩ [.i32 1] s.engine = .error err u) := by
  have hrun : ((emptySession.load? [0x61] calling).bind fun s =>
      (Engine.answer .invoked (invoke ⟨0, 1⟩ [.i64 5] s.engine)).bind fun p =>
      (Engine.answer .resumed (resume none s.engine)).bind fun q =>
      (s.engine.store.func? ⟨0, 0⟩).map fun _ =>
        decide (p.1 = .invoked (.error .paramTypeMismatch) ∧
          q.1 = .resumed (.error .notPaused))) = some true := by decide +kernel
  obtain ⟨s, h₀, hrun⟩ := Option.bind_eq_some_iff.1 hrun
  obtain ⟨⟨r, e⟩, h₁, hrun⟩ := Option.bind_eq_some_iff.1 hrun
  obtain ⟨⟨r', u⟩, h₂, hrun⟩ := Option.bind_eq_some_iff.1 hrun
  obtain ⟨func, hfunc, hrun⟩ := Option.map_eq_some_iff.1 hrun
  obtain ⟨rfl, rfl⟩ := of_decide_eq_true hrun
  have habides := emptySession_abides.step (.free rfl (Session.load?_step h₀))
  obtain ⟨hinvoke, hresume, hexists⟩ :=
    Session.Abides.rejected_atomic quiet_regular (by decide) habides
  rcases Engine.answer_eq_some h₁ with ⟨hr, -⟩ | ⟨err, hr, herr⟩ <;> cases hr
  rcases Engine.answer_eq_some h₂ with ⟨hr, -⟩ | ⟨err, hr, herr'⟩ <;> cases hr
  exact ⟨s, e, h₀, herr, hinvoke _ _ _ _ herr, ⟨u, herr', hresume _ _ _ herr'⟩,
    hexists _ _ _ hfunc⟩

/-- A rejected call that is not as if it had not been made: an argument that it has left gets
into a global when the engine is run while it is paused. -/
theorem overrun_rejected : ∃ s e cs t t', pausingSession? overrunning = some s ∧
    s.Abides (pausingHost .i64) .none .asking 16 ∧
    invoke ⟨0, 3⟩ (overrunParams (.i32 1)) s.engine = .error .paramTypeMismatch e ∧
    Engine.Drive (fun _ _ => True) (s.env .none .asking) s.engine cs t ∧
    Engine.Drive (fun _ _ => True) (s.env .none .asking) e cs t' ∧
    t'.store.global? 0 0 ≠ t.store.global? 0 0 := by
  have hrun : ((pausingSession? overrunning).bind fun s =>
      (Engine.answer .invoked (invoke ⟨0, 3⟩ (overrunParams (.i32 1)) s.engine)).bind fun p =>
      (Engine.drive? (fun _ _ => True) (s.env .none .asking) overrunCommands s.engine).bind fun q =>
      (Engine.drive? (fun _ _ => True) (s.env .none .asking) overrunCommands p.2).map
        fun q' => decide (p.1 = .invoked (.error .paramTypeMismatch) ∧ q'.1 = q.1 ∧
          q'.2.store.global? 0 0 ≠ q.2.store.global? 0 0)) = some true := by decide +kernel
  obtain ⟨s, h₀, hrun⟩ := Option.bind_eq_some_iff.1 hrun
  obtain ⟨⟨r, e⟩, h₁, hrun⟩ := Option.bind_eq_some_iff.1 hrun
  obtain ⟨⟨cs, t⟩, h₂, hrun⟩ := Option.bind_eq_some_iff.1 hrun
  obtain ⟨⟨cs', t'⟩, h₃, hrun⟩ := Option.map_eq_some_iff.1 hrun
  obtain ⟨rfl, rfl, hglobal⟩ := of_decide_eq_true hrun
  rcases Engine.answer_eq_some h₁ with ⟨hr, -⟩ | ⟨err, hr, herr⟩ <;> cases hr
  exact ⟨s, e, cs', t, t', h₀, pausingSession?_abides h₀, herr, Engine.drive?_drive h₂,
    Engine.drive?_drive h₃, hglobal⟩

end SpaceWasm
