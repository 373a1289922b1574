import SpaceWasm.LiveTables
import SpaceWasm.WellFormed

/-!
# Every call is answered

The checks of the C interface and what loading establishes keep a call from a panic. The
one exception is a run that looks up a table entry which a load that has failed has left
behind.
-/

namespace SpaceWasm

variable {η : Type} {floats : FloatOps} {host : HostEnv η} {code : CodeBuilder} {e : Engine η}

/-! ### Engines -/

namespace Engine

theorem Safe.run_answers (h : e.Safe host code) (hlive : e.store.TablesLive)
    (hpause : e.hostPauseResult = none) (n : ℕ) :
    ∃ r t, SpaceWasm.run ⟨code.pages, floats, host⟩ n e = some (r, t) := by
  refine Exists.imp (fun r => Exists.imp fun t => And.left) (boundedRun_invariant
    (I := fun u : Engine η => u.Safe host code ∧ u.store.TablesLive ∧ u.hostPauseResult = none)
    (Q := fun _ _ => True) ?_ n ⟨h, hlive, hpause⟩)
  rintro u ⟨h, hlive, hpause⟩
  by_cases hpc : u.pc = JumpTarget.sentinel
  · exact ⟨_, u, runRound_idle hpc, trivial⟩
  · obtain ⟨a, rest, k, hrun⟩ := h.sited.running hpc
    have hready : u.Ready ⟨code.pages, floats, host⟩ code := h.ready hpc hpause
    rcases hrun.round (.refl u) hready with ⟨r, t, -, hround, -⟩ | ⟨-, hdangling, -⟩
    · obtain ⟨hsafe, hfree, -⟩ := h.round hpause hround
      refine ⟨r, t, hround, ?_⟩
      cases r with
      | none => exact ⟨hsafe, hlive.runs (runRound_continues hround).runs, hfree rfl⟩
      | some r => trivial
    · exact absurd hlive.calleeLive hdangling

/-- A call of a function that exists is accepted or rejected. -/
theorem Safe.invoke_answers (h : e.Safe host code) {f : WasmRef} {m : Module}
    (hmodule : e.store.module? f.module = some m) (hlt : f.index.toNat < m.functions.length)
    (params : List Value) :
    (∃ t, SpaceWasm.invoke f params e = .ok () t) ∨
      ∃ err t, SpaceWasm.invoke f params e = .error err t := by
  by_cases hpc : e.pc = JumpTarget.sentinel
  · have hrest := h.sited.idle hpc
    have hfunc := List.getElem?_eq_getElem hlt
    obtain ⟨ty, hdecl⟩ := (h.coded m (List.mem_of_getElem? hmodule)).declared _
      (List.getElem_mem hlt)
    cases hrejection : m.functions[f.index.toNat].rejection ty params e.stack.words.length with
    | some err =>
        obtain ⟨words, touched, -, hrun⟩ := invoke_error hrest hmodule hfunc hdecl.type hrejection
        exact .inr ⟨err, _, hrun⟩
    | none =>
        obtain ⟨mem, hmem⟩ := h.bounded.linked.getMemory_eq hmodule
        obtain ⟨table, htable⟩ := h.bounded.linked.getTable_eq hmodule
        obtain ⟨words, as, -, -, -, hrun⟩ :=
          invoke_ok hrest hmodule hfunc hdecl.type hrejection hmem htable
        exact .inl ⟨_, hrun⟩
  · exact .inr ⟨.busy, e, invoke_busy hpc f params⟩

theorem Safe.resume_answers (h : e.Safe host code) (v : Option Value) :
    (∃ t, SpaceWasm.resume v e = .ok () t) ∨ ∃ err t, SpaceWasm.resume v e = .error err t := by
  cases hp : e.hostPauseResult with
  | none => exact .inr ⟨_, e, resume_notPaused hp v⟩
  | some ret =>
      by_cases hv : v.map Value.type = ret
      · obtain ⟨as, -, hresume⟩ := resume_ok hp hv (h.resume_room hp).2
        exact .inl ⟨_, hresume⟩
      · exact .inr ⟨_, e, resume_mismatch hp hv⟩

end Engine

/-! ### Calls -/

namespace Capi

variable {s t : Session η}

theorem loadModule_answers (hs : s.Safe host) (env : LoadEnv) (name : Name) (wasm : Reader) :
    ∃ p, loadModule env name wasm s = some p := by
  unfold loadModule
  split
  · exact ⟨_, rfl⟩
  · cases h : SpaceWasm.loadModule (s.engine.loadEnv env) name wasm s.target with
    | ok r t => exact ⟨_, rfl⟩
    | error err t => exact ⟨_, rfl⟩
    | panic => exact absurd hs.bounded.linked (loadModule_not_linked h)
    | diverge => exact absurd h (loadModule_ne_diverge _ _ _ _)

/-- The checks leave only references to functions that exist. -/
theorem checkInvoke_exists (hs : s.engine.store.Bounded) {module func : U32} {params : List CValue}
    {idle : Bool} {f : WasmRef} {vs : List Value}
    (h : checkInvoke module func params idle s.engine.store = .ok (f, vs)) :
    ∃ m, s.engine.store.module? f.module = some m ∧ f.index.toNat < m.functions.length := by
  obtain ⟨-, hindex, -, rfl, m, hm, hlt⟩ := checkInvoke_eq_ok h
  refine ⟨m, hs.linked.module?_ofNat hm, ?_⟩
  rwa [toNat_ofNat_of_lt (Nat.lt_succ_of_le hindex)]

theorem invoke_answers (hs : s.Safe host) (module func : U32) (params : List CValue) :
    ∃ p, invoke module func params s = some p := by
  unfold invoke
  split
  · exact ⟨_, rfl⟩
  · next f vs hcheck =>
    obtain ⟨m, hm, hlt⟩ := checkInvoke_exists hs.bounded hcheck
    rcases hs.invoke_answers hm hlt vs with ⟨t, h⟩ | ⟨err, t, h⟩ <;> rw [h] <;> exact ⟨_, rfl⟩

theorem resumeWith_answers (hs : s.Safe host) (v : Option Value) :
    ∃ p, resumeWith v s = some p := by
  unfold resumeWith
  rcases hs.resume_answers v with ⟨t, h⟩ | ⟨err, t, h⟩ <;> rw [h] <;> exact ⟨_, rfl⟩

theorem resumeValue_answers (hs : s.Safe host) (v : CValue) : ∃ p, resumeValue v s = some p := by
  unfold resumeValue
  split
  · exact ⟨_, rfl⟩
  · exact resumeWith_answers hs _

theorem run_answers (hs : s.Safe host) (hlive : s.engine.store.TablesLive)
    (hpause : s.engine.hostPauseResult = none) (fuel : ℕ) :
    ∃ p, run floats host fuel s = some p := by
  unfold run
  split
  · exact ⟨_, rfl⟩
  · have hrun : ∃ r t, SpaceWasm.run (s.env floats host) fuel s.engine = some (r, t) :=
      Engine.Safe.run_answers hs hlive hpause fuel
    obtain ⟨r, t, hrun⟩ := hrun
    exact ⟨_, congrArg (Option.map _) hrun⟩

theorem question_answers (hwell : s.engine.store.WellFormed) (q : Question) :
    ∃ a, q.answer s = some a := by
  cases q with
  | moduleStart module =>
      obtain ⟨x, hx⟩ := moduleStart_answers hwell module
      exact ⟨_, congrArg (Option.map _) hx⟩
  | findModule | findExportFunc | findGlobal | getGlobal | checkFuncSignature | getResult =>
      exact ⟨_, rfl⟩

/-- A call that panics is a run over a table with an entry for a function that does not
exist. -/
theorem Call.panics (hs : s.Safe host) (hwell : s.engine.store.WellFormed) {c : Call η}
    (hc : c.Allowed s)
    (h : c.perform floats host s = none) :
    (∃ fuel, c = .run fuel) ∧ ¬s.engine.store.TablesLive := by
  have hanswered : ∀ {β : Type} {f : β → Answer} {x : Option (β × Session η)},
      (∃ p, x = some p) → x.map (Prod.map f id) ≠ none := by
    rintro β f x ⟨p, rfl⟩
    simp
  cases c with
  | loadModule env name wasm => exact absurd h (hanswered (loadModule_answers hs env name wasm))
  | invoke module func params => exact absurd h (hanswered (invoke_answers hs module func params))
  | run fuel => exact ⟨⟨fuel, rfl⟩, fun hlive => hanswered (run_answers hs hlive hc fuel) h⟩
  | resume => exact absurd h (hanswered (resumeWith_answers hs none))
  | resumeValue v => exact absurd h (hanswered (resumeValue_answers hs v))
  | ask q =>
      obtain ⟨a, ha⟩ := question_answers hwell q
      cases ha.symm.trans (Option.map_eq_none_iff.1 h)
  | setGlobal | reset | outside => cases h

end Capi

/-- A module with an exported table and a function that calls its first entry. -/
def callingTable : List U8 :=
  [0x00, 0x61, 0x73, 0x6D, 0x01, 0x00, 0x00, 0x00, 0x01, 0x04, 0x01, 0x60, 0x00, 0x00, 0x03, 0x02,
    0x01, 0x00, 0x04, 0x04, 0x01, 0x70, 0x00, 0x01, 0x07, 0x05, 0x01, 0x01, 0x74, 0x01, 0x00, 0x0A,
    0x09, 0x01, 0x07, 0x00, 0x41, 0x00, 0x11, 0x00, 0x00, 0x0B]

/-- The table is filled by another module, or by a load that fails, before it is called. -/
def tableCalls (other : List U8) : List (Capi.Call Unit) :=
  [.loadModule simpleEnv [0x61] (Reader.new (.ofBytes callingTable)),
    .loadModule simpleEnv [0x62] (Reader.new (.ofBytes other)), .invoke 0 0 []]

/-- From a new engine whose tables are live, whatever calls follow one another, those that the
protocol forbids among them: unless a load has failed, every entry of every table goes on
to designate a function that exists. -/
theorem Capi.Calls.tables_live {setup : HostSetup} {stackSize : ℕ} {store : Store} {world : η}
    {s : Session η} {calls : List (Call η × Answer)} (hstore : setup.store = .ok store)
    (hlive : store.TablesLive)
    (h : Calls floats host ⟨Engine.new stackSize store world, code⟩ calls s)
    (hanswers : ∀ p ∈ calls, ¬p.2.Fails) : s.engine.store.TablesLive :=
  h.tablesLive (HostSetup.bounded hstore) hlive hanswers

theorem emptyStore_live : emptyStore.TablesLive := by
  intro entries hentries x hx
  obtain rfl : entries = [] := List.mem_singleton.1 hentries
  cases hx

theorem Capi.Calls.tables_live_writing : ∃ calls s,
    replay .none .quiet (tableCalls writingTable ++ [.run 9]) emptySession = some (calls, s) ∧
      s.engine.store.TablesLive := by
  have hrun : ((replay .none .quiet (tableCalls writingTable ++ [.run 9]) emptySession).map
      fun p => decide (∀ q ∈ p.1, ¬q.2.Fails)) = some true := by decide +kernel
  obtain ⟨⟨calls, s⟩, hreplay, hcalls⟩ := Option.map_eq_some_iff.1 hrun
  have hstore : emptyHost.store = .ok emptyStore := rfl
  exact ⟨calls, s, hreplay, Capi.Calls.tables_live hstore emptyStore_live
    (replay_trace hreplay).calls (of_decide_eq_true hcalls)⟩

/-- Every call that the protocol allows is answered. It may only panic when it is a run and
a load has failed before. -/
theorem Capi.Trace.answered {setup : HostSetup} {stackSize : ℕ} {store : Store} {world : η}
    {s : Session η} {calls : List (Call η × Answer)} (hregular : host.Regular setup.hostModules)
    (hsmall : stackSize < 2 ^ 31) (hstore : setup.store = .ok store) (hlive : store.TablesLive)
    (h : Trace floats host ⟨Engine.new stackSize store world, code⟩ calls s) {c : Call η}
    (hc : c.Allowed s) (hpanic : c.perform floats host s = none) :
    (∃ fuel, c = .run fuel) ∧ ∃ p ∈ calls, p.2.Fails := by
  have hnew : (⟨Engine.new stackSize store world, code⟩ : Session η).Abides setup floats host
      stackSize := ⟨store, code, world, hstore, .refl⟩
  have hs := hnew.trace hregular hsmall h
  obtain ⟨hrun, hdangling⟩ :=
    Call.panics (hs.safe hregular hsmall) hs.reachable.wellFormed.2 hc hpanic
  refine ⟨hrun, ?_⟩
  by_contra hnone
  exact hdangling (h.calls.tablesLive (HostSetup.bounded hstore) hlive fun p hp hfails =>
    hnone ⟨p, hp, hfails⟩)

/-- A run that panics: the module that has failed to load has left its function in the table. -/
theorem Capi.Trace.answered_writing : ∃ calls s,
    replay .none .quiet (tableCalls writingTable.dropLast) emptySession = some (calls, s) ∧
      Call.perform .none .quiet s (.run 9) = none ∧
      (∃ fuel, (.run 9 : Call Unit) = .run fuel) ∧ ∃ p ∈ calls, p.2.Fails := by
  have hrun : ((replay .none .quiet (tableCalls writingTable.dropLast) emptySession).map
      fun p => (decide ((Call.run 9).Allowed p.2),
        (Call.perform .none .quiet p.2 (Call.run 9)).isNone)) =
      some (true, true) := by decide +kernel
  obtain ⟨⟨calls, s⟩, hreplay, heq⟩ := Option.map_eq_some_iff.1 hrun
  obtain ⟨hallowed, hpanic⟩ := Prod.mk.inj heq
  have hpanic := Option.isNone_iff_eq_none.1 hpanic
  have hregular : HostEnv.Regular .quiet emptyHost.hostModules := quiet_regular
  exact ⟨calls, s, hreplay, hpanic, Capi.Trace.answered hregular (by decide) rfl emptyStore_live
    (replay_trace hreplay) (of_decide_eq_true hallowed) hpanic⟩

end SpaceWasm
