import SpaceWasm.Interface
import SpaceWasm.LoadOutcome

/-!
# Stack and fetch safety

Between two rounds an engine that is not idle is about to execute an instruction that the
compiler has emitted for a function of its current module, and the frame of the function
lies on the stack. A round accesses words of this frame, or the link words and the local
variables of a function that it calls, and never meets code that the decoder cannot read.
-/

namespace SpaceWasm

open Relation

variable {η : Type} {floats : FloatOps} {host : HostEnv η} {code : CodeBuilder} {e t : Engine η}
  {m : Module} {f : Func}

/-- An activation starts above the operands of its caller. -/
theorem Chain.fp_lt {s : Store} {words : List U32} {b c : Activation} {rest : List Activation}
    (hc : Chain s code words b (c :: rest)) :
    c.fp < b.fp := by
  cases hc with
  | called framed fp =>
      have hbase : c.base = c.fp + 2 + c.func.localSize := rfl
      omega

namespace Engine

/-- The engine is about to execute an instruction of the function `f` of the module `m`,
its current one. The operands, with the result for which it may be paused, stay within
the stack usage of the function. -/
structure Executing (e : Engine η) (code : CodeBuilder) (m : Module) (f : Func) : Prop where
  module : e.store.module? e.module = some m
  mem : f ∈ m.functions
  fetch : ∃ ctx L i, f.CompiledTo e.store m code ctx L ∧ i ∈ L.entries ∧ e.pc = addrOf i.addr
  params_le : f.parameterSize ≤ e.fp
  base_le : e.fp + 2 + f.localSize ≤ e.sp
  sp_le : e.sp + e.pendingWords ≤ e.fp + 2 + f.localSize + f.stackUsage
  usage_le : e.fp + 2 + f.localSize + f.stackUsage ≤ e.stack.words.length

/-- The word is a parameter, a link word, a local variable or an operand of `f`. -/
def Owns (e : Engine η) (f : Func) (i : ℕ) : Prop :=
  e.fp - f.parameterSize ≤ i ∧ i < e.fp + 2 + f.localSize + f.stackUsage

variable {s : Store} {a : Activation} {rest : List Activation} {h : ℕ}

theorem Running.executing (hrun : e.Running e.store code a rest h) :
    ∃ m, e.Executing code m a.func := by
  have hbase : a.base = a.fp + 2 + a.func.localSize := rfl
  have hhigh : a.high = a.base + a.func.stackUsage := rfl
  have hle := hrun.at_.le
  have hhigh_le := hrun.chain.high_le
  have hsp := hrun.sp
  obtain ⟨m, ctx, L, i, hbody, hi, en, hen, rfl, -⟩ := hrun.at_
  refine ⟨m, hrun.module ▸ hbody.module, hbody.mem, ⟨ctx, L, en, hbody.compiled, hen, hi⟩, ?_, ?_,
    ?_, ?_⟩ <;> rw [hrun.fp]
  · exact hrun.chain.params_le
  · exact hrun.base_le
  · omega
  · omega

theorem Running.owns (hrun : e.Running s code a rest h) {i : ℕ} (hi : a.window.Covers i 1) :
    e.Owns a.func i := by
  unfold Owns
  rw [hrun.fp]
  exact hi

end Engine

/-- The engine after some rounds of a session is as safe as the session. -/
theorem Session.Abides.safe_rounds {setup : HostSetup} {stackSize : ℕ} {s : Session η}
    (hregular : host.Regular setup.hostModules) (hsmall : stackSize < 2 ^ 31)
    (h : s.Abides setup floats host stackSize)
    (hrounds : ReflTransGen (fun u u' => u.hostPauseResult = none ∧
      runRound (s.env floats host) u = some (none, u')) s.engine e) : e.Safe host s.code := by
  induction hrounds with
  | refl => exact h.safe hregular hsmall
  | tail _ hround ih => exact (ih.round hround.1 hround.2).1

/-- The current module is the owner of the function that is executed, and the engine caches
the memory and the table that the store resolves for it, which exist. -/
structure Engine.InModule (e : Engine η) (code : CodeBuilder) : Prop where
  owner : ∃ m f ctx L i, e.store.module? e.module = some m ∧ f ∈ m.functions ∧
    f.CompiledTo e.store m code ctx L ∧ i ∈ L.entries ∧ e.pc = addrOf i.addr
  memory : e.store.getMemory e.module = some e.memory
  table : e.store.getTable e.module = some e.table
  memory_lt : e.memory < e.store.memories.length
  table_lt : e.table < e.store.tables.length

theorem Engine.Safe.inModule (h : e.Safe host code) (hbusy : ¬e.isIdle) : e.InModule code := by
  have hpc : e.pc ≠ JumpTarget.sentinel := fun hpc => hbusy (decide_eq_true hpc)
  obtain ⟨a, rest, n, hrun⟩ := h.sited.running hpc
  obtain ⟨m, hm⟩ := hrun.executing
  obtain ⟨ctx, L, i, hcompiled, hi, haddr⟩ := hm.fetch
  obtain ⟨hmemory, htable⟩ := h.coherent hpc
  exact ⟨⟨m, a.func, ctx, L, i, hm.module, hm.mem, hcompiled, hi, haddr⟩, hmemory, htable,
    h.bounded.linked.getMemory_lt hmemory, h.bounded.linked.getTable_lt htable⟩

/-- Whatever calls, returns, host calls and growing memories have gone before, an engine that
is not idle is in the module whose function it executes: after every call of the embedder
that abides by the protocol, and between any two rounds of a run. -/
theorem Session.Abides.in_module {setup : HostSetup} {stackSize : ℕ} {s : Session η}
    (hregular : host.Regular setup.hostModules) (hsmall : stackSize < 2 ^ 31)
    (h : s.Abides setup floats host stackSize)
    (hrounds : ReflTransGen (fun u u' => u.hostPauseResult = none ∧
      runRound (s.env floats host) u = some (none, u')) s.engine e) (hbusy : ¬e.isIdle) :
    e.InModule s.code :=
  (h.safe_rounds hregular hsmall hrounds).inModule hbusy

/-- Before every instruction of every run, the function that is executed is one of the current
module, and the memory and the table that the engine has cached are those that the store
resolves for this module. -/
theorem Session.Abides.context_coherent {setup : HostSetup} {stackSize : ℕ} {s : Session η}
    (hregular : host.Regular setup.hostModules) (hsmall : stackSize < 2 ^ 31)
    (h : s.Abides setup floats host stackSize)
    (hrounds : ReflTransGen (fun u u' => u.hostPauseResult = none ∧
      runRound (s.env floats host) u = some (none, u')) s.engine e) (hbusy : ¬e.isIdle) :
    ∃ m f, e.Executing s.code m f ∧ e.store.getMemory e.module = some e.memory ∧
      e.store.getTable e.module = some e.table := by
  have hsafe := h.safe_rounds hregular hsmall hrounds
  have hpc : e.pc ≠ JumpTarget.sentinel := fun hpc => hbusy (decide_eq_true hpc)
  obtain ⟨a, rest, n, hrun⟩ := hsafe.sited.running hpc
  obtain ⟨m, hm⟩ := hrun.executing
  obtain ⟨hmemory, htable⟩ := hsafe.coherent hpc
  exact ⟨m, a.func, hm, hmemory, htable⟩

/-- A module with a table that exports its function `f`. -/
def calledModule : List U8 :=
  [0x00, 0x61, 0x73, 0x6D, 0x01, 0x00, 0x00, 0x00, 0x01, 0x04, 0x01, 0x60, 0x00, 0x00, 0x03, 0x02,
    0x01, 0x00, 0x04, 0x04, 0x01, 0x70, 0x00, 0x01, 0x07, 0x05, 0x01, 0x01, 0x66, 0x00, 0x00, 0x0A,
    0x04, 0x01, 0x02, 0x00, 0x0B]

/-- A module with a table of its own whose function calls `f` of the module `a`. -/
def callingModule : List U8 :=
  [0x00, 0x61, 0x73, 0x6D, 0x01, 0x00, 0x00, 0x00, 0x01, 0x04, 0x01, 0x60, 0x00, 0x00, 0x02, 0x07,
    0x01, 0x01, 0x61, 0x01, 0x66, 0x00, 0x00, 0x03, 0x02, 0x01, 0x00, 0x04, 0x04, 0x01, 0x70, 0x00,
    0x01, 0x0A, 0x06, 0x01, 0x04, 0x00, 0x10, 0x00, 0x0B]

/-- The session in front of a call from one module into the other. -/
def crossingSession? : Option (Session Unit) :=
  (Capi.replay .none .quiet [.loadModule simpleEnv [0x61] (Reader.new (.ofBytes calledModule)),
    .loadModule simpleEnv [0x62] (Reader.new (.ofBytes callingModule)), .invoke 1 0 []]
      emptySession).map Prod.snd

theorem crossingSession?_abides {s : Session Unit} (h : crossingSession? = some s) :
    s.Abides emptyHost .none .quiet 16 := by
  obtain ⟨⟨calls, t⟩, hreplay, rfl⟩ := Option.map_eq_some_iff.1 h
  exact emptySession_abides.trace quiet_regular (by decide) (Capi.replay_trace hreplay)

/-- The call changes the module and the table that is cached. -/
theorem Session.Abides.context_coherent_crossing : ∃ s t, crossingSession? = some s ∧
    runRound (s.env .none .quiet) s.engine = some (none, t) ∧ s.engine.module = 1 ∧
    t.module = 0 ∧ t.table ≠ s.engine.table ∧
    ∃ m f, t.Executing s.code m f ∧ t.store.getMemory t.module = some t.memory ∧
      t.store.getTable t.module = some t.table := by
  have hrun : (crossingSession?.bind fun s => (runRound (s.env .none .quiet) s.engine).map
      fun p => (s.engine.hostPauseResult, p.1, p.2.isIdle, s.engine.module, p.2.module,
        decide (p.2.table ≠ s.engine.table))) = some (none, none, false, 1, 0, true) := by
    decide +kernel
  obtain ⟨s, hs, hrun⟩ := Option.bind_eq_some_iff.1 hrun
  obtain ⟨⟨r, t⟩, hround, hrun⟩ := Option.map_eq_some_iff.1 hrun
  simp only [Prod.mk.injEq] at hrun
  obtain ⟨hpause, rfl, hidle, hfrom, hinto, htable⟩ := hrun
  exact ⟨s, t, hs, hround, hfrom, hinto, of_decide_eq_true htable,
    Session.Abides.context_coherent quiet_regular (by decide) (crossingSession?_abides hs)
      (.single ⟨hpause, hround⟩) (by rw [hidle]; decide)⟩

/-- After the return the caller's module and table are those of the engine again. -/
theorem Session.Abides.in_module_crossing : ∃ s e t, crossingSession? = some s ∧
    runRound (s.env .none .quiet) s.engine = some (none, e) ∧
    runRound (s.env .none .quiet) e = some (none, t) ∧
    (e.module = 0 ∧ t.module = 1) ∧ t.table ≠ e.table ∧ t.InModule s.code := by
  have hrun : (crossingSession?.bind fun s => (runRound (s.env .none .quiet) s.engine).bind
      fun p => (runRound (s.env .none .quiet) p.2).map fun q => (decide
        (s.engine.hostPauseResult = none ∧ p.1 = none ∧ p.2.hostPauseResult = none ∧
          q.1 = none ∧ q.2.table ≠ p.2.table), q.2.isIdle, p.2.module, q.2.module)) =
      some (true, false, 0, 1) := by decide +kernel
  obtain ⟨s, hs, hrun⟩ := Option.bind_eq_some_iff.1 hrun
  obtain ⟨⟨r, e⟩, hround, hrun⟩ := Option.bind_eq_some_iff.1 hrun
  obtain ⟨⟨r', t⟩, hround', hrun⟩ := Option.map_eq_some_iff.1 hrun
  simp only [Prod.mk.injEq, decide_eq_true_eq] at hrun
  obtain ⟨⟨hpause, rfl, hpause', rfl, htable⟩, hidle, hinto, hback⟩ := hrun
  exact ⟨s, e, t, hs, hround, hround', ⟨hinto, hback⟩, htable, Session.Abides.in_module
    quiet_regular (by decide) (crossingSession?_abides hs)
    ((ReflTransGen.single ⟨hpause, hround⟩).tail ⟨hpause', hround'⟩) (by rw [hidle]; decide)⟩

end SpaceWasm
