import SpaceWasm.StackSafety

/-!
# Calls and returns

A round that raises the frame pointer calls a function. Whatever the callee calls in turn,
wherever its rounds are cut into slices and however often it pauses, the round that takes
the frame pointer below that of the callee returns from it: the caller goes on behind its
call, with the results in the place of the arguments and its words as they were.
-/

namespace SpaceWasm

open Relation

variable {η : Type} {floats : FloatOps} {host : HostEnv η} {code : CodeBuilder}

/-! ### Rounds of a session -/

/-- What may happen to an engine that is not idle: a round, the result of a host function
that has paused, or a change that the embedder makes between the slices. -/
inductive Session.Slice (floats : FloatOps) (host : HostEnv η) (s : Session η) :
    Session η → Prop where
  | round {r : RoundResult} {e : Engine η} : s.engine.hostPauseResult = none →
      runRound (s.env floats host) s.engine = some (r, e) → r = none ∨ r = some .pause →
      Slice floats host s (s.withEngine e)
  | resumed (v : Option Value) {e : Engine η} : resume v s.engine = .ok () e →
      Slice floats host s (s.withEngine e)
  | outside (world : η) (writes : List ByteWrite) :
      Slice floats host s
        (s.withEngine { s.engine with world := world, store := s.engine.store.writeBytes writes })
  | setGlobal (r : ModuleRef) (x : U16) (v : RawValue) :
      Slice floats host s
        (s.withEngine { s.engine with store := s.engine.store.setGlobal r x v })

variable {s s' : Session η}

/-- A round is a run with the fuel for it. -/
theorem Session.Slice.protocol (h : s.Slice floats host s') : ProtocolStep floats host s s' := by
  cases h with
  | @round r e hpause hround hr =>
      obtain ⟨r', hrun⟩ : ∃ r', run (s.env floats host) 1 s.engine = some (r', e) := by
        rw [run, boundedRun, hround]
        rcases hr with rfl | rfl
        · exact ⟨.outOfFuel, rfl⟩
        · exact ⟨.pause, rfl⟩
      exact .free hpause (.ran 1 hrun)
  | resumed v hresume => exact .resumed v hresume
  | outside world writes => exact .outside world writes
  | setGlobal r x v => exact .setGlobal r x v

/-! ### Inside a callee -/

variable {a b c : Activation} {rest below : List Activation} {n : ℕ} {words : List U32}
  {e t t' : Engine η}

/-- Below an activation are those that have called it. -/
theorem Chain.above {st : Store} (hc : Chain st code words a rest)
    (h : b :: below <:+ a :: rest) :
    b = a ∧ below = rest ∨ b.fp < a.fp ∧ b.low ≤ a.low ∧ b :: below <:+ rest := by
  rcases List.suffix_cons_iff.1 h with h | h
  · cases h
    exact .inl ⟨rfl, rfl⟩
  · refine .inr ?_
    induction hc with
    | outermost => cases List.suffix_nil.1 h
    | @called a d rest k framed fp pc returns chain ih =>
        have hbase : d.base = d.fp + 2 + d.func.localSize := rfl
        have hlow : a.low = a.fp - a.func.parameterSize := rfl
        have hlow' : d.low = d.fp - d.func.parameterSize := rfl
        rcases List.suffix_cons_iff.1 h with heq | hsuffix
        · cases heq
          exact ⟨by omega, by omega, h⟩
        · obtain ⟨hfp, hle, -⟩ := ih h hsuffix
          exact ⟨by omega, by omega, h⟩

/-- The round from `e₀` to `e₁` has called `f`, and that from `e₂` to `e₃` has returned from
this call: to the frame and the module of the caller, behind its call, with the results in
the place of the arguments and the words below them as they were. The results are the
topmost operands of the callee, below at most one word: the condition or the selector of
the branch that returns. -/
structure Engine.Returns (e₀ e₁ e₂ e₃ : Engine η) (f : Func) : Prop where
  fp : e₃.fp = e₀.fp
  module : e₃.module = e₀.module
  pc : e₃.pc = e₀.pc + 2
  sp : e₃.sp = e₁.fp - f.parameterSize + f.returnTy.words
  words : ∀ i < e₁.fp - f.parameterSize, e₃.stack.words[i]? = e₀.stack.words[i]?
  results : ∃ top, e₁.fp + 2 + f.localSize + f.returnTy.words ≤ top ∧ top ≤ e₂.sp ∧
    e₂.sp ≤ top + 1 ∧ ∀ i < f.returnTy.words, e₃.stack.words[e₁.fp - f.parameterSize + i]? =
      e₂.stack.words[top - f.returnTy.words + i]?

/-- The round from `e` to `t` returns from the activation `b` to its caller `c`. The results
are the topmost operands, below at most one word. -/
structure Engine.Leaves (e t : Engine η) (b c : Activation) : Prop where
  fp : t.fp = c.fp
  module : t.module = c.module
  pc : t.pc = b.returnPc + 2
  sp : t.sp = b.low + b.func.returnTy.words
  words : ∀ i < b.low, t.stack.words[i]? = e.stack.words[i]?
  results : ∃ top, b.base + b.func.returnTy.words ≤ top ∧ top ≤ e.sp ∧ e.sp ≤ top + 1 ∧
    ∀ i < b.func.returnTy.words,
      t.stack.words[b.low + i]? = e.stack.words[top - b.func.returnTy.words + i]?

/-- What a round does inside `b`: it stays there, or it returns from `b` to its caller. -/
theorem Engine.Advance.inner {st : Store} (hrun : e.Running st code a rest n)
    (h : b :: c :: below <:+ a :: rest) (hadv : Engine.Advance 1 st code a rest e t) :
    ((∃ a' rest' n', t.Running st code a' rest' n' ∧ b :: c :: below <:+ a' :: rest') ∧
        b.fp ≤ t.fp ∧ ∀ i < b.low, t.stack.words[i]? = e.stack.words[i]?) ∨
      a = b ∧ t.fp < b.fp ∧ e.Leaves t b c := by
  have hlow : b.low ≤ a.low ∧ b.fp ≤ a.fp := by
    rcases hrun.chain.above h with ⟨rfl, -⟩ | ⟨hfp, hle, -⟩
    · exact ⟨Nat.le_refl _, Nat.le_refl _⟩
    · exact ⟨hle, Nat.le_of_lt hfp⟩
  have hwindow : ∀ i < b.low, ¬a.window.Covers i 1 := fun i hi hc =>
    absurd hc.1 (Nat.not_le.2 (Nat.lt_of_lt_of_le hi hlow.1))
  cases hadv with
  | stays running stack =>
      exact .inl ⟨⟨_, _, _, running, h⟩, running.fp ▸ hlow.2, fun i hi =>
        stack.words i fun hw => hwindow i hi hw.1⟩
  | @enters d running pc stack zero =>
      have hfp := Chain.fp_lt running.chain
      refine .inl ⟨⟨_, _, _, running, h.trans (List.suffix_cons _ _)⟩, ?_, fun i hi =>
        stack.words i fun hw => ?_⟩
      · rw [running.fp]
        omega
      · have hparams : a.low ≤ a.fp := Nat.sub_le _ _
        omega
  | leaves top rest_eq running pc sp stack top_le le_top dropped results =>
      subst rest_eq
      rcases hrun.chain.above h with ⟨rfl, heq⟩ | ⟨-, -, hsuffix⟩
      · cases heq
        exact .inr ⟨rfl, by rw [running.fp]; exact Chain.fp_lt hrun.chain, running.fp,
          running.module, pc, sp, fun i hi => stack.words i (hwindow i hi), top, top_le, le_top,
          dropped, results⟩
      · refine .inl ⟨⟨_, _, _, running, hsuffix⟩, ?_, fun i hi => stack.words i (hwindow i hi)⟩
        rw [running.fp]
        rcases running.chain.above hsuffix with ⟨rfl, -⟩ | ⟨hfp, -⟩
        · exact Nat.le_refl _
        · exact Nat.le_of_lt hfp

/-- The session runs the activation `b`, which `c` has called, or one that `b` has called;
the words below the parameters of `b` are those in `words`. -/
structure Session.Inside (s : Session η) (b c : Activation) (below : List Activation)
    (words : List U32) : Prop where
  running : ∃ a rest n, s.engine.Running s.engine.store s.code a rest n ∧
    b :: c :: below <:+ a :: rest
  words : ∀ i < b.low, s.engine.stack.words[i]? = words[i]?

namespace Session

variable (hs : s.Safe host)

include hs

/-- A round inside `b` stays there, or it returns from `b`. -/
theorem Inside.round (h : s.Inside b c below words) (hpause : s.engine.hostPauseResult = none)
    {r : RoundResult} (hround : runRound (s.env floats host) s.engine = some (r, t))
    (hr : r = none ∨ r = some .pause) :
    (s.withEngine t).Inside b c below words ∧ b.fp ≤ t.fp ∨
      t.fp < b.fp ∧ s.engine.Leaves t b c ∧
        ∃ n, s.engine.Running s.engine.store s.code b (c :: below) n := by
  obtain ⟨⟨a, rest, n, hrun, hsuffix⟩, hwords⟩ := h
  obtain ⟨t', hto⟩ := hs.roundsTo hrun hpause hround
  have hruns := (runRound_continues hround).runs
  cases hto with
  | next advance =>
      rcases advance.inner hrun hsuffix with ⟨⟨a', rest', n', hrun', hsuffix'⟩, hfp, hsame⟩ |
        ⟨rfl, hfp, hleaves⟩
      · exact .inl ⟨⟨⟨a', rest', n', hrun'.runs hruns, hsuffix'⟩, fun i hi =>
          (hsame i hi).trans (hwords i hi)⟩, hfp⟩
      · refine .inr ⟨hfp, hleaves, n, ?_⟩
        rcases hrun.chain.above hsuffix with ⟨-, rfl⟩ | ⟨hlt, -⟩
        · exact hrun
        · exact absurd hlt (Nat.lt_irrefl _)
  | pause running _ stack =>
      rcases Engine.Advance.inner hrun hsuffix (.stays running stack) with
        ⟨⟨a', rest', n', hrun', hsuffix'⟩, hfp, hsame⟩ | ⟨rfl, hfp, -⟩
      · exact .inl ⟨⟨⟨a', rest', n', hrun'.runs hruns, hsuffix'⟩, fun i hi =>
          (hsame i hi).trans (hwords i hi)⟩, hfp⟩
      · rw [running.fp] at hfp
        exact absurd hfp (Nat.lt_irrefl _)
  | trap | finished => simp at hr

/-- Inside `b` until the frame pointer falls below its own. -/
theorem Inside.slice (h : s.Inside b c below words) (hslice : s.Slice floats host s')
    (hfp : b.fp ≤ s'.engine.fp) : s'.Inside b c below words := by
  cases hslice with
  | round hpause hround hr =>
      rcases h.round hs hpause hround hr with ⟨h, -⟩ | ⟨hlt, -⟩
      · exact h
      · exact absurd hfp (Nat.not_le.2 hlt)
  | resumed v hresume =>
      obtain ⟨a, rest, n, hrun, hsuffix⟩ := h.running
      obtain ⟨-, -, -, as, -, hp, -, rfl⟩ := hs.resume hresume
      refine ⟨⟨a, rest, n, hrun.resumed hp rfl as, hsuffix⟩, fun i hi => ?_⟩
      have hbase : a.base = a.fp + 2 + a.func.localSize := rfl
      have hlow : a.low = a.fp - a.func.parameterSize := rfl
      have hle := hrun.base_le
      refine ((s.engine.resumed_words v as).word i (.inl ?_)).trans (h.words i hi)
      rcases hrun.chain.above hsuffix with ⟨rfl, -⟩ | ⟨-, hlow', -⟩ <;> omega
  | outside world writes =>
      obtain ⟨a, rest, n, hrun, hsuffix⟩ := h.running
      exact ⟨⟨a, rest, n, hrun.store world (.writeBytes _ _), hsuffix⟩, h.words⟩
  | setGlobal r x v =>
      obtain ⟨a, rest, n, hrun, hsuffix⟩ := h.running
      exact ⟨⟨a, rest, n, hrun.store _ (.setGlobal _ _ _ _), hsuffix⟩, h.words⟩

/-- So through any number of slices. -/
theorem Inside.slices (h : s.Inside b c below words)
    (hslices : ReflTransGen (fun s s' => Slice floats host s s' ∧ b.fp ≤ s'.engine.fp) s s') :
    s'.Safe host ∧ s'.Inside b c below words := by
  induction hslices with
  | refl => exact ⟨hs, h⟩
  | tail _ hstep ih => exact ⟨hstep.1.protocol.safe ih.1, ih.2.slice ih.1 hstep.1 hstep.2⟩

/-- A round that raises the frame pointer calls a function. -/
theorem called (hpause : s.engine.hostPauseResult = none)
    (hround : runRound (s.env floats host) s.engine = some (none, t))
    (henter : s.engine.fp < t.fp) :
    ∃ b c rest n, s.engine.Running s.engine.store s.code c rest n ∧
      t.Running t.store s.code b (c :: rest) 0 ∧ b.returnPc = s.engine.pc ∧
      (∀ i < b.low, t.stack.words[i]? = s.engine.stack.words[i]?) ∧
      ∀ i, b.fp + 2 ≤ i → i < b.base → t.stack.words[i]? = some 0 := by
  have hpc : s.engine.pc ≠ JumpTarget.sentinel := fun hpc => by
    rw [Engine.runRound_idle hpc] at hround
    cases hround
  obtain ⟨c, rest, n, hrun⟩ := hs.sited.running hpc
  obtain ⟨t', hto⟩ := hs.roundsTo hrun hpause hround
  cases hto with
  | next advance =>
      cases advance with
      | stays running =>
          rw [running.fp, hrun.fp] at henter
          exact absurd henter (Nat.lt_irrefl _)
      | leaves top rest_eq running =>
          subst rest_eq
          have hlt := Chain.fp_lt hrun.chain
          rw [running.fp, hrun.fp] at henter
          exact absurd henter (Nat.lt_asymm hlt)
      | @enters b running pc stack zero =>
          refine ⟨b, c, rest, n, hrun, running.runs (runRound_continues hround).runs, pc,
            fun i hi =>
            stack.words i fun hw => ?_, zero⟩
          have hlow : b.low = b.fp - b.func.parameterSize := rfl
          omega

end Session

/-- What a call and its return do to a session that is safe. -/
theorem Session.Safe.callee_returns {s₀ s₂ : Session η} {e₁ e₃ : Engine η}
    (hsafe : s₀.Safe host) (hpause : s₀.engine.hostPauseResult = none)
    (hcall : runRound (s₀.env floats host) s₀.engine = some (none, e₁))
    (henter : s₀.engine.fp < e₁.fp)
    (hinside : ReflTransGen (fun s s' => Slice floats host s s' ∧ e₁.fp ≤ s'.engine.fp)
      (s₀.withEngine e₁) s₂)
    (hpause₂ : s₂.engine.hostPauseResult = none)
    (hreturn : runRound (s₂.env floats host) s₂.engine = some (none, e₃)) (hleave : e₃.fp < e₁.fp) :
    ∃ m m' f, e₁.Executing s₀.code m f ∧ s₂.engine.Executing s₂.code m' f ∧
      s₂.engine.fp = e₁.fp ∧ Engine.Returns s₀.engine e₁ s₂.engine e₃ f := by
  obtain ⟨b, c, rest, n, hrun, hrun₁, hpc, hwords, -⟩ := Session.called hsafe hpause hcall henter
  have hsafe₁ : (s₀.withEngine e₁).Safe host := (Engine.Safe.round hsafe hpause hcall).1
  have hb : (s₀.withEngine e₁).Inside b c rest s₀.engine.stack.words :=
    ⟨⟨b, _, 0, hrun₁, List.suffix_rfl⟩, hwords⟩
  have hfp : e₁.fp = b.fp := hrun₁.fp
  rw [hfp] at hinside hleave
  obtain ⟨hsafe₂, hb⟩ := hb.slices hsafe₁ hinside
  rcases hb.round hsafe₂ hpause₂ hreturn (.inl rfl) with ⟨-, hle⟩ | ⟨-, hleaves, n', hrun₂⟩
  · exact absurd hleave (Nat.not_lt.2 hle)
  · obtain ⟨m, hm⟩ := hrun₁.executing
    obtain ⟨m', hm'⟩ := hrun₂.executing
    refine ⟨m, m', b.func, hm, hm', hrun₂.fp.trans hfp.symm, hleaves.fp.trans hrun.fp.symm,
      hleaves.module.trans hrun.module.symm, hpc ▸ hleaves.pc, ?_, ?_, ?_⟩ <;> rw [hfp]
    · exact hleaves.sp
    · exact fun i hi => (hleaves.words i hi).trans (hb.words i hi)
    · exact hleaves.results

/-- A call returns to its caller, whatever happens inside the callee. -/
theorem Session.Abides.call_returns {setup : HostSetup} {stackSize : ℕ} {s₀ s₂ : Session η}
    {e₁ e₃ : Engine η} (hregular : host.Regular setup.hostModules) (hsmall : stackSize < 2 ^ 31)
    (h : s₀.Abides setup floats host stackSize) (hpause : s₀.engine.hostPauseResult = none)
    (hcall : runRound (s₀.env floats host) s₀.engine = some (none, e₁))
    (henter : s₀.engine.fp < e₁.fp)
    (hinside : ReflTransGen (fun s s' => Slice floats host s s' ∧ e₁.fp ≤ s'.engine.fp)
      (s₀.withEngine e₁) s₂)
    (hpause₂ : s₂.engine.hostPauseResult = none)
    (hreturn : runRound (s₂.env floats host) s₂.engine = some (none, e₃)) (hleave : e₃.fp < e₁.fp) :
    ∃ m m' f, e₁.Executing s₀.code m f ∧ s₂.engine.Executing s₂.code m' f ∧
      s₂.engine.fp = e₁.fp ∧ Engine.Returns s₀.engine e₁ s₂.engine e₃ f :=
  (h.safe hregular hsmall).callee_returns hpause hcall henter hinside hpause₂ hreturn hleave

/-- The engine after a round that goes on. -/
def Session.round? (s : Session Unit) : Option (Engine Unit) :=
  (runRound (s.env .none .quiet) s.engine).bind fun p => if p.1 = none then some p.2 else none

theorem Session.round?_eq {s : Session Unit} {e : Engine Unit} (h : s.round? = some e) :
    runRound (s.env .none .quiet) s.engine = some (none, e) := by
  obtain ⟨⟨r, e'⟩, hround, h⟩ := Option.bind_eq_some_iff.1 h
  split at h
  · next hr =>
    cases h
    cases hr
    exact hround
  · cases h

/-- The rounds of a call and of the return from it. -/
theorem callingSession?_rounds : ∃ s₀ e₁ e₂ e₃ e₄ e₅, callingSession? 1 = some s₀ ∧
    s₀.round? = some e₁ ∧ (s₀.withEngine e₁).round? = some e₂ ∧
    (s₀.withEngine e₂).round? = some e₃ ∧ (s₀.withEngine e₃).round? = some e₄ ∧
    (s₀.withEngine e₄).round? = some e₅ ∧
    (s₀.engine.hostPauseResult = none ∧ e₄.hostPauseResult = none) ∧ s₀.engine.fp < e₁.fp ∧
    e₅.fp < e₁.fp ∧
    ReflTransGen (fun s s' => Session.Slice .none .quiet s s' ∧ e₁.fp ≤ s'.engine.fp)
      (s₀.withEngine e₁) (s₀.withEngine e₄) := by
  have hrun : ((callingSession? 1).bind fun s₀ => s₀.round?.bind fun e₁ =>
      (s₀.withEngine e₁).round?.bind fun e₂ => (s₀.withEngine e₂).round?.bind fun e₃ =>
      (s₀.withEngine e₃).round?.bind fun e₄ => (s₀.withEngine e₄).round?.map fun e₅ =>
        (decide (s₀.engine.hostPauseResult = none ∧ e₁.hostPauseResult = none ∧
          e₂.hostPauseResult = none ∧ e₃.hostPauseResult = none ∧ e₄.hostPauseResult = none),
          [s₀.engine.fp, e₁.fp, e₂.fp, e₃.fp, e₄.fp, e₅.fp])) =
      some (true, [0, 3, 3, 3, 3, 0]) := by
    decide +kernel
  obtain ⟨s₀, hs, hrun⟩ := Option.bind_eq_some_iff.1 hrun
  obtain ⟨e₁, h₁, hrun⟩ := Option.bind_eq_some_iff.1 hrun
  obtain ⟨e₂, h₂, hrun⟩ := Option.bind_eq_some_iff.1 hrun
  obtain ⟨e₃, h₃, hrun⟩ := Option.bind_eq_some_iff.1 hrun
  obtain ⟨e₄, h₄, hrun⟩ := Option.bind_eq_some_iff.1 hrun
  obtain ⟨e₅, h₅, hrun⟩ := Option.map_eq_some_iff.1 hrun
  simp only [Prod.mk.injEq, decide_eq_true_eq, List.cons.injEq, and_true] at hrun
  obtain ⟨⟨p₀, p₁, p₂, p₃, p₄⟩, f₀, f₁, f₂, f₃, f₄, f₅⟩ := hrun
  have hslice : ∀ {e e' : Engine Unit}, e.hostPauseResult = none →
      (s₀.withEngine e).round? = some e' →
      Session.Slice .none .quiet (s₀.withEngine e) (s₀.withEngine e') := fun hpause hround =>
    .round hpause (Session.round?_eq hround) (.inl rfl)
  have hinside : ReflTransGen (fun s s' => Session.Slice .none .quiet s s' ∧ e₁.fp ≤ s'.engine.fp)
      (s₀.withEngine e₁) (s₀.withEngine e₄) := by
    refine ((ReflTransGen.single ?_).tail ⟨hslice p₂ h₃, ?_⟩).tail ⟨hslice p₃ h₄, ?_⟩
    · exact ⟨hslice p₁ h₂, show e₁.fp ≤ e₂.fp by omega⟩
    · exact show e₁.fp ≤ e₄.fp by omega
    · exact show e₁.fp ≤ e₃.fp by omega
  exact ⟨s₀, e₁, e₂, e₃, e₄, e₅, hs, h₁, h₂, h₃, h₄, h₅, ⟨p₀, p₄⟩, by omega, by omega, hinside⟩

theorem Session.Abides.call_returns_calling : ∃ s₀ e₁ e₂ e₃ e₄ e₅, callingSession? 1 = some s₀ ∧
    s₀.round? = some e₁ ∧ (s₀.withEngine e₁).round? = some e₂ ∧
    (s₀.withEngine e₂).round? = some e₃ ∧ (s₀.withEngine e₃).round? = some e₄ ∧
    (s₀.withEngine e₄).round? = some e₅ ∧
    ∃ m m' f, e₁.Executing s₀.code m f ∧ e₄.Executing s₀.code m' f ∧
      e₄.fp = e₁.fp ∧ Engine.Returns s₀.engine e₁ e₄ e₅ f := by
  obtain ⟨s₀, e₁, e₂, e₃, e₄, e₅, hs, h₁, h₂, h₃, h₄, h₅, ⟨p₀, p₄⟩, henter, hleave, hinside⟩ :=
    callingSession?_rounds
  exact ⟨s₀, e₁, e₂, e₃, e₄, e₅, hs, h₁, h₂, h₃, h₄, h₅,
    Session.Abides.call_returns quiet_regular (by decide) (callingSession?_abides hs) p₀
      (Session.round?_eq h₁) henter hinside p₄ (Session.round?_eq h₅) hleave⟩

/-! ### The outermost activation -/

/-- The outermost activation is `b`. -/
def Engine.Rooted (e : Engine η) (code : CodeBuilder) (b : Activation) : Prop :=
  ∃ a rest n, e.Running e.store code a rest n ∧ [b] <:+ a :: rest

/-- The round from `e` to `t` returns from the outermost activation, one of `f`: the engine
is at rest, and its result is that of `f`: its topmost operands, below at most one word. -/
structure Engine.Finishes (e t : Engine η) (f : Func) : Prop where
  fp : e.fp = f.parameterSize
  rests : t.Rests
  result : t.result = some (Interpreter.wordsValue t.stack.words 0 f.returnTy.words)
  results : ∃ top, e.fp + 2 + f.localSize + f.returnTy.words ≤ top ∧ top ≤ e.sp ∧
    e.sp ≤ top + 1 ∧ ∀ i < f.returnTy.words,
      t.stack.words[i]? = e.stack.words[top - f.returnTy.words + i]?

namespace Engine.Rooted

theorem busy (h : e.Rooted code b) : ¬e.isIdle := by
  obtain ⟨a, rest, n, hrun, -⟩ := h
  exact fun hidle => hrun.at_.ne_sentinel (of_decide_eq_true hidle)

theorem store (h : e.Rooted code b) {st : Store} (world : η) (hruns : e.store.Runs st) :
    Engine.Rooted { e with world := world, store := st } code b := by
  obtain ⟨a, rest, n, hrun, hsuffix⟩ := h
  exact ⟨a, rest, n, hrun.store world hruns, hsuffix⟩

theorem advance {st : Store} (hrun : e.Running st code a rest n) (h : [b] <:+ a :: rest)
    (hadv : Engine.Advance 1 st code a rest e t) :
    ∃ a' rest' n', t.Running st code a' rest' n' ∧ [b] <:+ a' :: rest' := by
  cases hadv with
  | stays running => exact ⟨_, _, _, running, h⟩
  | enters running => exact ⟨_, _, _, running, h.trans (List.suffix_cons _ _)⟩
  | leaves top rest_eq running =>
      subst rest_eq
      refine ⟨_, _, _, running, ?_⟩
      rcases List.suffix_cons_iff.1 h with heq | hsuffix
      · cases heq
      · exact hsuffix

theorem round (hs : e.Safe host code) (h : e.Rooted code b) (hpause : e.hostPauseResult = none)
    {r : RoundResult} (hround : runRound ⟨code.pages, floats, host⟩ e = some (r, t)) :
    (r = none ∨ r = some .pause) ∧ t.Rooted code b ∨ (∃ reason, r = some (.trap reason)) ∧ t.Rests ∨
      r = some .finished ∧ (∃ m, e.Executing code m b.func) ∧ e.Finishes t b.func := by
  obtain ⟨a, rest, n, hrun, hsuffix⟩ := h
  obtain ⟨t', hto⟩ := hs.roundsTo hrun hpause hround
  have hruns := (runRound_continues hround).runs
  cases hto with
  | next hadv =>
      obtain ⟨a', rest', n', hrun', hsuffix'⟩ := advance hrun hsuffix hadv
      exact .inl ⟨.inl rfl, a', rest', n', hrun'.runs hruns, hsuffix'⟩
  | pause running => exact .inl ⟨.inr rfl, _, _, _, running.runs hruns, hsuffix⟩
  | trap _ rests => exact .inr (.inl ⟨⟨_, rfl⟩, rests⟩)
  | finished top rest_eq rests result _ top_le le_top dropped results =>
      subst rest_eq
      obtain rfl : b = a := by
        rcases List.suffix_cons_iff.1 hsuffix with heq | hnil
        · cases heq
          rfl
        · cases List.suffix_nil.1 hnil
      refine .inr (.inr ⟨rfl, hrun.executing, ?_, rests, result, top, by rw [hrun.fp]; exact top_le,
        le_top, dropped, results⟩)
      rw [hrun.fp]
      cases hrun.chain with
      | outermost _ fp => exact fp

/-- A run that finishes ends with a round that returns from `b`. -/
theorem run (hs : e.Safe host code) (h : e.Rooted code b) (hpause : e.hostPauseResult = none)
    {n : ℕ} {r : InterpreterResult}
    (hrun : SpaceWasm.run ⟨code.pages, floats, host⟩ n e = some (r, t)) :
    (r = .finished ∨ t.isIdle ∨ t.Rooted code b) ∧ (r = .finished → ∃ u,
      ReflTransGen (fun u u' => runRound ⟨code.pages, floats, host⟩ u = some (none, u')) e u ∧
      runRound ⟨code.pages, floats, host⟩ u = some (some .finished, t) ∧
      (∃ m, u.Executing code m b.func) ∧ u.Finishes t b.func) := by
  refine boundedRun_ends (I := fun u => u.Safe host code ∧ u.Rooted code b ∧
    u.hostPauseResult = none ∧ ReflTransGen (fun u u' =>
      runRound ⟨code.pages, floats, host⟩ u = some (none, u')) e u)
    (Q := fun r t => (r = .finished ∨ t.isIdle ∨ t.Rooted code b) ∧ (r = .finished → ∃ u,
      ReflTransGen (fun u u' => runRound ⟨code.pages, floats, host⟩ u = some (none, u')) e u ∧
      runRound ⟨code.pages, floats, host⟩ u = some (some .finished, t) ∧
      (∃ m, u.Executing code m b.func) ∧ u.Finishes t b.func))
    (fun u hu => ⟨.inr (.inr hu.2.1), by simp⟩) ?_ ⟨hs, h, hpause, .refl⟩ hrun
  rintro u r t ⟨hs, h, hpause, hrounds⟩ hround
  obtain ⟨hsafe, hfree, -⟩ := hs.round hpause hround
  rcases h.round hs hpause hround with ⟨hr, hrooted⟩ | ⟨⟨reason, rfl⟩, hrests⟩ | ⟨rfl, hm, hfinish⟩
  · rcases hr with rfl | rfl
    · exact ⟨hsafe, hrooted, hfree rfl, hrounds.tail hround⟩
    · exact ⟨.inr (.inr hrooted), by simp⟩
  · exact ⟨.inr (.inl hrests.isIdle), by simp⟩
  · exact ⟨.inl rfl, fun _ => ⟨u, hrounds, hround, hm, hfinish⟩⟩

end Engine.Rooted

/-- The outermost activation stays until the engine is idle. -/
theorem ProtocolStep.rooted (h : ProtocolStep floats host s s') (hs : s.Safe host)
    (hb : s.engine.Rooted s.code b) (hbusy : ¬s'.engine.isIdle) :
    s'.engine.Rooted s'.code b := by
  have hrests : ¬s.engine.Rests := fun hrests => hb.busy hrests.isIdle
  have hresumed : ∀ {v : Option Value} {e : Engine η}, resume v s.engine = .ok () e →
      e.Rooted s.code b := by
    intro v e hresume
    obtain ⟨a, rest, n, hrun, hsuffix⟩ := hb
    obtain ⟨-, -, -, as, -, hp, -, rfl⟩ := hs.resume hresume
    exact ⟨a, rest, n, hrun.resumed hp rfl as, hsuffix⟩
  cases h with
  | resumed v hresume => exact hresumed hresume
  | resumeRejected v hresume =>
      rw [Engine.resume_rejected hresume]
      exact hb
  | reset => exact absurd (decide_eq_true rfl) hbusy
  | outside world writes => exact hb.store world (.writeBytes _ _)
  | setGlobal r x v => exact hb.store _ (.setGlobal _ _ _ _)
  | free hpause h =>
      cases h with
      | loaded env name wasm hidle => exact absurd hidle hb.busy
      | loadFailed env name wasm hidle => exact absurd hidle hb.busy
      | invoked f params hinvoke => exact absurd (hs.invoke hinvoke).1 hrests
      | invokeRejected f params hinvoke =>
          rcases hs.invokeRejected hinvoke with rfl | ⟨hrest, -⟩
          · exact hb
          · exact absurd hrest hrests
      | ran fuel hrun =>
          obtain ⟨h, hfinish⟩ := hb.run hs hpause hrun
          rcases h with rfl | hidle | hrooted
          · obtain ⟨u, -, -, -, h⟩ := hfinish rfl
            exact absurd h.rests.isIdle hbusy
          · exact absurd hidle hbusy
          · exact hrooted
      | resumed v hresume => exact hresumed hresume
      | resumeRejected v hresume =>
          rw [Engine.resume_rejected hresume]
          exact hb
      | reset => exact absurd (decide_eq_true rfl) hbusy
      | outside world writes => exact hb.store world (.writeBytes _ _)
      | setGlobal r x v => exact hb.store _ (.setGlobal _ _ _ _)

theorem Engine.Safe.invoke_rooted (h : e.Safe host code) {f : WasmRef} {params : List Value}
    (hinvoke : SpaceWasm.invoke f params e = .ok () t) :
    ∃ func b, e.store.func? f = some func ∧ b.func = func ∧ t.Rooted code b := by
  obtain ⟨hrest, m, func, ty, mem, table, words, as, hmodule, hfunc, hdecl, -, hroom, -, -,
      hentered,
    rfl⟩ := h.invoke hinvoke
  have hlength := (putValues_same params 0 e.stack.words).length
  refine ⟨func, ⟨f.module, func, wordsOf ty.params, JumpTarget.sentinel⟩, ?_, rfl, _, [], 0,
    hrest.invoked_running h.coded hmodule (List.mem_of_getElem? hfunc) hdecl hroom hlength hentered,
    List.suffix_rfl⟩
  simp only [Store.func?, hmodule, Option.bind_eq_bind, Option.bind_some, hfunc]

/-- What an invocation and its end do to a session that is safe. -/
theorem Session.Safe.invoked_finishes {s s' : Session η} {f : WasmRef} {params : List Value}
    {fuel : ℕ} (hsafe : s.Safe host) (hinvoke : invoke f params s.engine = .ok () e)
    (hinside : ReflTransGen (fun s s' => ProtocolStep floats host s s' ∧ ¬s'.engine.isIdle)
      (s.withEngine e) s')
    (hpause : s'.engine.hostPauseResult = none)
    (hrun : run (s'.env floats host) fuel s'.engine = some (.finished, t)) :
    ∃ func u, s.engine.store.func? f = some func ∧
      ReflTransGen (fun u u' => runRound (s'.env floats host) u = some (none, u')) s'.engine u ∧
      runRound (s'.env floats host) u = some (some .finished, t) ∧
      (∃ m, u.Executing s'.code m func) ∧ u.Finishes t func := by
  obtain ⟨func, b, hfunc, rfl, hrooted⟩ := Engine.Safe.invoke_rooted hsafe hinvoke
  have hstart : ProtocolStep floats host s (s.withEngine e) :=
    .free (hsafe.invoke hinvoke).1.pause (.invoked f params hinvoke)
  have hpath : s'.Safe host ∧ s'.engine.Rooted s'.code b := by
    clear hrun hpause
    induction hinside with
    | refl => exact ⟨hstart.safe hsafe, hrooted⟩
    | tail _ hstep ih => exact ⟨hstep.1.safe ih.1, hstep.1.rooted ih.1 ih.2 hstep.2⟩
  obtain ⟨u, hrounds, hround, hm, hfinish⟩ := (hpath.2.run hpath.1 hpause hrun).2 rfl
  exact ⟨b.func, u, hfunc, hrounds, hround, hm, hfinish⟩

/-- A call that has been accepted and finishes, after any slices, pauses and calls of its
own, ends with a return from the function that was called, whose result is recorded. -/
theorem Session.Abides.invocation_finishes {setup : HostSetup} {stackSize : ℕ} {s s' : Session η}
    {f : WasmRef} {params : List Value} {fuel : ℕ} (hregular : host.Regular setup.hostModules)
    (hsmall : stackSize < 2 ^ 31) (h : s.Abides setup floats host stackSize)
    (hinvoke : invoke f params s.engine = .ok () e)
    (hinside : ReflTransGen (fun s s' => ProtocolStep floats host s s' ∧ ¬s'.engine.isIdle)
      (s.withEngine e) s')
    (hpause : s'.engine.hostPauseResult = none)
    (hrun : run (s'.env floats host) fuel s'.engine = some (.finished, t)) :
    ∃ func u, s.engine.store.func? f = some func ∧
      ReflTransGen (fun u u' => runRound (s'.env floats host) u = some (none, u')) s'.engine u ∧
      runRound (s'.env floats host) u = some (some .finished, t) ∧
      (∃ m, u.Executing s'.code m func) ∧ u.Finishes t func :=
  (h.safe hregular hsmall).invoked_finishes hinvoke hinside hpause hrun

theorem Session.invoke?_eq {s s' : Session η} {f : WasmRef} (h : s.invoke? f = some s') :
    ∃ e, invoke f [] s.engine = .ok () e ∧ s' = s.withEngine e := by
  unfold invoke? at h
  split at h
  · next e hinvoke =>
    cases h
    exact ⟨e, hinvoke, rfl⟩
  · cases h

/-- The slices of an invocation that finishes. -/
theorem calling_finishes : ∃ s s₁ s₂ e t, emptySession.load? [0x61] calling = some s ∧
    s.invoke? ⟨0, 0⟩ = some s₁ ∧ s₁.run? 2 = some s₂ ∧
    run (s₂.env .none .quiet) 9 s₂.engine = some (.finished, t) ∧
    s.Abides emptyHost .none .quiet 16 ∧ invoke ⟨0, 0⟩ [] s.engine = .ok () e ∧
    ReflTransGen (fun s s' => ProtocolStep .none .quiet s s' ∧ ¬s'.engine.isIdle)
      (s.withEngine e) s₂ ∧ s₂.engine.hostPauseResult = none := by
  have hrun : ((emptySession.load? [0x61] calling).bind fun s => (s.invoke? ⟨0, 0⟩).bind fun s₁ =>
      (s₁.run? 2).bind fun s₂ => (run (s₂.env .none .quiet) 9 s₂.engine).map fun p =>
        (p.1, s₁.engine.hostPauseResult, s₂.engine.hostPauseResult, s₂.engine.isIdle)) =
      some (.finished, none, none, false) := by decide +kernel
  obtain ⟨s, h₀, hrun⟩ := Option.bind_eq_some_iff.1 hrun
  obtain ⟨s₁, h₁, hrun⟩ := Option.bind_eq_some_iff.1 hrun
  obtain ⟨s₂, h₂, hrun⟩ := Option.bind_eq_some_iff.1 hrun
  obtain ⟨⟨r, t⟩, h₃, hrun⟩ := Option.map_eq_some_iff.1 hrun
  simp only [Prod.mk.injEq] at hrun
  obtain ⟨rfl, hp₁, hp₂, hbusy⟩ := hrun
  have habides := emptySession_abides.step (.free rfl (Session.load?_step h₀))
  obtain ⟨e, hinvoke, rfl⟩ := Session.invoke?_eq h₁
  exact ⟨s, _, s₂, e, t, h₀, h₁, h₂, h₃, habides, hinvoke,
    .single ⟨.free hp₁ (Session.run?_step h₂), by rw [hbusy]; decide⟩, hp₂⟩

theorem Session.Abides.invocation_finishes_calling : ∃ s s₁ s₂ t,
    emptySession.load? [0x61] calling = some s ∧ s.invoke? ⟨0, 0⟩ = some s₁ ∧
    s₁.run? 2 = some s₂ ∧ run (s₂.env .none .quiet) 9 s₂.engine = some (.finished, t) ∧
    ∃ func u, s.engine.store.func? ⟨0, 0⟩ = some func ∧
      ReflTransGen (fun u u' => runRound (s₂.env .none .quiet) u = some (none, u')) s₂.engine u ∧
      runRound (s₂.env .none .quiet) u = some (some .finished, t) ∧
      (∃ m, u.Executing s₂.code m func) ∧ u.Finishes t func := by
  obtain ⟨s, s₁, s₂, e, t, h₀, h₁, h₂, h₃, habides, hinvoke, hinside, hpause⟩ := calling_finishes
  exact ⟨s, s₁, s₂, t, h₀, h₁, h₂, h₃, Session.Abides.invocation_finishes quiet_regular (by decide)
    habides hinvoke hinside hpause h₃⟩

/-! ### The discipline of all calls -/

/-- Every call is paired with its return, whatever happens between the two: the caller is
where it was, behind its call, with the results in the place of the arguments. The
invocation itself leaves an engine at rest, with its result recorded. -/
theorem Session.Abides.calls_paired {setup : HostSetup} {stackSize : ℕ} {s : Session η}
    (hregular : host.Regular setup.hostModules) (hsmall : stackSize < 2 ^ 31)
    (h : s.Abides setup floats host stackSize) :
    (∀ {s₂ : Session η} {e₁ e₃ : Engine η}, s.engine.hostPauseResult = none →
      runRound (s.env floats host) s.engine = some (none, e₁) → s.engine.fp < e₁.fp →
      ReflTransGen (fun s s' => Slice floats host s s' ∧ e₁.fp ≤ s'.engine.fp)
        (s.withEngine e₁) s₂ → s₂.engine.hostPauseResult = none →
      runRound (s₂.env floats host) s₂.engine = some (none, e₃) → e₃.fp < e₁.fp →
      ∃ m m' f, e₁.Executing s.code m f ∧ s₂.engine.Executing s₂.code m' f ∧
        s₂.engine.fp = e₁.fp ∧ Engine.Returns s.engine e₁ s₂.engine e₃ f) ∧
    ∀ {s' : Session η} {e t : Engine η} {f : WasmRef} {params : List Value} {fuel : ℕ},
      invoke f params s.engine = .ok () e →
      ReflTransGen (fun s s' => ProtocolStep floats host s s' ∧ ¬s'.engine.isIdle)
        (s.withEngine e) s' → s'.engine.hostPauseResult = none →
      run (s'.env floats host) fuel s'.engine = some (.finished, t) →
      ∃ func u, s.engine.store.func? f = some func ∧ (∃ m, u.Executing s'.code m func) ∧
        runRound (s'.env floats host) u = some (some .finished, t) ∧ u.Finishes t func := by
  have hsafe := h.safe hregular hsmall
  refine ⟨fun hpause hcall henter hinside hpause₂ hreturn hleave =>
    hsafe.callee_returns hpause hcall henter hinside hpause₂ hreturn hleave,
    fun hinvoke hinside hpause hrun => ?_⟩
  obtain ⟨func, u, hfunc, -, hround, hm, hfinish⟩ :=
    hsafe.invoked_finishes hinvoke hinside hpause hrun
  exact ⟨func, u, hfunc, hm, hround, hfinish⟩

theorem Session.Abides.calls_paired_calling :
    (∃ (s : Session Unit) (e₁ e₂ e₃ : Engine Unit) (m m' : Module) (f : Func),
      callingSession? 1 = some s ∧ s.round? = some e₁ ∧ (s.withEngine e₂).round? = some e₃ ∧
      e₁.Executing s.code m f ∧ e₂.Executing s.code m' f ∧ e₂.fp = e₁.fp ∧
      Engine.Returns s.engine e₁ e₂ e₃ f) ∧
    ∃ (s s₂ : Session Unit) (t u : Engine Unit) (func : Func),
      emptySession.load? [0x61] calling = some s ∧
      run (s₂.env .none .quiet) 9 s₂.engine = some (.finished, t) ∧
      s.engine.store.func? ⟨0, 0⟩ = some func ∧ (∃ m, u.Executing s₂.code m func) ∧
      runRound (s₂.env .none .quiet) u = some (some .finished, t) ∧ u.Finishes t func := by
  refine ⟨?_, ?_⟩
  · obtain ⟨s, e₁, e₂, e₃, e₄, e₅, hs, h₁, -, -, -, h₅, ⟨p₀, p₄⟩, henter, hleave, hinside⟩ :=
      callingSession?_rounds
    obtain ⟨m, m', f, hcalled⟩ := (Session.Abides.calls_paired quiet_regular (by decide)
      (callingSession?_abides hs)).1 p₀ (Session.round?_eq h₁) henter hinside p₄
      (Session.round?_eq h₅) hleave
    exact ⟨s, e₁, e₄, e₅, m, m', f, hs, h₁, h₅, hcalled⟩
  · obtain ⟨s, s₁, s₂, e, t, h₀, -, -, h₃, habides, hinvoke, hinside, hpause⟩ := calling_finishes
    obtain ⟨func, u, hfinish⟩ := (Session.Abides.calls_paired quiet_regular (by decide)
      habides).2 hinvoke hinside hpause h₃
    exact ⟨s, s₂, t, u, func, h₀, h₃, hfinish⟩

/-! ### An engine that is run while it is paused -/

/-- A host with one function, which takes nothing and returns a value of the type. -/
def pausingHost (type : ValType) : HostSetup := {
  maxModules := 8
  hostModules := [⟨[0x68], [], [⟨[0x66], [], some type, by decide⟩], [], []⟩]
  memories := []
  tables := []
  hostModules_le := by simp
  functions_le := by simp
  globals_le := by simp
  memory_le := by simp
  table_le := by simp
  memory := by simp
  table := by simp }

/-- Every call of a host function pauses. -/
def HostEnv.asking : HostEnv Unit := { HostEnv.quiet with
  call := fun _ _ _ _ => (.pause, (), []) }

theorem asking_regular (hostModules : List HostModule) :
    HostEnv.asking.Regular hostModules where
  call _ _ _ _ _ _ _ _ _ h := by simp [HostEnv.asking] at h
  readGlobal _ _ _ _ _ _ _ h := by simp [HostEnv.asking, HostEnv.quiet] at h

/-- A module whose first function drops the number that the host function returns and writes
two constants: over its link words, when the number is missing. The second one holds the bytes
`held` in a constant, the third one calls the first one and the last one takes four parameters.
Its global is immutable. -/
def overrunningWith (held : List U8) : List U8 :=
  [0x00, 0x61, 0x73, 0x6D, 0x01, 0x00, 0x00, 0x00, 0x01, 0x0F, 0x03, 0x60, 0x00, 0x00, 0x60, 0x00,
    0x01, 0x7E, 0x60, 0x04, 0x7E, 0x7E, 0x7E, 0x7E, 0x00, 0x02, 0x07, 0x01, 0x01, 0x68, 0x01,
    0x66, 0x00, 0x01, 0x03, 0x05, 0x04, 0x00, 0x00, 0x00, 0x02, 0x06, 0x06, 0x01, 0x7F, 0x00,
    0x41, 0x2A, 0x0B, 0x0A, 0x21, 0x04, 0x0B, 0x00, 0x10, 0x00, 0x1A, 0x41, 0x02, 0x41, 0x07,
    0x1A, 0x1A, 0x0B, 0x0B, 0x00, 0x42] ++ held ++
  [0x1A, 0x0B, 0x04, 0x00, 0x10, 0x01, 0x0B, 0x02, 0x00, 0x0B]

/-- The constant holds instructions that write a local to the global. -/
def overrunning : List U8 := overrunningWith [0x80, 0xC0, 0x90, 0x80, 0x80, 0x80, 0x09]

/-- The constant holds a call of a function in module 200. -/
def straying : List U8 := overrunningWith [0xC8, 0xA7, 0x80, 0x80, 0x80, 0x80, 0x00]

/-- The session with a module over the host that pauses. -/
def pausingSession? (wasm : List U8) : Option (Session Unit) :=
  match (pausingHost .i64).store with
  | .ok store => Session.load? ⟨Engine.new 16 store (), emptyBuilder⟩ [0x61] wasm
  | .error _ => none

theorem pausingSession?_abides {wasm : List U8} {s : Session Unit}
    (h : pausingSession? wasm = some s) : s.Abides (pausingHost .i64) .none .asking 16 := by
  unfold pausingSession? at h
  split at h
  · next store hstore =>
    exact ⟨store, emptyBuilder, (), hstore, .single (.free rfl (Session.load?_step h))⟩
  · cases h

/-- Rounds that do not end the call, whether the engine is paused or not. -/
def Engine.rounds? (env : ExecEnv Unit) (low : ℕ) : ℕ → Engine Unit → Option (Engine Unit)
  | 0, e => some e
  | n + 1, e => (runRound env e).bind fun p =>
      if (p.1 = none ∨ p.1 = some .pause) ∧ low ≤ p.2.fp then rounds? env low n p.2 else none

theorem Engine.rounds?_rounds {env : ExecEnv Unit} {low n : ℕ} {e t : Engine Unit}
    (h : e.rounds? env low n = some t) :
    ReflTransGen (fun u u' => ∃ r, runRound env u = some (r, u') ∧
      (r = none ∨ r = some .pause) ∧ low ≤ u'.fp) e t := by
  induction n generalizing e with
  | zero =>
      cases h
      exact .refl
  | succ n ih =>
      obtain ⟨⟨r, u⟩, hround, h⟩ := Option.bind_eq_some_iff.1 h
      split at h
      · next hr => exact (ih h).head ⟨r, hround, hr⟩
      · cases h

/-- A call that does not return behind itself: its function waits for a result of the host,
the engine is run nevertheless, and the return goes where the function has written. -/
theorem overrun_return : ∃ s s' e₁ e₂ e₃, pausingSession? overrunning = some s ∧
    s.Abides (pausingHost .i64) .none .asking 16 ∧ s.invoke? ⟨0, 2⟩ = some s' ∧
    runRound (s'.env .none .asking) s'.engine = some (none, e₁) ∧ s'.engine.fp < e₁.fp ∧
    ReflTransGen (fun u u' => ∃ r, runRound (s'.env .none .asking) u = some (r, u') ∧
      (r = none ∨ r = some .pause) ∧ e₁.fp ≤ u'.fp) e₁ e₂ ∧
    runRound (s'.env .none .asking) e₂ = some (none, e₃) ∧ e₃.fp < e₁.fp ∧
    ∀ f, ¬Engine.Returns s'.engine e₁ e₂ e₃ f := by
  have hrun : ((pausingSession? overrunning).bind fun s => (s.invoke? ⟨0, 2⟩).bind fun s' =>
      (runRound (s'.env .none .asking) s'.engine).bind fun p₁ =>
      (p₁.2.rounds? (s'.env .none .asking) p₁.2.fp 6).bind fun e₂ =>
      (runRound (s'.env .none .asking) e₂).map fun p₃ =>
        decide (p₁.1 = none ∧ p₃.1 = none ∧ s'.engine.fp < p₁.2.fp ∧ p₃.2.fp < p₁.2.fp ∧
          p₃.2.pc ≠ s'.engine.pc + 2)) = some true := by decide +kernel
  obtain ⟨s, h₀, hrun⟩ := Option.bind_eq_some_iff.1 hrun
  obtain ⟨s', h₁, hrun⟩ := Option.bind_eq_some_iff.1 hrun
  obtain ⟨⟨r₁, e₁⟩, h₂, hrun⟩ := Option.bind_eq_some_iff.1 hrun
  obtain ⟨e₂, h₃, hrun⟩ := Option.bind_eq_some_iff.1 hrun
  obtain ⟨⟨r₃, e₃⟩, h₄, hrun⟩ := Option.map_eq_some_iff.1 hrun
  obtain ⟨rfl, rfl, henter, hleave, hpc⟩ := of_decide_eq_true hrun
  exact ⟨s, s', e₁, e₂, e₃, h₀, pausingSession?_abides h₀, h₁, h₂, henter,
    Engine.rounds?_rounds h₃, h₄, hleave, fun f hreturns => hpc hreturns.pc⟩

end SpaceWasm
