import SpaceWasm.Activations

/-!
# What a round does to the activations

A round of a running engine stays in the topmost activation, enters a new one on top of
it, or leaves it for its caller. Two engines that differ only in words that are stale,
those above their stack pointers, do the same.
-/

namespace SpaceWasm

open Fallible

variable {η α : Type}

/-! ### Stacks -/

/-- The stack `st'` is `st` after accesses to words in `touch`, which have changed words in
`write` at most. -/
structure Stack.Changes (touch write : ℕ → Prop) (st st' : Stack) : Prop where
  length : st'.words.length = st.words.length
  words : ∀ i, ¬write i → st'.words[i]? = st.words[i]?
  touched : ∃ as, st'.touched = as ++ st.touched ∧ ∀ i ∈ as, touch i

namespace Stack.Changes

variable {touch touch' write write' : ℕ → Prop} {st st' st'' : Stack}

theorem mono (h : Changes touch write st st') (htouch : ∀ i, touch i → touch' i)
    (hwrite : ∀ i, write i → write' i) : Changes touch' write' st st' := by
  obtain ⟨as, has, hall⟩ := h.touched
  exact ⟨h.length, fun i hi => h.words i fun hw => hi (hwrite i hw), as, has,
    fun i hi => htouch i (hall i hi)⟩

end Stack.Changes

theorem Inside.changes {w : Window} {st : Stack} {rest : Engine η} {sp : ℕ} {e : Engine η}
    (h : Inside w st rest sp e) :
    Stack.Changes (w.Covers · 1) (w.Writable · 1) st e.stack :=
  ⟨h.length, h.words, h.touched⟩

/-! ### Engines that differ in stale words -/

/-- The engines differ only in words from the stack pointer on. -/
structure Engine.Matches (e e' : Engine η) : Prop where
  beside : e'.besideStack = e.besideStack
  sp : e'.sp = e.sp
  length : e'.stack.words.length = e.stack.words.length
  words : ∀ i < e.sp, e'.stack.words[i]? = e.stack.words[i]?

namespace Engine.Matches

variable {e e' e'' : Engine η}

theorem refl (e : Engine η) : e.Matches e := ⟨rfl, rfl, rfl, fun _ _ => rfl⟩

theorem symm (h : e.Matches e') : e'.Matches e :=
  ⟨h.beside.symm, h.sp.symm, h.length.symm, fun i hi => (h.words i (h.sp ▸ hi)).symm⟩

theorem trans (h : e.Matches e') (h' : e'.Matches e'') : e.Matches e'' :=
  ⟨h'.beside.trans h.beside, h'.sp.trans h.sp, h'.length.trans h.length, fun i hi =>
    (h'.words i (h.sp.symm ▸ hi)).trans (h.words i hi)⟩

section Fields

variable (h : e.Matches e')

include h

theorem pc : e'.pc = e.pc := (congrArg Engine.pc h.beside :)

theorem fp : e'.fp = e.fp := (congrArg Engine.fp h.beside :)

theorem module : e'.module = e.module := (congrArg Engine.module h.beside :)

theorem table : e'.table = e.table := (congrArg Engine.table h.beside :)

theorem store : e'.store = e.store := (congrArg Engine.store h.beside :)

theorem world : e'.world = e.world := (congrArg Engine.world h.beside :)

theorem pause : e'.hostPauseResult = e.hostPauseResult :=
  (congrArg Engine.hostPauseResult h.beside :)

theorem jumped : e'.jumped = e.jumped := (congrArg Engine.jumped h.beside :)

theorem result : e'.result = e.result := (congrArg Engine.result h.beside :)

end Fields

end Engine.Matches

theorem Engine.afterInstr_eq (e : Engine η) (next : JumpTarget) :
    e.afterInstr next = { e with pc := if e.jumped then e.pc else next, jumped := false } := by
  unfold Engine.afterInstr
  cases hj : e.jumped with
  | true => simp
  | false =>
      rw [if_neg Bool.false_ne_true, if_neg Bool.false_ne_true]

theorem Engine.Matches.afterInstr {e e' : Engine η} (h : e.Matches e') (next : JumpTarget) :
    (e.afterInstr next).Matches (e'.afterInstr next) := by
  rw [Engine.afterInstr_eq, Engine.afterInstr_eq, h.jumped, h.pc]
  refine ⟨?_, h.sp, h.length, h.words⟩
  exact congrArg (fun b : Engine η => { b with
    pc := if e.jumped then e.pc else next, jumped := false }) h.beside

theorem Engine.Matches.trapped {e e' : Engine η} (hbeside : e'.besideStack = e.besideStack)
    (hlength : e'.stack.words.length = e.stack.words.length) : e.trapped.Matches e'.trapped := by
  refine ⟨?_, rfl, hlength, fun i hi => absurd hi (Nat.not_lt_zero i)⟩
  exact congrArg (fun b : Engine η =>
    { b with pc := JumpTarget.sentinel, fp := 0, jumped := false })
    hbeside

section Twins

variable {w : Window} {st st' : Stack} {rest : Engine η} {sp k : ℕ} {e e' : Engine η}

/-- Both engines before an instruction. -/
theorem Twins.start (w : Window) (h : e.Matches e') :
    Twins w e.stack e'.stack e.besideStack e.sp e.sp e e' := by
  refine ⟨.refl w e, ?_, h.words⟩
  have hright := Inside.refl w e'
  rwa [h.beside, h.sp] at hright

theorem Twins.matches (h : Twins w st st' rest sp k e e') (hk : sp ≤ k)
    (hlength : st'.words.length = st.words.length) : e.Matches e' :=
  ⟨h.right.beside.trans h.left.beside.symm, h.right.sp_eq.trans h.left.sp_eq.symm,
    h.right.length.trans (hlength.trans h.left.length.symm), fun i hi =>
      h.agree i (Nat.lt_of_lt_of_le (h.left.sp_eq ▸ hi) hk)⟩

end Twins

/-! ### Running engines -/

/-- The words that a pending pause still pushes. -/
def Engine.pendingWords (e : Engine η) : ℕ := e.hostPauseResult.elim 0 ResultType.words

/-- The engine is in the activation `a`, with `h` operand words on the stack. -/
structure Engine.Within (e : Engine η) (s : Store) (code : CodeBuilder) (a : Activation)
    (rest : List Activation) (h : ℕ) : Prop where
  chain : Chain s code e.stack.words a rest
  module : e.module = a.module
  fp : e.fp = a.fp
  sp : e.sp = a.base + h
  le : h ≤ a.func.stackUsage
  jumped : e.jumped = false

/-- The engine is about to execute an instruction of the activation `a`, where `h` operand
words are on the stack, up to those that a pending pause pushes. -/
structure Engine.Running (e : Engine η) (s : Store) (code : CodeBuilder) (a : Activation)
    (rest : List Activation) (h : ℕ) : Prop where
  at_ : a.IsAt s code e.pc h
  chain : Chain s code e.stack.words a rest
  module : e.module = a.module
  fp : e.fp = a.fp
  base_le : a.base ≤ e.sp
  sp : e.sp + e.pendingWords = a.base + h
  jumped : e.jumped = false

variable {s s' : Store} {code : CodeBuilder} {a : Activation} {rest : List Activation} {h : ℕ}
  {e e' : Engine η}

theorem Engine.Running.runs (hr : e.Running s code a rest h) (hs : s.Runs s') :
    e.Running s' code a rest h :=
  ⟨hr.at_.runs hs, hr.chain.runs hs, hr.module, hr.fp, hr.base_le, hr.sp, hr.jumped⟩

theorem Engine.Running.within (hr : e.Running s code a rest h) (hpause : e.hostPauseResult = none) :
    e.Within s code a rest h := by
  refine ⟨hr.chain, hr.module, hr.fp, ?_, hr.at_.le, hr.jumped⟩
  have hsp := hr.sp
  rwa [Engine.pendingWords, hpause] at hsp

theorem Engine.Running.matches (hr : e.Running s code a rest h) (hm : e.Matches e') :
    e'.Running s code a rest h where
  at_ := hm.pc ▸ hr.at_
  chain := hr.chain.congr hm.length fun i hi => hm.words i (by
    have hbase : a.base = a.fp + 2 + a.func.localSize := rfl
    have hle := hr.base_le
    omega)
  module := hm.module.trans hr.module
  fp := hm.fp.trans hr.fp
  base_le := hm.sp ▸ hr.base_le
  sp := by rw [hm.sp, Engine.pendingWords, hm.pause]; exact hr.sp
  jumped := hm.jumped.trans hr.jumped

/-- Host functions return values of their declared types, and host globals have them. -/
structure HostEnv.Regular (host : HostEnv η) (hostModules : List HostModule) : Prop where
  call : ∀ (r : HostRef) hm f world args memories v, hostModules[r.module.toNat]? = some hm →
    hm.functions[r.index.toNat]? = some f →
      (host.call world r args memories).1 = .continue_ v → v.map Value.type = f.returns
  readGlobal : ∀ (r : HostRef) hm g world v, hostModules[r.module.toNat]? = some hm →
    hm.globals[r.index.toNat]? = some g → host.readGlobal world r = some v → v.type = g.ty

/-- What a round takes for granted. -/
structure Engine.Ready (e : Engine η) (env : ExecEnv η) (code : CodeBuilder) : Prop where
  pages : env.code = code.pages
  coded : e.store.Coded code
  linked : e.store.Linked
  coherent : e.context.Coherent
  host : env.host.Regular e.store.hostModules
  small : e.stack.words.length < 2 ^ 31
  pause : e.hostPauseResult = none

/-! ### What an instruction leaves -/

/-- Code of the module `r` may call functions of the module `q`: they are its own, it imports
one of them, or one of them is in its table. -/
def Store.MayCall (s : Store) (r q : ModuleRef) : Prop :=
  q = r ∨ (∃ m x y, s.module? r = some m ∧ m.getFuncRef x = some (.extern_ q y)) ∨
    ∃ table entries y, s.getTable r = some table ∧ s.tables[table]? = some entries ∧
      TableElement.func q y ∈ entries

/-- Where an instruction leaves a running engine that it does not end. A return drops at
most `d` words from above the results. -/
inductive Engine.Advance (d : ℕ) (s : Store) (code : CodeBuilder) (a : Activation)
    (rest : List Activation) (e e₁ : Engine η) : Prop
  | stays {h : ℕ} (running : e₁.Running s code a rest h)
      (stack : e.stack.Changes (a.window.Covers · 1) (a.window.Writable · 1) e₁.stack)
  | enters {b : Activation} (running : e₁.Running s code b (a :: rest) 0)
      (pc : b.returnPc = e.pc)
      (stack : e.stack.Changes (fun i => a.window.Covers i 1 ∨ b.fp ≤ i ∧ i < b.base)
        (fun i => b.fp ≤ i ∧ i < b.base) e₁.stack)
      (zero : ∀ i, b.fp + 2 ≤ i → i < b.base → e₁.stack.words[i]? = some 0)
      (callee : s.MayCall a.module b.module)
  | leaves {c : Activation} {rest' : List Activation} {h : ℕ} (top : ℕ)
    (rest_eq : rest = c :: rest')
      (running : e₁.Running s code c rest' h) (pc : e₁.pc = a.returnPc + 2)
      (sp : e₁.sp = a.low + a.func.returnTy.words)
      (stack : e.stack.Changes (a.window.Covers · 1) (a.window.Covers · 1) e₁.stack)
      (top_le : a.base + a.func.returnTy.words ≤ top) (le_top : top ≤ e.sp)
      (dropped : e.sp ≤ top + d)
      (results : ∀ i < a.func.returnTy.words,
        e₁.stack.words[a.low + i]? = e.stack.words[top - a.func.returnTy.words + i]?)

/-- What an instruction does to two engines that go on. -/
def Engine.Steps (d : ℕ) (s : Store) (code : CodeBuilder) (a : Activation)
    (rest : List Activation) (e : Engine η) (next pc : JumpTarget) (t t' : Engine η) : Prop :=
  pc = next ∧ Engine.Advance d s code a rest e (t.afterInstr next) ∧
    t.hostPauseResult = none ∧ t.Matches t'

/-- How an instruction breaks off in two engines. -/
inductive Engine.Breaks (d : ℕ) (s : Store) (code : CodeBuilder) (a : Activation)
    (rest : List Activation) (e : Engine η) (next : JumpTarget) :
    InterpreterBreak → Engine η → Engine η → Prop
  | trap {reason : TrapReason} {t t' : Engine η} (regular : reason ≠ .malformedIr)
      (pending : t.hostPauseResult = none)
      (beside : t'.besideStack = t.besideStack)
      (length : t'.stack.words.length = t.stack.words.length)
      (stack : e.stack.Changes (a.window.Covers · 1) (a.window.Covers · 1) t.stack) :
      Breaks d s code a rest e next (.trap reason) t t'
  | pause {t t' : Engine η} {h : ℕ} (running : (t.afterInstr next).Running s code a rest h)
      (pending : t.hostPauseResult ≠ none)
      (stack : e.stack.Changes (a.window.Covers · 1) (a.window.Writable · 1) t.stack)
      (twin : t.Matches t') : Breaks d s code a rest e next .pause t t'
  | finished {t t' : Engine η} (top : ℕ) (rest_eq : rest = []) (pc : t.pc = JumpTarget.sentinel)
      (jumped : t.jumped = true) (fp : t.fp = 0) (sp : t.sp = 0)
      (pending : t.hostPauseResult = none)
      (result : t.result = some (Interpreter.wordsValue t.stack.words 0 a.func.returnTy.words))
      (stack : e.stack.Changes (a.window.Covers · 1) (a.window.Covers · 1) t.stack)
      (top_le : a.base + a.func.returnTy.words ≤ top) (le_top : top ≤ e.sp)
      (dropped : e.sp ≤ top + d)
      (results : ∀ i < a.func.returnTy.words,
        t.stack.words[i]? = e.stack.words[top - a.func.returnTy.words + i]?)
      (twin : t.Matches t') : Breaks d s code a rest e next .finished t t'

/-- An instruction does the same to two engines; `next` is the address behind it, and `stop`
the one where the decoder is when it breaks off. -/
def Engine.Executes (safe : Prop) (d : ℕ) (s : Store) (code : CodeBuilder) (a : Activation)
    (rest : List Activation) (e e' : Engine η) (stop next : JumpTarget)
    (x : ExecM η JumpTarget) : Prop :=
  (x e).Both safe (Engine.Steps d s code a rest e next) (Engine.Breaks d s code a rest e stop)
    (x e')

/-! ### Instructions that stay in the activation -/

variable {safe : Prop} {next : JumpTarget} {d : ℕ}

theorem Engine.Matches.traps (hm : e.Matches e') {b : InterpreterBreak} {t t' : Engine η}
    (ht : Traps a.window e.stack e'.stack none b t t') : Breaks d s code a rest e next b t t' := by
  obtain ⟨reason, rest₁, sp₁, rfl, hreason, hpause, ht⟩ := ht
  exact .trap hreason (ht.left.pause_eq.trans hpause) (ht.right.beside.trans ht.left.beside.symm)
    (ht.right.length.trans (hm.length.trans ht.left.length.symm))
    (ht.left.changes.mono (fun _ => id) fun _ => And.left)

namespace Engine.Within

variable (hw : e.Within s code a rest h)

include hw

theorem room {ins outs : ℕ} (hins : ins ≤ h) (houts : h - ins + outs ≤ a.func.stackUsage) :
    a.window.Room e.sp ins outs := by
  have hsp := hw.sp
  have hle := hw.le
  have hbase : a.fp + 2 ≤ a.base := Nat.le_add_right _ _
  have hlow : a.low ≤ a.fp := Nat.sub_le _ _
  have hhigh : a.high = a.base + a.func.stackUsage := rfl
  refine ⟨hlow, ?_, ?_, ?_⟩ <;> simp only [Activation.window] <;> omega

theorem fp_le : a.fp + 2 ≤ e.sp := by
  have hsp := hw.sp
  have hbase : a.fp + 2 ≤ a.base := Nat.le_add_right _ _
  omega

theorem high_le : a.window.high ≤ e.stack.words.length := hw.chain.high_le

theorem low_add : a.window.low + a.func.parameterSize = a.window.link :=
  Nat.sub_add_cancel hw.chain.params_le

/-- The engine has worked in the window, and is at another instruction of the function. -/
theorem running {rest₁ t : Engine η} {sp₁ h₁ : ℕ} {pc : JumpTarget}
    (ht : Inside a.window e.stack rest₁ sp₁ t) (hmodule : rest₁.module = e.module)
    (hfp : rest₁.fp = e.fp) (hle : a.base ≤ sp₁) (hsp : sp₁ + rest₁.pendingWords = a.base + h₁)
    (hat : a.IsAt s code pc h₁) :
    Running { t with pc := pc, jumped := false } s code a rest h₁ where
  at_ := hat
  chain := hw.chain.touch ht.length ht.words
  module := ht.module_eq.trans (hmodule.trans hw.module)
  fp := ht.fp_eq.trans (hfp.trans hw.fp)
  base_le := ht.sp_eq ▸ hle
  sp := by
    rw [← hsp, ← ht.sp_eq]
    simp only [pendingWords, ht.pause_eq]
  jumped := rfl

variable (hm : e.Matches e')

include hm

theorem stays (hpause : e.hostPauseResult = none) {t t' : Engine η} {sp₁ h₁ : ℕ}
    (ht : Worked a.window e.stack e'.stack e.besideStack sp₁ t t') (hsp : sp₁ = a.base + h₁)
    (hat : a.IsAt s code next h₁) : Steps d s code a rest e next next t t' := by
  obtain ⟨rest₁, hsame, ht⟩ := ht
  have hpause' : rest₁.hostPauseResult = none := hsame.pause.trans hpause
  have hjumped : t.jumped = false := by
    have hbeside : t.jumped = rest₁.jumped := (congrArg Engine.jumped ht.left.beside :)
    exact hbeside.trans (hsame.jumped.trans hw.jumped)
  refine ⟨rfl, .stays (h := h₁) ?_ ?_, ht.left.pause_eq.trans hpause',
    ht.matches (Nat.le_refl _) hm.length⟩
  · rw [afterInstr_eq, hjumped]
    refine hw.running ht.left hsame.module hsame.fp (hsp ▸ Nat.le_add_right _ _) ?_ hat
    rw [pendingWords, hpause', hsp]
    rfl
  · rw [afterInstr_eq]
    exact ht.left.changes

theorem jumps (hpause : e.hostPauseResult = none) {t t' : Engine η} {sp₁ h₁ : ℕ}
    {pc : JumpTarget} (ht : Jumped a.window e.stack e'.stack e.besideStack sp₁ pc t t')
    (hsp : sp₁ = a.base + h₁) (hat : a.IsAt s code pc h₁) :
    Steps d s code a rest e next next t t' := by
  have hjumped : t.jumped = true := (congrArg Engine.jumped ht.left.beside :)
  have hpc : t.pc = pc := ht.left.pc_eq
  refine ⟨rfl, .stays (h := h₁) ?_ ?_, ht.left.pause_eq.trans hpause,
    Twins.matches ht (Nat.le_refl _) hm.length⟩
  · rw [afterInstr_eq, hjumped, if_pos rfl, hpc]
    refine hw.running ht.left rfl rfl (hsp ▸ Nat.le_add_right _ _) ?_ hat
    rw [hsp]
    change _ + e.pendingWords = _
    rw [pendingWords, hpause]
    rfl
  · rw [afterInstr_eq]
    exact ht.left.changes

theorem pauses {b : InterpreterBreak} {t t' : Engine η}
    {ret : ResultType} {sp₁ h₁ : ℕ}
    (ht : Interpreter.Pauses a.window e.stack e'.stack e.besideStack sp₁ ret b t t')
    (hle : a.base ≤ sp₁) (hsp : sp₁ + ret.words = a.base + h₁) (hat : a.IsAt s code next h₁) :
    Breaks d s code a rest e next b t t' := by
  obtain ⟨rfl, rest₁, hsame, ht⟩ := ht
  have hjumped : t.jumped = false := by
    have hbeside : t.jumped = rest₁.jumped := (congrArg Engine.jumped ht.left.beside :)
    exact hbeside.trans (hsame.jumped.trans hw.jumped)
  refine .pause (h := h₁) ?_ ?_ ht.left.changes (ht.matches (Nat.le_refl _) hm.length)
  · rw [afterInstr_eq, hjumped]
    exact hw.running ht.left hsame.module hsame.fp hle hsp hat
  · rw [ht.left.pause_eq]
    simp

/-- An instruction that works on its operands in the window. -/
theorem works (hpause : e.hostPauseResult = none) {x : ExecM η Unit} {sp₁ h₁ : ℕ}
    (hx : Coupled safe (Twins a.window e.stack e'.stack e.besideStack e.sp e.sp) x x
      (fun _ => Worked a.window e.stack e'.stack e.besideStack sp₁)
      (Traps a.window e.stack e'.stack e.hostPauseResult)) (hsp : sp₁ = a.base + h₁)
    (hat : a.IsAt s code next h₁) :
    Executes safe d s code a rest e e' next next (x >>= fun _ => pure next) :=
  Coupled.bind (hx.weaken id (fun _ _ h => h) (fun _ _ _ h => h) fun _ _ _ h =>
    hm.traps (hpause ▸ h))
    (fun _ => .pure fun _ _ h => hw.stays hm hpause h hsp hat) _ _ (Twins.start _ hm)

end Engine.Within

end SpaceWasm
