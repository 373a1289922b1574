import SpaceWasm.Execution
import SpaceWasm.Frames
import SpaceWasm.ModuleCode
import SpaceWasm.SharedMemory

/-!
# Activations

An activation is a call that has not returned. The activations of a running engine lie
one above the other on the stack: the parameters of each are the topmost operands of its
caller, its link words say where the frame of the caller is and which module it is of,
and the address in the second one is that of the call, behind which the caller goes on
with the results on its stack.
-/

namespace SpaceWasm

open Fallible

variable {η : Type}

structure Activation where
  module : ModuleRef
  func : Func
  fp : ℕ
  /-- What the call has left in the second link word. -/
  returnPc : JumpTarget

namespace Activation

variable (a : Activation)

/-- The address of the first parameter. -/
def low : ℕ := a.fp - a.func.parameterSize

/-- The address of the first operand. -/
def base : ℕ := a.fp + 2 + a.func.localSize

/-- The end of the operands. -/
def high : ℕ := a.base + a.func.stackUsage

def window : Window := ⟨a.low, a.fp, a.high⟩

/-- The listing `L` is the code of the function, a function of the module `m`. -/
structure Body (s : Store) (code : CodeBuilder) (m : Module) (ctx : Context) (L : Listing) :
    Prop where
  module : s.module? a.module = some m
  mem : a.func ∈ m.functions
  compiled : a.func.CompiledTo s m code ctx L

/-- The address `pc` is that of an instruction of the function, where `h` operand words
are on the stack. -/
def IsAt (s : Store) (code : CodeBuilder) (pc : JumpTarget) (h : ℕ) : Prop :=
  ∃ m ctx L i, a.Body s code m ctx L ∧ pc = addrOf i ∧ L.HeightAt i h

/-- The frame of an activation whose caller has the frame pointer `fp`. -/
structure Framed (words : List U32) (fp : ℕ) (delta : U8) : Prop where
  high_le : a.high ≤ words.length
  params_le : a.func.parameterSize ≤ a.fp
  fp_le : fp ≤ a.fp
  length_le : a.fp - fp ≤ 0xFFFF
  link : words[a.fp]? = some (a.func.linkWord (a.fp - fp) delta)
  pc : words[a.fp + 1]? = some a.returnPc

end Activation

/-- The activations on a stack, the topmost one first. -/
inductive Chain (s : Store) (code : CodeBuilder) (words : List U32) :
    Activation → List Activation → Prop
  | outermost {a : Activation} (framed : a.Framed words 0 0) (fp : a.fp = a.func.parameterSize)
      (pc : a.returnPc = JumpTarget.sentinel) : Chain s code words a []
  | called {a c : Activation} {rest : List Activation} {h : ℕ}
      (framed : a.Framed words c.fp (a.module - c.module))
      (fp : a.fp = c.base + h + a.func.parameterSize) (pc : a.returnPc ≠ JumpTarget.sentinel)
      (returns : c.IsAt s code (a.returnPc + 2) (h + a.func.returnTy.words))
      (chain : Chain s code words c rest) : Chain s code words a (c :: rest)

variable {s s' : Store} {code : CodeBuilder} {a : Activation} {pc : JumpTarget} {h : ℕ}

theorem Store.Runs.similar {r : ModuleRef} {m : Module} (hs : s.Runs s')
    (hm : s.module? r = some m) :
    ∃ m', s'.module? r = some m' ∧ m.Similar m' ∧ m'.functions = m.functions := by
  obtain ⟨m', hm', halike⟩ := hs.module?_of r hm
  exact ⟨m', hm', halike.similar, by rw [halike.eq]⟩

theorem Activation.IsAt.runs (hat : a.IsAt s code pc h) (hs : s.Runs s') :
    a.IsAt s' code pc h := by
  obtain ⟨m, ctx, L, i, hbody, hpc, hi⟩ := hat
  obtain ⟨m', hm', hsimilar, hfunctions⟩ := hs.similar hbody.module
  exact ⟨m', ctx, L, i, ⟨hm', hfunctions ▸ hbody.mem,
    hbody.compiled.keeps hs.keeps hsimilar (.refl code)⟩, hpc, hi⟩

theorem Activation.Body.isAt {m : Module} {ctx : Context} {L : Listing} {i : ℕ}
    (hbody : a.Body s code m ctx L) (hi : L.HeightAt i h) : a.IsAt s code (addrOf i) h :=
  ⟨m, ctx, L, i, hbody, rfl, hi⟩

theorem Listing.HeightAt.le_here {L : Listing} {i : ℕ} (hlisted : Listed L.base L.entries)
    (hi : L.HeightAt i h) : i ≤ L.here := by
  obtain ⟨e, he, rfl, -⟩ := hi
  exact Nat.le_trans (Nat.le_add_right _ _) (hlisted.next_le he).2

/-- An instruction of a function is at no address that stands for a return. -/
theorem Activation.IsAt.ne_sentinel (hat : a.IsAt s code pc h) : pc ≠ JumpTarget.sentinel := by
  obtain ⟨m, ctx, L, i, ⟨-, -, hL⟩, rfl, hi⟩ := hat
  have hle := hi.le_here (hL.installed code (.refl code)).listed
  have hhere := hL.here_le
  have hsize := code.size_lt
  exact addrOf_ne_sentinel (by omega)

theorem Activation.IsAt.le (hat : a.IsAt s code pc h) : h ≤ a.func.stackUsage := by
  obtain ⟨m, ctx, L, i, ⟨-, -, hL⟩, -, e, he, -, hheight⟩ := hat
  exact hL.heighted.le e he h hheight

theorem Activation.Framed.congr {words words' : List U32} {fp : ℕ} {delta : U8}
    (hf : a.Framed words fp delta) (hlength : words'.length = words.length)
    (hwords : ∀ i < a.fp + 2, a.fp ≤ i → words'[i]? = words[i]?) : a.Framed words' fp delta where
  high_le := hlength ▸ hf.high_le
  params_le := hf.params_le
  fp_le := hf.fp_le
  length_le := hf.length_le
  link := (hwords a.fp (by omega) (Nat.le_refl _)).trans hf.link
  pc := (hwords (a.fp + 1) (by omega) (Nat.le_succ _)).trans hf.pc

namespace Chain

variable {words words' : List U32} {rest : List Activation}

theorem runs (hc : Chain s code words a rest) (hs : s.Runs s') : Chain s' code words a rest := by
  induction hc with
  | outermost framed fp pc => exact .outermost framed fp pc
  | called framed fp pc returns _ ih => exact .called framed fp pc (returns.runs hs) ih

theorem high_le (hc : Chain s code words a rest) : a.high ≤ words.length := by
  cases hc with
  | outermost framed => exact framed.high_le
  | called framed => exact framed.high_le

theorem params_le (hc : Chain s code words a rest) : a.func.parameterSize ≤ a.fp := by
  cases hc with
  | outermost framed => exact framed.params_le
  | called framed => exact framed.params_le

/-- The frames depend on the words below the local variables only. -/
theorem congr (hc : Chain s code words a rest) (hlength : words'.length = words.length)
    (hwords : ∀ i < a.fp + 2, words'[i]? = words[i]?) : Chain s code words' a rest := by
  induction hc with
  | outermost framed fp pc =>
      exact .outermost (framed.congr hlength fun i hi _ => hwords i hi) fp pc
  | @called a c rest h framed fp pc returns _ ih =>
      refine .called (framed.congr hlength fun i hi _ => hwords i hi) fp pc returns
        (ih fun i hi => hwords i ?_)
      rw [fp, Activation.base]
      omega

/-- The activation may change the words of its own that are no link words. -/
theorem touch (hc : Chain s code words a rest) (hlength : words'.length = words.length)
    (hwords : ∀ i, ¬a.window.Writable i 1 → words'[i]? = words[i]?) :
    Chain s code words' a rest := by
  cases hc with
  | outermost framed fp pc =>
      refine .outermost (framed.congr hlength fun i hi hle => hwords i fun hw => ?_) fp pc
      rcases hw.2 with hw | hw <;> simp only [Activation.window] at hw <;> omega
  | @called _ c rest h framed fp pc returns chain =>
      refine .called (framed.congr hlength fun i hi hle => hwords i fun hw => ?_) fp pc returns
        (chain.congr hlength fun i hi => hwords i fun hw => ?_)
      · rcases hw.2 with hw | hw <;> simp only [Activation.window] at hw <;> omega
      · have hlow := hw.1.1
        simp only [Activation.window, Activation.low, fp, Activation.base] at hlow
        omega

end Chain

end SpaceWasm
