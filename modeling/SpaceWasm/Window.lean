import SpaceWasm.Interpreter
import SpaceWasm.Lib.Coupling
import SpaceWasm.StackAccess

/-!
# The window of an activation

An activation works on a window of the stack: its parameters, its two link words, its
local variables and its operands. `Inside` says that an engine differs from an earlier
one only by accesses in the window, none of which has written a link word. `Twins` says
so of two engines that differ only in stale words: those at a frontier and above it may
be different. The rules below are those of the stack accesses, for two engines at once;
what an instruction does to the stack is derived from them.
-/

namespace SpaceWasm

open Fallible

variable {η α β : Type}

/-- The words of an activation, from `low` up to `high`, with two link words at `link`. -/
structure Window where
  low : ℕ
  link : ℕ
  high : ℕ

namespace Window

/-- The `n` words at `a` lie in the window. -/
def Covers (w : Window) (a n : ℕ) : Prop := w.low ≤ a ∧ a + n ≤ w.high

/-- The `n` words at `a` lie in the window and are no link words. -/
def Writable (w : Window) (a n : ℕ) : Prop :=
  w.Covers a n ∧ (a + n ≤ w.link ∨ w.link + 2 ≤ a)

/-- There are `ins` operand words below `sp`, and room for `outs` in their place. -/
structure Room (w : Window) (sp ins outs : ℕ) : Prop where
  low : w.low ≤ w.link
  below : w.link + 2 + ins ≤ sp
  top : sp ≤ w.high
  above : sp - ins + outs ≤ w.high

variable {w : Window} {a b n m : ℕ}

theorem Covers.mono (h : w.Covers a n) (hle : a ≤ b) (hlt : b + m ≤ a + n) : w.Covers b m :=
  ⟨Nat.le_trans h.1 hle, Nat.le_trans hlt h.2⟩

theorem Writable.mono (h : w.Writable a n) (hle : a ≤ b) (hlt : b + m ≤ a + n) :
    w.Writable b m := by
  refine ⟨h.1.mono hle hlt, ?_⟩
  rcases h.2 with h | h <;> omega

theorem Room.covers {sp ins outs : ℕ} (h : w.Room sp ins outs) (ha : sp - ins ≤ a)
    (hb : a + n ≤ sp) : w.Covers a n := by
  have := h.low
  have := h.below
  have := h.top
  exact ⟨by omega, by omega⟩

theorem Room.writable {sp ins outs : ℕ} (h : w.Room sp ins outs) (ha : sp - ins ≤ a)
    (hb : a + n ≤ sp - ins + outs) : w.Writable a n := by
  have := h.low
  have := h.below
  have := h.above
  exact ⟨⟨by omega, by omega⟩, by omega⟩

end Window

/-- The engine `e` has the stack pointer `sp` and is otherwise as `rest`; its stack is
`st` after accesses in the window. -/
structure Inside (w : Window) (st : Stack) (rest : Engine η) (sp : ℕ) (e : Engine η) : Prop where
  beside : e.besideStack = rest
  sp_eq : e.sp = sp
  length : e.stack.words.length = st.words.length
  words : ∀ a, ¬w.Writable a 1 → e.stack.words[a]? = st.words[a]?
  touched : ∃ as, e.stack.touched = as ++ st.touched ∧ ∀ a ∈ as, w.Covers a 1

namespace Inside

variable {w : Window} {st : Stack} {rest : Engine η} {sp : ℕ}

theorem refl (w : Window) (e : Engine η) : Inside w e.stack e.besideStack e.sp e :=
  ⟨rfl, rfl, rfl, fun _ _ => rfl, [], rfl, nofun⟩

/-- Something beside the stack changes. -/
theorem change {e e' : Engine η} {rest' : Engine η} (h : Inside w st rest sp e)
    (hrest : e'.besideStack = rest') (hsp : e'.sp = e.sp) (hstack : e'.stack = e.stack) :
    Inside w st rest' sp e' :=
  ⟨hrest, hsp.trans h.sp_eq, by rw [hstack, h.length], by rw [hstack]; exact h.words,
    by rw [hstack]; exact h.touched⟩

theorem withSp {e : Engine η} (h : Inside w st rest sp e) (sp' : ℕ) :
    Inside w st rest sp' { e with sp := sp' } :=
  ⟨h.beside, rfl, h.length, h.words, h.touched⟩

section Fields

variable {e : Engine η} (h : Inside w st rest sp e)

include h

theorem pc_eq : e.pc = rest.pc := by rw [← h.beside]; rfl

theorem fp_eq : e.fp = rest.fp := by rw [← h.beside]; rfl

theorem module_eq : e.module = rest.module := by rw [← h.beside]; rfl

theorem memory_eq : e.memory = rest.memory := by rw [← h.beside]; rfl

theorem store_eq : e.store = rest.store := by rw [← h.beside]; rfl

theorem world_eq : e.world = rest.world := by rw [← h.beside]; rfl

theorem pause_eq : e.hostPauseResult = rest.hostPauseResult := by
  rw [← h.beside]; rfl

end Fields

/-- A word in the window is read. -/
theorem read {e : Engine η} (h : Inside w st rest sp e) {a : ℕ} (ha : w.Covers a 1) :
    Inside w st rest sp { e with stack := ⟨e.stack.words, a :: e.stack.touched⟩ } := by
  obtain ⟨as, has, hcovers⟩ := h.touched
  exact ⟨h.beside, h.sp_eq, h.length, h.words, a :: as, congrArg (a :: ·) has,
    List.forall_mem_cons.2 ⟨ha, hcovers⟩⟩

/-- A word in the window that is no link word is written. -/
theorem write {e : Engine η} (h : Inside w st rest sp e) {a : ℕ} (ha : w.Writable a 1) (v : U32) :
    Inside w st rest sp { e with stack := ⟨e.stack.words.set a v, a :: e.stack.touched⟩ } := by
  obtain ⟨as, has, hcovers⟩ := h.touched
  refine ⟨h.beside, h.sp_eq, List.length_set.trans h.length, fun b hb => ?_, a :: as,
    congrArg (a :: ·) has, List.forall_mem_cons.2 ⟨ha.1, hcovers⟩⟩
  have hne : a ≠ b := fun heq => hb (heq ▸ ha)
  exact (List.getElem?_set_ne hne).trans (h.words b hb)

end Inside

/-- Two engines that have worked in a window on the stacks `st` and `st'`; below the
frontier `k` their words are the same. -/
structure Twins (w : Window) (st st' : Stack) (rest : Engine η) (sp k : ℕ) (e e' : Engine η) :
    Prop where
  left : Inside w st rest sp e
  right : Inside w st' rest sp e'
  agree : ∀ a < k, e'.stack.words[a]? = e.stack.words[a]?

/-- A trap in the window; the decoder has not broken off, and no pause is pending but `pause`. -/
def Traps (w : Window) (st st' : Stack) (pause : Option ResultType) (b : InterpreterBreak)
    (e e' : Engine η) : Prop :=
  ∃ reason rest sp, b = .trap reason ∧ reason ≠ .malformedIr ∧ rest.hostPauseResult = pause ∧
    Twins w st st' rest sp 0 e e'

namespace Twins

variable {w : Window} {st st' : Stack} {rest : Engine η} {sp k : ℕ} {safe : Prop}

theorem mono {e e' : Engine η} {k' : ℕ} (h : Twins w st st' rest sp k e e') (hk : k' ≤ k) :
    Twins w st st' rest sp k' e e' :=
  ⟨h.left, h.right, fun a ha => h.agree a (Nat.lt_of_lt_of_le ha hk)⟩

theorem change {e e' f f' : Engine η} {rest' : Engine η} (h : Twins w st st' rest sp k e e')
    (hrest : f.besideStack = rest') (hrest' : f'.besideStack = rest') (hsp : f.sp = e.sp)
    (hsp' : f'.sp = e'.sp) (hstack : f.stack = e.stack) (hstack' : f'.stack = e'.stack) :
    Twins w st st' rest' sp k f f' :=
  ⟨h.left.change hrest hsp hstack, h.right.change hrest' hsp' hstack', by
    rw [hstack, hstack']
    exact h.agree⟩

theorem updateStore {e e' : Engine η} (h : Twins w st st' rest sp k e e') (g : Store → Store) :
    Twins w st st' { rest with store := g rest.store } sp k { e with store := g e.store }
      { e' with store := g e'.store } := by
  refine h.change ?_ ?_ rfl rfl rfl rfl
  · rw [← h.left.beside]
    rfl
  · rw [← h.right.beside]
    rfl

section Accesses

variable {Q : α → Engine η → Engine η → Prop} {E : InterpreterBreak → Engine η → Engine η → Prop}

/-- The frontier may be taken lower. -/
theorem until_ {k' : ℕ} {x y : ExecM η α} {P : Engine η → Engine η → Prop}
    (h : Coupled safe P x y (fun _ => Twins w st st' rest sp k) E) (hk : k' ≤ k) :
    Coupled safe P x y (fun _ => Twins w st st' rest sp k') E :=
  h.weaken id (fun _ _ h => h) (fun _ _ _ h => h.mono hk) fun _ _ _ h => h

theorem get_bind {f g : Engine η → ExecM η α}
    (h : ∀ e e', Twins w st st' rest sp k e e' →
      Coupled safe (Twins w st st' rest sp k) (f e) (g e') Q E) :
    Coupled safe (Twins w st st' rest sp k) (get >>= f) (get >>= g) Q E := by
  refine Coupled.get_bind fun e e' he => (h e e' he).weaken id ?_ (fun _ _ _ => id) fun _ _ _ => id
  rintro _ _ ⟨rfl, rfl⟩
  exact he

theorem spBelow_bind {n : ℕ} {f g : ℕ → ExecM η α} (hn : n ≤ sp)
    (h : Coupled safe (Twins w st st' rest sp k) (f (sp - n)) (g (sp - n)) Q E) :
    Coupled safe (Twins w st st' rest sp k) (spBelow n >>= f) (spBelow n >>= g) Q E := by
  have hrun : ∀ {st : Stack} {e : Engine η}, Inside w st rest sp e →
      spBelow n e = .ok (sp - n) e := by
    intro st e he
    rw [← he.sp_eq]
    exact spBelow_withStack e e.stack.touched (l := e.stack.words) (by rwa [he.sp_eq])
  intro e e' he
  rw [bind_of_ok (hrun he.left), bind_of_ok (hrun he.right)]
  exact h e e' he

theorem dropSp {n : ℕ} (hn : n ≤ sp) :
    Coupled safe (Twins w st st' rest sp k) (SpaceWasm.dropSp n) (SpaceWasm.dropSp n)
      (fun _ => Twins w st st' rest (sp - n) k) E :=
  spBelow_bind hn (.modify fun _ _ he => ⟨he.left.withSp _, he.right.withSp _, he.agree⟩)

theorem raiseSp (n : ℕ) :
    Coupled safe (Twins w st st' rest sp k) (SpaceWasm.raiseSp n) (SpaceWasm.raiseSp n)
      (fun _ => Twins w st st' rest (sp + n) k) E := by
  refine .modify fun e e' he => ?_
  rw [he.left.sp_eq, he.right.sp_eq]
  exact ⟨he.left.withSp _, he.right.withSp _, he.agree⟩

variable (hhigh : w.high ≤ st.words.length) (hlength : st'.words.length = st.words.length)

include hhigh hlength

theorem readWord {a : ℕ} (ha : w.Covers a 1) (hk : a < k) :
    Coupled safe (Twins w st st' rest sp k) (SpaceWasm.readWord a) (SpaceWasm.readWord a)
      (fun _ => Twins w st st' rest sp k) E := by
  intro e e' he
  have hlt : a < e.stack.words.length := by
    have := ha.2
    rw [he.left.length]
    omega
  obtain ⟨v, hv⟩ : ∃ v, e.stack.words[a]? = some v := ⟨_, List.getElem?_eq_getElem hlt⟩
  have hrun := readWord_withStack e (s := e.sp) e.stack.touched hv
  have hrun' := readWord_withStack e' (s := e'.sp) e'.stack.touched ((he.agree a hk).trans hv)
  rw [Engine.withStack_self] at hrun hrun'
  rw [hrun, hrun']
  exact .ok ⟨he.left.read ha, he.right.read ha, he.agree⟩

/-- A word that is written is the same in both, so that the frontier moves above it. -/
theorem writeWord {a : ℕ} (ha : w.Writable a 1) (hk : a ≤ k) (v : U32) :
    Coupled safe (Twins w st st' rest sp k) (SpaceWasm.writeWord a v) (SpaceWasm.writeWord a v)
      (fun _ => Twins w st st' rest sp (max k (a + 1))) E := by
  intro e e' he
  have hlt : a < st.words.length := by
    have := ha.1.2
    omega
  have hlt' : a < e'.stack.words.length := by
    rw [he.right.length, hlength]
    exact hlt
  rw [← he.left.length] at hlt
  have hrun := writeWord_withStack e (s := e.sp) e.stack.touched v hlt
  have hrun' := writeWord_withStack e' (s := e'.sp) e'.stack.touched v hlt'
  rw [Engine.withStack_self] at hrun hrun'
  rw [hrun, hrun']
  refine .ok ⟨he.left.write ha v, he.right.write ha v, fun b hb => ?_⟩
  change (e'.stack.words.set a v)[b]? = (e.stack.words.set a v)[b]?
  by_cases heq : a = b
  · rw [← heq, List.getElem?_set_self hlt, List.getElem?_set_self hlt']
  · rw [List.getElem?_set_ne heq, List.getElem?_set_ne heq]
    exact he.agree b (by omega)

theorem readDouble {a : ℕ} (ha : w.Covers a 2) (hk : a + 1 < k) :
    Coupled safe (Twins w st st' rest sp k) (SpaceWasm.readDouble a) (SpaceWasm.readDouble a)
      (fun _ => Twins w st st' rest sp k) E :=
  .bind (readWord hhigh hlength (ha.mono (Nat.le_refl a) (Nat.le_succ _)) (by omega)) fun _ =>
    .bind (readWord hhigh hlength (ha.mono (Nat.le_succ a) (Nat.le_refl _)) hk) fun _ =>
      .pure fun _ _ => id

theorem writeDouble {a : ℕ} (ha : w.Writable a 2) (hk : a ≤ k) (v : U64) :
    Coupled safe (Twins w st st' rest sp k) (SpaceWasm.writeDouble a v) (SpaceWasm.writeDouble a v)
      (fun _ => Twins w st st' rest sp (max k (a + 2))) E :=
  until_ (.bind (writeWord hhigh hlength (ha.mono (Nat.le_refl a) (Nat.le_succ _)) hk _) fun _ =>
    writeWord hhigh hlength (ha.mono (Nat.le_succ a) (Nat.le_refl _)) (by omega) _) (by omega)

theorem readValue {a : ℕ} {ty : ValType} (ha : w.Covers a ty.words) (hk : a + ty.words ≤ k) :
    Coupled safe (Twins w st st' rest sp k) (SpaceWasm.readValue ty a) (SpaceWasm.readValue ty a)
      (fun v e e' => v.type = ty ∧ Twins w st st' rest sp k e e') E := by
  cases ty with
  | i32 | f32 =>
      exact .bind (readWord hhigh hlength ha hk) fun _ => .pure fun _ _ he => ⟨rfl, he⟩
  | i64 | f64 =>
      exact .bind (readDouble hhigh hlength ha hk) fun _ => .pure fun _ _ he => ⟨rfl, he⟩

theorem pushValue {v : Value} (hv : w.Writable sp v.type.words) (hk : sp ≤ k) :
    Coupled safe (Twins w st st' rest sp k) (SpaceWasm.pushValue v) (SpaceWasm.pushValue v)
      (fun _ => Twins w st st' rest (sp + v.type.words) (max k (sp + v.type.words))) E := by
  refine get_bind fun e e' he => ?_
  rw [he.left.sp_eq, he.right.sp_eq]
  cases v with
  | i32 v | f32 v => exact .bind (writeWord hhigh hlength hv hk v) fun _ => raiseSp 1
  | i64 v | f64 v => exact .bind (writeDouble hhigh hlength hv hk v) fun _ => raiseSp 2

omit hhigh hlength

theorem trap {reason : TrapReason} (h : reason ≠ .malformedIr) :
    Coupled safe (Twins w st st' rest sp k) (throw (.trap reason) : ExecM η α)
      (throw (.trap reason)) Q (Traps w st st' rest.hostPauseResult) :=
  .throw fun _ _ he => ⟨reason, rest, sp, rfl, h, rfl, he.mono (Nat.zero_le _)⟩

end Accesses

end Twins

end SpaceWasm
