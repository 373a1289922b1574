import SpaceWasm.Calls

/-!
# Branches of a running engine

An instruction that begins with a pop goes on with the topmost operand word. A branch
takes an engine to an instruction of the same function, or is a return; the heights of
the listing say how many operands it finds there.
-/

namespace SpaceWasm

open Fallible

variable {η β : Type} {s : Store} {code : CodeBuilder} {env : ExecEnv η} {a : Activation}
  {rest : List Activation} {h : ℕ} {e e' : Engine η} {safe : Prop} {stop next : JumpTarget}
  {m : Module} {ctx : Context} {L : Listing} {d : ℕ}

/-! ### The topmost operand -/

/-- The engine without its topmost operand word, which has been read. -/
def Engine.popped (e : Engine η) : Engine η :=
  { e with sp := e.sp - 1, stack := ⟨e.stack.words, (e.sp - 1) :: e.stack.touched⟩ }

/-- The topmost operand word. -/
def Engine.top (e : Engine η) : U32 := e.stack.words.getD (e.sp - 1) 0

/-- An instruction that begins with a pop. -/
theorem pop_bind (hsp : 1 ≤ e.sp) (hle : e.sp ≤ e.stack.words.length)
    {f : Engine η → U32 → ExecM η β} :
    (dropSp 1 >>= fun _ => get >>= fun u => readWord u.sp >>= fun v => f u v) e =
      f { e with sp := e.sp - 1 } e.top e.popped := by
  have hdrop := dropSp_withStack e (s := e.sp) e.stack.touched (l := e.stack.words) hsp
  have hword : e.stack.words[e.sp - 1]? = some e.top := by
    rw [Engine.top, List.getD_eq_getElem _ _ (by omega), List.getElem?_eq_getElem (by omega)]
  have hread := readWord_withStack e (s := e.sp - 1) e.stack.touched hword
  rw [Engine.withStack_self] at hdrop
  rw [bind_of_ok hdrop, bind_of_ok (get_apply _)]
  exact bind_of_ok hread

theorem Engine.Matches.popped (hm : e.Matches e') : e.popped.Matches e'.popped :=
  ⟨hm.beside, congrArg (· - 1) hm.sp, hm.length, fun i hi =>
    hm.words i (Nat.lt_of_lt_of_le hi (Nat.sub_le _ _))⟩

theorem Engine.Matches.top (hm : e.Matches e') (hsp : 1 ≤ e.sp) : e'.top = e.top := by
  rw [Engine.top, Engine.top, List.getD_eq_getElem?_getD, List.getD_eq_getElem?_getD, hm.sp,
    hm.words _ (by omega)]

theorem Engine.Ready.popped (hr : e.Ready env code) : e.popped.Ready env code :=
  ⟨hr.pages, hr.coded, hr.linked, hr.coherent, hr.host, hr.small, hr.pause⟩

theorem Engine.Within.popped (hw : e.Within s code a rest h) (hle : 1 ≤ h) :
    e.popped.Within s code a rest (h - 1) where
  chain := hw.chain
  module := hw.module
  fp := hw.fp
  sp := by
    have hsp := hw.sp
    change e.sp - 1 = _
    omega
  le := Nat.le_trans (Nat.sub_le _ _) hw.le
  jumped := hw.jumped

theorem Stack.Changes.popped {touch write : ℕ → Prop} {st : Stack}
    (hc : Changes touch write e.popped.stack st) (htop : touch (e.sp - 1)) :
    Changes touch write e.stack st := by
  obtain ⟨as, has, hall⟩ := hc.touched
  refine ⟨hc.length, hc.words, as ++ [e.sp - 1], ?_, fun i hi => ?_⟩
  · rw [has, List.append_assoc]
    rfl
  · rcases List.mem_append.1 hi with hi | hi
    · exact hall i hi
    · exact List.mem_singleton.1 hi ▸ htop

theorem Engine.le_of_popped {top : ℕ} (h : e.popped.sp ≤ top + d) : e.sp ≤ top + (d + 1) := by
  change e.sp - 1 ≤ top + d at h
  omega

theorem Engine.Advance.popped {e₁ : Engine η} (ht : a.window.Covers (e.sp - 1) 1)
    (hadv : Advance d s code a rest e.popped e₁) : Advance (d + 1) s code a rest e e₁ := by
  cases hadv with
  | stays running stack => exact .stays running (stack.popped ht)
  | enters running pc stack zero callee =>
      exact .enters running pc (stack.popped (.inl ht)) zero callee
  | leaves top rest_eq running pc sp stack top_le le_top dropped results =>
      exact .leaves top rest_eq running pc sp (stack.popped ht) top_le
        (Nat.le_trans le_top (Nat.sub_le _ _)) (le_of_popped dropped) results

theorem Engine.Breaks.popped {b : InterpreterBreak} {t t' : Engine η}
    (ht : a.window.Covers (e.sp - 1) 1) (hb : Breaks d s code a rest e.popped next b t t') :
    Breaks (d + 1) s code a rest e next b t t' := by
  cases hb with
  | trap regular pending beside length stack =>
      exact .trap regular pending beside length (stack.popped ht)
  | pause running pending stack twin => exact .pause running pending (stack.popped ht) twin
  | finished top rest_eq pc jumped fp sp pending result stack top_le le_top dropped results twin =>
      exact .finished top rest_eq pc jumped fp sp pending result (stack.popped ht) top_le
        (Nat.le_trans le_top (Nat.sub_le _ _)) (le_of_popped dropped) results twin

/-- An instruction that pops a word and goes on with it. -/
theorem Engine.Within.pops (hw : e.Within s code a rest h) (hm : e.Matches e') (hle : 1 ≤ h)
    {f : Engine η → U32 → ExecM η JumpTarget}
    (hf : (f { e with sp := e.sp - 1 } e.top e.popped).Both safe
      (Steps d s code a rest e.popped next) (Breaks d s code a rest e.popped stop)
      (f { e' with sp := e'.sp - 1 } e.top e'.popped)) :
    Executes safe (d + 1) s code a rest e e' stop next
      (dropSp 1 >>= fun _ => get >>= fun u => readWord u.sp >>= fun v => f u v) := by
  have hsp := hw.sp
  have husage := hw.le
  have hhigh := hw.chain.high_le
  have hhigh' : a.high = a.base + a.func.stackUsage := rfl
  have hbase : a.base = a.fp + 2 + a.func.localSize := rfl
  have hlow : a.low ≤ a.fp := Nat.sub_le _ _
  have ht : a.window.Covers (e.sp - 1) 1 :=
    ⟨show a.low ≤ e.sp - 1 by omega, show e.sp - 1 + 1 ≤ a.high by omega⟩
  unfold Executes
  rw [pop_bind (by omega) (by omega), pop_bind (by rw [hm.sp]; omega)
    (by rw [hm.sp, hm.length]; omega), hm.top (by omega)]
  generalize f { e with sp := e.sp - 1 } e.top e.popped = o at hf
  generalize f { e' with sp := e'.sp - 1 } e.top e'.popped = o' at hf
  cases hf with
  | ok hq => exact .ok ⟨hq.1, hq.2.1.popped ht, hq.2.2⟩
  | error hb => exact .error (hb.popped ht)
  | panic hsafe => exact .panic hsafe

/-- An instruction that pops a word and goes on with it. -/
theorem Engine.Within.pops_pure (hw : e.Within s code a rest h) (hm : e.Matches e') (hle : 1 ≤ h)
    {x : ExecM η Unit} {f : Engine η → U32 → ExecM η Unit}
    (hx : x = dropSp 1 >>= fun _ => get >>= fun u => readWord u.sp >>= fun v => f u v)
    (hf : ((f { e with sp := e.sp - 1 } e.top >>= fun _ => pure next) e.popped).Both safe
      (Steps d s code a rest e.popped next) (Breaks d s code a rest e.popped stop)
      ((f { e' with sp := e'.sp - 1 } e.top >>= fun _ => pure next) e'.popped)) :
    Executes safe (d + 1) s code a rest e e' stop next (x >>= fun _ => pure next) := by
  rw [hx]
  simp only [bind_assoc]
  exact hw.pops hm hle (f := fun u v => f u v >>= fun _ => pure next) hf

/-! ### Branches -/

theorem Activation.Body.parameterSize_le (hr : e.Ready env code)
    (hbody : a.Body e.store code m ctx L) : a.func.parameterSize ≤ 0xFF := by
  obtain ⟨ty, hty⟩ := (hr.coded m (List.mem_of_getElem? hbody.module)).declared _ hbody.mem
  exact hty.parameterSize_le

section Branches

variable (hw : e.Within e.store code a rest h) (hm : e.Matches e') (hr : e.Ready env code)
  (hbody : a.Body e.store code m ctx L)

include hw hm hr hbody

/-- A branch to a label. -/
theorem Engine.Within.branches {l : Label} {x : LabelTarget} {p : ℕ} {offset : JumpOffset}
    (hb : L.Branches ctx.returnTy h l) (hx : L.Lands p l x) (hp : e.pc + offset = addrOf p) :
    Executes safe d e.store code a rest e e' stop next
      (Interpreter.brImpl offset x >>= fun _ => pure next) := by
  rcases hb with ⟨hret, hresult, hle⟩ | ⟨hne, hwords, hdepth, i, hi, hheight⟩
  · have hreturn : (Interpreter.brImpl offset x : ExecM η Unit) =
        Interpreter.return_ a.func.returnTy.words := by
      unfold Interpreter.brImpl
      rw [hx.arity, unwrap_some, pure_bind, if_pos (hx.sentinel.2 hret), LabelTarget.arityOf_words,
        hresult, hbody.compiled.describes.returnTy]
    rw [hreturn]
    rw [hbody.compiled.describes.returnTy] at hle
    exact hw.returns hm hr hle (hbody.parameterSize_le hr)
  · have hat := hbody.isAt hheight
    have hsentinel : x.isSentinel = false := by
      rw [← Bool.not_eq_true, hx.sentinel]
      exact hne
    have hroom : a.window.Room e.sp x.depth.toNat (LabelTarget.arityOf l.result).words := by
      rw [LabelTarget.arityOf_words, hx.depth]
      exact hw.room hdepth hat.le
    have hjump : Coupled safe (Twins _ _ _ e.besideStack _ _) (Interpreter.brImpl offset x) _ _
        (Engine.Breaks d e.store code a rest e stop) :=
      Interpreter.brImpl_jumps hw.high_le hm.length hx.arity hsentinel
        (by rw [LabelTarget.arityOf_words, hx.depth]; exact hwords) hroom
    have hpc : e.besideStack.pc + offset + x.jump = addrOf i := by
      have htarget := hx.jump hne
      rw [hi] at htarget
      rw [show e.besideStack.pc = e.pc from rfl, hp]
      exact (Option.some.inj htarget).symm
    rw [hpc] at hjump
    refine Coupled.bind hjump (fun _ => .pure fun _ _ ht => hw.jumps hm hr.pause ht ?_ hat) _ _
      (Twins.start _ hm)
    have hsp := hw.sp
    rw [LabelTarget.arityOf_words, hx.depth]
    omega

theorem Engine.Within.if_ {l : Label} {x : LabelTarget} {p i : ℕ} (hle : 1 ≤ h)
    (hnext : a.IsAt e.store code next (h - 1)) (hne : l.dest ≠ .ret) (hx : L.Lands p l x)
    (hp : e.pc + 1 = addrOf p) (hi : L.resolve l.dest = some (addrOf i))
    (hheight : L.HeightAt i (h - 1)) :
    Executes safe (d + 1) e.store code a rest e e' stop next
      (Interpreter.if_ x >>= fun _ => pure next) := by
  have hw' := hw.popped hle
  have hm' := hm.popped
  have hpc : e.pc + 1 + x.jump = addrOf i := by
    rw [hp]
    exact (Option.some.inj (hi.symm.trans (hx.jump hne))).symm
  refine hw.pops_pure hm hle rfl ?_
  by_cases hv : e.top = 0
  · simp only [if_pos hv]
    have hjump : Coupled safe (Twins a.window e.popped.stack e'.popped.stack e.popped.besideStack
        e.popped.sp e.popped.sp) _ _ _ (Engine.Breaks d e.store code a rest e.popped stop) :=
      jump_jumps (Nat.le_refl _) fun pc => pc + 1 + x.jump
    exact Coupled.bind hjump (fun _ => .pure fun _ _ ht => hw'.jumps hm' hr.pause ht hw'.sp
      (by rw [show e.popped.besideStack.pc + 1 + x.jump = addrOf i from hpc]
          exact hbody.isAt hheight)) _ _ (Twins.start _ hm')
  · simp only [if_neg hv]
    exact .ok (hw'.stays hm' hr.pause ((Twins.start _ hm').worked (Nat.le_refl _)) hw'.sp hnext)

theorem Engine.Within.brIf {l : Label} {x : LabelTarget} {p : ℕ} (hle : 1 ≤ h)
    (hnext : a.IsAt e.store code next (h - 1)) (hb : L.Branches ctx.returnTy (h - 1) l)
    (hx : L.Lands p l x) (hp : e.pc + 1 = addrOf p) :
    Executes safe (d + 1) e.store code a rest e e' stop next
      (Interpreter.brIf x >>= fun _ => pure next) := by
  have hw' := hw.popped hle
  have hm' := hm.popped
  refine hw.pops_pure hm hle rfl ?_
  by_cases hv : e.top ≠ 0
  · simp only [if_pos hv]
    exact hw'.branches hm' hr.popped hbody hb hx hp
  · simp only [if_neg hv]
    exact .ok (hw'.stays hm' hr.pause ((Twins.start _ hm').worked (Nat.le_refl _)) hw'.sp hnext)

/-- A `br_table` branches to the label of its selector. -/
theorem Engine.Within.brTable {n : U32} {pc : JumpTarget} (hle : 1 ≤ h)
    (hcase : ∀ v, ∃ l x p, IrReader.brTableCase env.code n v pc = .ok x next ∧
      L.Branches ctx.returnTy (h - 1) l ∧ L.Lands p l x ∧ e.pc + brTableOffset n v = addrOf p) :
    Executes safe (d + 1) e.store code a rest e e' stop next (Interpreter.brTable env n pc) := by
  have hw' := hw.popped hle
  have hm' := hm.popped
  obtain ⟨l, x, p, hrun, hb, hx, hp⟩ := hcase e.top
  rw [Interpreter.brTable_eq]
  refine hw.pops hm hle ?_
  rw [hrun]
  exact hw'.branches hm' hr.popped hbody hb hx hp

end Branches

end SpaceWasm
