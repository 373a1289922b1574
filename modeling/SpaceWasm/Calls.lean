import SpaceWasm.Advance

/-!
# Calls and returns

A call enters an activation whose parameters are the topmost operands of its caller; a
return leaves it, with the results in the place of the parameters. The interpreter finds
back to the frame and the module of the caller by what the call has left in the link
words.
-/

namespace SpaceWasm

open Fallible

variable {η : Type} {s : Store} {code : CodeBuilder} {env : ExecEnv η} {a : Activation}
  {rest : List Activation} {h : ℕ} {e e' : Engine η} {safe : Prop} {stop next : JumpTarget}
  {d : ℕ}

/-! ### The module of a call -/

theorem Store.Linked.getMemory_eq (hs : s.Linked) {r : ModuleRef} {m : Module}
    (hm : s.module? r = some m) : ∃ mem, s.getMemory r = some mem := by
  have hsound := hs.module hm
  unfold Store.getMemory
  rw [hm, Option.bind_eq_bind, Option.bind_some]
  cases hkind : m.memory with
  | none => exact ⟨_, rfl⟩
  | some kind =>
      obtain ⟨t, ht, -⟩ := hsound.memory kind hkind
      cases kind with
      | owned mem => exact ⟨_, rfl⟩
      | import_ | importHost => exact ⟨t, ht⟩

theorem Store.Linked.getTable_eq (hs : s.Linked) {r : ModuleRef} {m : Module}
    (hm : s.module? r = some m) : ∃ table, s.getTable r = some table := by
  have hsound := hs.module hm
  unfold Store.getTable
  rw [hm, Option.bind_eq_bind, Option.bind_some]
  cases hkind : m.table with
  | none => exact ⟨_, rfl⟩
  | some kind =>
      obtain ⟨t, ht, -⟩ := hsound.table kind hkind
      cases kind with
      | owned table ty => exact ⟨_, rfl⟩
      | import_ | importHost => exact ⟨t, ht⟩

/-- The engine with another module, and what this module sees. -/
def Engine.inModule (e : Engine η) (r : ModuleRef) (mem : MemRef) (table : TableRef) : Engine η :=
  { e with module := r, memory := mem, table := table }

/-- The module of the callee becomes the current one. -/
theorem callImplEnterModule_eq (hc : e.context.Coherent) {r : ModuleRef} (index : U16)
    {mem : MemRef} {table : TableRef} (hmem : e.store.getMemory r = some mem)
    (htable : e.store.getTable r = some table) :
    callImplEnterModule ⟨r, index⟩ e =
      callImpl (r - e.module) index (e.inModule r mem table) := by
  unfold callImplEnterModule
  rw [bind_of_ok (get_apply e)]
  by_cases hr : r = e.module
  · subst hr
    have hmem' : some e.memory = some mem := hc.memory.symm.trans hmem
    have htable' : some e.table = some table := hc.table.symm.trans htable
    obtain rfl := Option.some.inj hmem'
    obtain rfl := Option.some.inj htable'
    rw [if_pos rfl, BitVec.sub_self]
    rfl
  · rw [if_neg hr]
    exact bind_of_ok (enterModule_eq e hmem htable)

/-! ### Calls -/

/-- An engine that has entered `f`. -/
def Engine.entered (e : Engine η) (f : Func) (words : List U32) (as : List ℕ) : Engine η :=
  { e with
    fp := e.sp % 2 ^ 32, sp := e.sp + (2 + f.localSize), pc := f.expr, jumped := true
    stack := ⟨words, as ++ e.stack.touched⟩ }

theorem Engine.Matches.inModule (hm : e.Matches e') (r : ModuleRef) (mem : MemRef)
    (table : TableRef) : (e.inModule r mem table).Matches (e'.inModule r mem table) :=
  ⟨congrArg (Engine.inModule · r mem table) hm.beside, hm.sp, hm.length, hm.words⟩

/-- Two engines that enter a function have the same words up to the new operands. -/
theorem Engine.Matches.entered (hm : e.Matches e') {f : Func} {words words' : List U32}
    {as as' : List ℕ} {link link' : U32} (hlink : link' = link)
    (he : Entered e.sp f link e.pc e.stack.words words)
    (he' : Entered e'.sp f link' e'.pc e'.stack.words words') :
    (e.entered f words as).Matches (e'.entered f words' as') := by
  subst hlink
  rw [hm.sp, hm.pc] at he'
  refine ⟨?_, ?_, ?_, fun i hi => ?_⟩
  · rw [show (e'.entered f words' as').besideStack = { e'.besideStack with
      fp := e'.sp % 2 ^ 32, pc := f.expr, jumped := true } from rfl, hm.beside, hm.sp]
    rfl
  · simp only [Engine.entered, hm.sp]
  · exact he'.same.length.trans (hm.length.trans he.same.length.symm)
  · exact he.agree he' hm.words i hi

namespace Engine.Within

variable (hw : e.Within e.store code a rest h)

include hw

/-- The frame of the caller is near enough for the link words. -/
theorem frame_le {pc : JumpTarget} {h' : ℕ} (hat : a.IsAt e.store code pc h') :
    e.fp ≤ e.sp ∧ e.sp - e.fp ≤ 0xFFFF := by
  obtain ⟨m, ctx, L, i, ⟨-, -, hL⟩, -⟩ := hat
  have hframe := hL.frame_le
  have hsp := hw.sp
  have hfp := hw.fp
  have hle := hw.le
  simp only [Activation.base] at hsp
  omega

/-- What a call leaves. -/
theorem enters {r : ModuleRef} {mem : MemRef} {table : TableRef} {fm : Module} {f : Func}
    {ty : FuncType} (hr : e.Ready env code) (hmodule : e.store.module? r = some fm)
    (hf : f ∈ fm.functions) (hty : f.Declared fm.types ty) (hle : wordsOf ty.params ≤ h)
    (hpc : e.pc ≠ JumpTarget.sentinel) (hcallee : e.store.MayCall a.module r)
    (hat : a.IsAt e.store code (e.pc + 2) (h - wordsOf ty.params + wordsOf ty.returns))
    (hroom : e.sp + f.requiredStackWords ≤ e.stack.words.length) {words : List U32} {as : List ℕ}
    (he : Entered e.sp f (f.linkWord (e.sp - e.fp) (r - e.module)) e.pc e.stack.words words)
    (has : ∀ i ∈ as, e.sp ≤ i ∧ i < e.sp + 2 + f.localSize) :
    Advance d e.store code a rest e
      (((e.inModule r mem table).entered f words as).afterInstr next) := by
  have hrequired : f.requiredStackWords = f.stackUsage + 2 + f.localSize := rfl
  have hsmall := hr.small
  have hsp := hw.sp
  obtain ⟨hfp, hlength⟩ := hw.frame_le hat
  obtain ⟨ctx, L, hL⟩ := (hr.coded fm (List.mem_of_getElem? hmodule)).coded f hf
  have hmod : e.sp % 2 ^ 32 = e.sp := Nat.mod_eq_of_lt (by omega)
  rw [afterInstr_eq]
  refine .enters (b := ⟨r, f, e.sp, e.pc⟩) ⟨?_, ?_, rfl, hmod, ?_, ?_, rfl⟩ rfl
    ⟨he.same.length, fun i hi => he.same.word i ?_, as, rfl, fun i hi => .inr (has i hi)⟩ he.zero
    hcallee
  · exact ⟨fm, ctx, L, L.base, ⟨hmodule, hf, hL⟩, hL.expr, hL.heighted.start⟩
  · have hsize := hty.parameterSize
    refine .called (h := h - wordsOf ty.params)
      ⟨?_, ?_, hw.fp ▸ hfp, hw.fp ▸ hlength, ?_, he.pc⟩ ?_ hpc ?_
      (hw.chain.congr he.same.length fun i hi => he.same.word i (.inl ?_))
    · change e.sp + 2 + f.localSize + f.stackUsage ≤ words.length
      rw [he.same.length]
      omega
    · change f.parameterSize ≤ e.sp
      omega
    · rw [← hw.fp, ← hw.module]
      exact he.link
    · change e.sp = a.base + (h - wordsOf ty.params) + f.parameterSize
      omega
    · change a.IsAt e.store code (e.pc + 2) (h - wordsOf ty.params + f.returnTy.words)
      rw [hty.returnTy_words]
      exact hat
    · have := hw.fp_le
      omega
  · change e.sp + 2 + f.localSize ≤ e.sp + (2 + f.localSize)
    omega
  · change e.sp + (2 + f.localSize) + e.pendingWords = e.sp + 2 + f.localSize + 0
    rw [pendingWords, hr.pause, Option.elim_none]
    omega
  · rw [Activation.base] at hi
    change ¬(e.sp ≤ i ∧ i < e.sp + 2 + f.localSize) at hi
    omega

variable (hm : e.Matches e') (hr : e.Ready env code)

include hm hr

/-- A call of a function of the store. -/
theorem calls {r : ModuleRef} {index : U16} {fm : Module} {f : Func} {ty : FuncType}
    (hmodule : e.store.module? r = some fm) (hf : fm.functions[index.toNat]? = some f)
    (hty : f.Declared fm.types ty) (hle : wordsOf ty.params ≤ h)
    (hpc : e.pc ≠ JumpTarget.sentinel) (hcallee : e.store.MayCall a.module r)
    (hat : a.IsAt e.store code (e.pc + 2) (h - wordsOf ty.params + wordsOf ty.returns)) :
    Executes safe d e.store code a rest e e' next next
      (callImplEnterModule ⟨r, index⟩ >>= fun _ => pure next) := by
  obtain ⟨mem, hmem⟩ := hr.linked.getMemory_eq hmodule
  obtain ⟨table, htable⟩ := hr.linked.getTable_eq hmodule
  have hstore := hm.store
  have hcoherent : e'.context.Coherent := by
    have hcontext : e'.context = e.context := (congrArg Engine.context hm.beside :)
    exact hcontext ▸ hr.coherent
  have hrun := callImplEnterModule_eq hr.coherent index hmem htable
  have hrun' := callImplEnterModule_eq hcoherent index
    (hstore.symm ▸ hmem) (hstore.symm ▸ htable)
  have hfunc : e.store.func? ⟨r, index⟩ = some f := by
    simp only [Store.func?, hmodule, Option.bind_eq_bind, Option.bind_some, hf]
  have hfunc' : (e'.inModule r mem table).store.func? ⟨r, index⟩ = some f := hstore ▸ hfunc
  obtain ⟨hfp, -⟩ := hw.frame_le hat
  unfold Executes
  rw [bind_apply, bind_apply, hrun, hrun']
  by_cases hroom : e.sp + f.requiredStackWords ≤ e.stack.words.length
  · obtain ⟨words, as, hcall, he, has⟩ := callImpl_eq (e.inModule r mem table)
      (r - e.module) hfunc hfp hroom
    obtain ⟨words', as', hcall', he', -⟩ := callImpl_eq (e'.inModule r mem table)
      (r - e'.module) hfunc'
      (show e'.fp ≤ e'.sp by rw [hm.fp, hm.sp]; exact hfp)
      (show e'.sp + _ ≤ e'.stack.words.length by rw [hm.sp, hm.length]; exact hroom)
    rw [hcall, hcall']
    refine .ok ⟨rfl, hw.enters hr hmodule (List.mem_of_getElem? hf) hty hle hpc hcallee hat hroom he
      has, hr.pause, (hm.inModule r mem table).entered ?_ he he'⟩
    change f.linkWord (e'.sp - e'.fp) (r - e'.module) = f.linkWord (e.sp - e.fp) (r - e.module)
    rw [hm.sp, hm.fp, hm.module]
  · have hlt := Nat.lt_of_not_le hroom
    rw [callImpl_overflow (e.inModule r mem table) (r - e.module) hfunc hlt,
      callImpl_overflow (e'.inModule r mem table) (r - e'.module) hfunc'
        (show e'.stack.words.length < e'.sp + _ by rw [hm.sp, hm.length]; exact hlt)]
    exact .error (.trap (by simp) hr.pause (hm.inModule r mem table).beside hm.length
      ⟨rfl, fun _ _ => rfl, [], rfl, by simp⟩)

end Engine.Within

/-! ### Returns -/

theorem Interpreter.Returned.agree {sp dst n : ℕ} {words words' w w' : List U32}
    (h : Returned sp dst n words w)
    (h' : Returned sp dst n words' w') (hle : dst + n ≤ sp)
    (hwords : ∀ i < sp, words'[i]? = words[i]?) : ∀ i < dst + n, w'[i]? = w[i]? := by
  intro i hi
  by_cases hlt : i < dst
  · rw [h.same.word i (.inl hlt), h'.same.word i (.inl hlt), hwords i (by omega)]
  · have hcopy := h.copy (i - dst) (by omega)
    have hcopy' := h'.copy (i - dst) (by omega)
    rw [Nat.add_sub_cancel' (Nat.le_of_not_lt hlt)] at hcopy hcopy'
    rw [hcopy, hcopy', hwords _ (by omega)]

/-- An engine that has returned to the activation `c`. -/
def Engine.returned (e : Engine η) (fp sp : ℕ) (pc : JumpTarget) (words : List U32) (as : List ℕ) :
    Engine η :=
  { e with fp := fp, sp := sp, pc := pc, jumped := true, stack := ⟨words, as ++ e.stack.touched⟩ }

theorem Interpreter.wordsValue_congr {words words' : List U32} {a n : ℕ} (hn : n ≤ 2)
    (h : ∀ i < a + n, words'[i]? = words[i]?) :
    Interpreter.wordsValue words' a n = Interpreter.wordsValue words a n := by
  have hget : ∀ i < a + n, words'.getD i 0 = words.getD i 0 := fun i hi => by
    rw [List.getD_eq_getElem?_getD, List.getD_eq_getElem?_getD, h i hi]
  obtain rfl | rfl | rfl : n = 0 ∨ n = 1 ∨ n = 2 := by omega
  · rfl
  · simp only [Interpreter.wordsValue, hget a (by omega)]
  · simp only [Interpreter.wordsValue, hget a (by omega), hget (a + 1) (by omega)]

theorem ResultType.words_le (r : ResultType) : r.words ≤ 2 := by
  rcases r with _ | ty
  · exact Nat.zero_le 2
  · cases ty <;> decide

theorem CallFrame.linkWord_fields {f : Func} {length : ℕ} (delta : U8) (hlength : length ≤ 0xFFFF)
    (hsize : f.parameterSize ≤ 0xFF) :
    ∃ c : CallFrame, f.linkWord length delta = c.intoBits ∧ c.frameLength.toNat = length ∧
      c.moduleDelta = delta ∧ c.parameterSize.toNat = f.parameterSize :=
  ⟨_, rfl, toNat_ofNat_of_lt (by omega), rfl, toNat_ofNat_of_lt (by omega)⟩

/-- The module of the caller is found back. -/
theorem returnsTo_of_coherent (hc : e.context.Coherent) {r : ModuleRef} {mem : MemRef}
    {table : TableRef} (hmem : e.store.getMemory r = some mem)
    (htable : e.store.getTable r = some table) :
    Interpreter.ReturnsTo e (e.module - r) r mem table := by
  by_cases hr : r = e.module
  · subst hr
    have hmem' : some e.memory = some mem := hc.memory.symm.trans hmem
    have htable' : some e.table = some table := hc.table.symm.trans htable
    exact .inl ⟨BitVec.sub_self _, rfl, (Option.some.inj hmem').symm,
      (Option.some.inj htable').symm⟩
  · refine .inr ⟨fun hzero => hr ?_, ?_, hmem, htable⟩
    · rw [← BitVec.sub_add_cancel e.module r, hzero]
      exact (BitVec.zero_add r).symm
    · rw [BitVec.eq_sub_iff_add_eq, BitVec.add_comm, BitVec.sub_add_cancel]

namespace Engine.Within

variable (hw : e.Within e.store code a rest h) (hle : a.func.returnTy.words ≤ h)
  (hsize : a.func.parameterSize ≤ 0xFF)

include hw hle hsize

/-- The return to the caller `c`. -/
theorem return_eq (hr : e.Ready env code) {c : Activation} {rest' : List Activation}
    (hrest : rest = c :: rest') :
    ∃ mem table words as, e.store.getMemory c.module = some mem ∧
      e.store.getTable c.module = some table ∧
      Interpreter.Returned e.sp a.low a.func.returnTy.words e.stack.words words ∧
      (∀ i ∈ as, a.window.Covers i 1) ∧
      Interpreter.return_ a.func.returnTy.words e =
        .ok () ((e.inModule c.module mem table).returned c.fp (a.low + a.func.returnTy.words)
          (a.returnPc + 2) words as) := by
  subst hrest
  have hsp := hw.sp
  have hfp := hw.fp
  have hmodule := hw.module
  have hhigh := hw.chain.high_le
  have husage := hw.le
  have hbase : a.base = a.fp + 2 + a.func.localSize := rfl
  have hhigh' : a.high = a.base + a.func.stackUsage := rfl
  cases hw.chain with
  | @called _ _ _ h' framed fp pc returns chain =>
      obtain ⟨cm, -, -, -, ⟨hcm, -, -⟩, -⟩ := returns
      obtain ⟨mem, hmem⟩ := hr.linked.getMemory_eq hcm
      obtain ⟨table, htable⟩ := hr.linked.getTable_eq hcm
      obtain ⟨link, hlink, hlength, hdelta, hparams⟩ :=
        CallFrame.linkWord_fields (a.module - c.module) framed.length_le hsize
      have hfle := framed.fp_le
      have hple := framed.params_le
      have hreturns : Interpreter.ReturnsTo e link.moduleDelta c.module mem table := by
        rw [hdelta, ← hmodule]
        exact returnsTo_of_coherent hr.coherent hmem htable
      obtain ⟨words, as, hreturned, has, hrun⟩ := Interpreter.return_eq e
        (ResultType.words_le a.func.returnTy) (by rw [hfp, framed.link, hlink])
        (hfp ▸ framed.pc) (by omega) (by omega) (by omega) (by omega) hreturns
      rw [if_neg pc, hlength, hparams, hfp] at hrun
      rw [hparams, hfp] at hreturned has
      refine ⟨mem, table, words, as, hmem, htable, hreturned, fun i hi => ?_, ?_⟩
      · have := has i hi
        exact ⟨this.1, show i + 1 ≤ a.high by omega⟩
      · rw [hrun]
        simp only [returned, inModule]
        congr 2
        omega

/-- The return of the outermost activation. -/
theorem finish_eq (hrest : rest = []) :
    ∃ words as, a.low = 0 ∧
      Interpreter.Returned e.sp 0 a.func.returnTy.words e.stack.words words ∧
      (∀ i ∈ as, a.window.Covers i 1) ∧
      Interpreter.return_ a.func.returnTy.words e =
        .error .finished { e.returned 0 0 JumpTarget.sentinel words as with
          result := some (Interpreter.wordsValue words 0 a.func.returnTy.words) } := by
  subst hrest
  have hsp := hw.sp
  have hfp := hw.fp
  have hhigh := hw.chain.high_le
  have husage := hw.le
  have hbase : a.base = a.fp + 2 + a.func.localSize := rfl
  have hhigh' : a.high = a.base + a.func.stackUsage := rfl
  cases hw.chain with
  | outermost framed fp pc =>
      obtain ⟨link, hlink, hlength, hdelta, hparams⟩ :=
        CallFrame.linkWord_fields 0 framed.length_le hsize
      rw [Nat.sub_zero] at hlength
      have hlow : a.low = 0 := by rw [Activation.low, fp, Nat.sub_self]
      have hreturns : Interpreter.ReturnsTo e link.moduleDelta e.module e.memory e.table :=
        .inl ⟨hdelta, rfl, rfl, rfl⟩
      obtain ⟨words, as, hreturned, has, hrun⟩ := Interpreter.return_eq e
        (ResultType.words_le a.func.returnTy) (by rw [hfp, framed.link, hlink])
        (hfp ▸ framed.pc) (by omega) (by omega) (by omega) (by omega) hreturns
      have hstart : a.fp - link.parameterSize.toNat = 0 := by omega
      rw [if_pos pc, hlength, hfp, hstart] at hrun
      rw [hfp, hstart] at hreturned has
      refine ⟨words, as, hlow, hreturned, fun i hi => ?_, ?_⟩
      · have := has i hi
        exact ⟨show a.low ≤ i by omega, show i + 1 ≤ a.high by omega⟩
      · rw [hrun]
        simp only [returned, Nat.sub_self]

end Engine.Within

theorem Engine.Within.matches (hw : e.Within s code a rest h) (hm : e.Matches e') :
    e'.Within s code a rest h where
  chain := hw.chain.congr hm.length fun i hi => hm.words i (Nat.lt_of_lt_of_le hi hw.fp_le)
  module := hm.module.trans hw.module
  fp := hm.fp.trans hw.fp
  sp := hm.sp.trans hw.sp
  le := hw.le
  jumped := hm.jumped.trans hw.jumped

theorem Engine.Ready.matches (hr : e.Ready env code) (hm : e.Matches e') : e'.Ready env code where
  pages := hr.pages
  coded := hm.store ▸ hr.coded
  linked := hm.store ▸ hr.linked
  coherent := by
    rw [show e'.context = e.context from (congrArg Engine.context hm.beside :)]
    exact hr.coherent
  host := hm.store ▸ hr.host
  small := hm.length ▸ hr.small
  pause := hm.pause.trans hr.pause

theorem Engine.Matches.returned (hm : e.Matches e') (fp sp : ℕ) (pc : JumpTarget) {dst n : ℕ}
    {words words' : List U32} (as as' : List ℕ)
    (h : Interpreter.Returned e.sp dst n e.stack.words words)
    (h' : Interpreter.Returned e'.sp dst n e'.stack.words words') (hle : dst + n ≤ e.sp)
    (hsp : sp ≤ dst + n) :
    (e.returned fp sp pc words as).Matches (e'.returned fp sp pc words' as') := by
  rw [hm.sp] at h'
  exact ⟨(congrArg (fun b : Engine η => { b with fp := fp, pc := pc, jumped := true }) hm.beside :),
    rfl, h'.same.length.trans (hm.length.trans h.same.length.symm), fun i hi =>
      h.agree h' hle hm.words i (Nat.lt_of_lt_of_le hi hsp)⟩

/-- A return, to the caller or out of the outermost activation. -/
theorem Engine.Within.returns (hw : e.Within e.store code a rest h) (hm : e.Matches e')
    (hr : e.Ready env code) (hle : a.func.returnTy.words ≤ h)
    (hsize : a.func.parameterSize ≤ 0xFF) :
    Executes safe d e.store code a rest e e' stop next
      (Interpreter.return_ a.func.returnTy.words >>= fun _ => pure next) := by
  have hstore := hm.store
  have hw' : e'.Within e'.store code a rest h := hstore.symm ▸ hw.matches hm
  have hsp := hw.sp
  have hhigh := hw.chain.high_le
  have hbase : a.base = a.fp + 2 + a.func.localSize := rfl
  have hhigh' : a.high = a.base + a.func.stackUsage := rfl
  have hlow : a.low ≤ a.fp := Nat.sub_le _ _
  have hwords := ResultType.words_le a.func.returnTy
  have hcovers : ∀ i, a.low ≤ i → i < a.low + a.func.returnTy.words → a.window.Covers i 1 :=
    fun i hle hlt => ⟨hle, show i + 1 ≤ a.high by omega⟩
  unfold Executes
  cases hrest : rest with
  | nil =>
      obtain ⟨words, as, hzero, hreturned, has, hrun⟩ := hw.finish_eq hle hsize hrest
      obtain ⟨words', as', -, hreturned', -, hrun'⟩ := hw'.finish_eq hle hsize hrest
      rw [bind_apply, bind_apply, hrun, hrun']
      refine .error (.finished e.sp rfl rfl rfl rfl rfl hr.pause rfl
        ⟨hreturned.same.length, fun i hi => ?_, as, rfl, has⟩ (by omega) (Nat.le_refl _)
        (Nat.le_add_right _ _) (fun i hi => ?_) ?_)
      · exact hreturned.same.word i (by
          by_contra hc
          exact hi (hcovers i (by omega) (by omega)))
      · have hcopy := hreturned.copy i hi
        rwa [Nat.zero_add] at hcopy
      · have hmatch := hm.returned 0 0 JumpTarget.sentinel as as' hreturned hreturned' (by omega)
            (Nat.zero_le _)
        refine ⟨?_, rfl, hmatch.length, hmatch.words⟩
        have hvalue : Interpreter.wordsValue words' 0 a.func.returnTy.words =
            Interpreter.wordsValue words 0 a.func.returnTy.words := by
          rw [hm.sp] at hreturned'
          exact Interpreter.wordsValue_congr hwords
            (hreturned.agree hreturned' (by omega) hm.words)
        rw [hvalue]
        exact congrArg (fun b : Engine η => { b with
          result := some (Interpreter.wordsValue words 0 a.func.returnTy.words) }) hmatch.beside
  | cons c rest' =>
      obtain ⟨mem, table, words, as, hmem, htable, hreturned, has, hrun⟩ :=
        hw.return_eq hle hsize hr hrest
      obtain ⟨mem', table', words', as', hmem', htable', hreturned', -, hrun'⟩ :=
        hw'.return_eq hle hsize (hr.matches hm) hrest
      rw [hstore, hmem] at hmem'
      rw [hstore, htable] at htable'
      cases hmem'
      cases htable'
      rw [bind_apply, bind_apply, hrun, hrun']
      have hchain := hw.chain
      rw [hrest] at hchain
      cases hchain with
      | @called _ _ _ h' framed fp pc returns chain =>
          have hstart : a.low = c.base + h' := by rw [Activation.low, fp, Nat.add_sub_cancel]
          have hcbase : c.base = c.fp + 2 + c.func.localSize := rfl
          refine .ok ⟨rfl, .leaves (c := c) (h := h' + a.func.returnTy.words) e.sp rfl
            ?_ rfl rfl ⟨hreturned.same.length, fun i hi => ?_, as, rfl, has⟩ (by omega)
            (Nat.le_refl _) (Nat.le_add_right _ _) hreturned.copy, hr.pause, ?_⟩
          · refine ⟨returns, chain.congr hreturned.same.length fun i hi => ?_, rfl, rfl, ?_, ?_,
              rfl⟩
            · exact hreturned.same.word i (.inl (by omega))
            · change c.base ≤ a.low + a.func.returnTy.words
              omega
            · change a.low + a.func.returnTy.words + e.pendingWords = _
              rw [pendingWords, hr.pause, Option.elim_none]
              omega
          · exact hreturned.same.word i (by
              by_contra hc
              exact hi (hcovers i (by omega) (by omega)))
          · exact (hm.inModule c.module mem table).returned _ _ _ _ _ hreturned hreturned' (by
              change _ ≤ e.sp
              omega) (Nat.le_refl _)

end SpaceWasm
