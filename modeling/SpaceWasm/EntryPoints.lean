import SpaceWasm.Rounds

/-!
# The entry points

`invoke` writes the arguments over an empty stack and calls the function; the words that
earlier executions have left do not matter. `resume` pushes the result that a host
function still owes.
-/

namespace SpaceWasm

open Fallible

variable {η ε : Type} {code : CodeBuilder} {env : ExecEnv η} {e e' : Engine η}

/-! ### Values on a stack -/

/-- The words after a value has been pushed at `sp`. -/
def Value.put (v : Value) (sp : ℕ) (words : List U32) : List U32 :=
  match v with
  | .i32 w | .f32 w => words.set sp w
  | .i64 w | .f64 w => (words.set sp (lowWord w)).set (sp + 1) (highWord w)

/-- The words after values have been pushed from `sp` on. -/
def putValues : List Value → ℕ → List U32 → List U32
  | [], _, words => words
  | v :: vs, sp, words => putValues vs (sp + v.type.words) (v.put sp words)

section Put

variable {words words' : List U32} {sp : ℕ}

theorem Value.put_same (v : Value) (sp : ℕ) (words : List U32) :
    SameOutside sp (sp + v.type.words) words (v.put sp words) := by
  cases v with
  | i32 w | f32 w => exact .set (Nat.le_refl _) (Nat.lt_succ_self _) w
  | i64 w | f64 w =>
      exact (SameOutside.set (Nat.le_refl _) (Nat.lt_add_of_pos_right Nat.zero_lt_two) _).trans
        (.set (Nat.le_succ _) (Nat.lt_succ_self _) _)

/-- A value is the same over any words. -/
theorem Value.put_agree (v : Value) (h : sp + v.type.words ≤ words.length)
    (hlength : words'.length = words.length) (hwords : ∀ i < sp, words'[i]? = words[i]?) :
    ∀ i < sp + v.type.words, (v.put sp words')[i]? = (v.put sp words)[i]? := by
  intro i hi
  by_cases hlt : i < sp
  · rw [(v.put_same sp words').word i (.inl hlt), (v.put_same sp words).word i (.inl hlt),
      hwords i hlt]
  · cases v with
    | i32 w | f32 w =>
        simp only [Value.type, ValType.words] at h hi
        obtain rfl : i = sp := by omega
        simp only [Value.put]
        rw [List.getElem?_set_self (by omega), List.getElem?_set_self (by omega)]
    | i64 w | f64 w =>
        simp only [Value.type, ValType.words] at h hi
        simp only [Value.put]
        obtain rfl | rfl : i = sp ∨ i = sp + 1 := by omega
        · rw [List.getElem?_set_ne (Nat.succ_ne_self i), List.getElem?_set_ne (Nat.succ_ne_self i),
            List.getElem?_set_self (by omega), List.getElem?_set_self (by omega)]
        · rw [List.getElem?_set_self (by rw [List.length_set]; omega),
            List.getElem?_set_self (by rw [List.length_set]; omega)]

theorem putValues_same (vs : List Value) (sp : ℕ) (words : List U32) :
    SameOutside sp (sp + wordsOf (vs.map Value.type)) words (putValues vs sp words) := by
  induction vs generalizing sp words with
  | nil => exact .refl _ _ _
  | cons v vs ih =>
      rw [List.map_cons, wordsOf_cons, putValues]
      exact ((v.put_same sp words).mono (Nat.le_refl _) (by omega)).trans
        ((ih _ _).mono (by omega) (by omega))

theorem putValues_agree (vs : List Value) (h : sp + wordsOf (vs.map Value.type) ≤ words.length)
    (hlength : words'.length = words.length) (hwords : ∀ i < sp, words'[i]? = words[i]?) :
    ∀ i < sp + wordsOf (vs.map Value.type),
      (putValues vs sp words')[i]? = (putValues vs sp words)[i]? := by
  induction vs generalizing sp words words' with
  | nil => exact hwords
  | cons v vs ih =>
      rw [List.map_cons, wordsOf_cons] at h ⊢
      rw [putValues, putValues, ← Nat.add_assoc]
      have hput := (v.put_same sp words).length
      have hput' := (v.put_same sp words').length
      exact ih (by omega) (by omega) (v.put_agree (by omega) hlength hwords)

end Put

theorem pushValue_withStack (e : Engine η) (v : Value) {sp : ℕ} {words : List U32}
    (touched : List ℕ) (h : sp + v.type.words ≤ words.length) :
    ∃ as, (∀ i ∈ as, sp ≤ i ∧ i < sp + v.type.words) ∧
      pushValue v (e.withStack sp words touched) =
        .ok () (e.withStack (sp + v.type.words) (v.put sp words) (as ++ touched)) := by
  unfold pushValue
  rw [bind_of_ok (get_apply _)]
  cases v with
  | i32 w | f32 w =>
      refine ⟨[sp], by simp [Value.type, ValType.words], ?_⟩
      exact (bind_of_ok (writeWord_withStack e touched w h)).trans rfl
  | i64 w | f64 w =>
      refine ⟨[sp + 1, sp], by simp [Value.type, ValType.words], ?_⟩
      exact (bind_of_ok (writeDouble_withStack e touched w h)).trans rfl

theorem stepping_of_ok {α : Type} {x : ExecM η α} {v : α} {t : Engine η} (h : x e = .ok v t) :
    (stepping x : EntryM η ε α) e = .ok v t := by
  unfold stepping
  rw [h]

/-- Arguments of the right types are written one above the other. -/
theorem pushParams_ok (e : Engine η) {vs : List Value} {sp : ℕ} {words : List U32}
    (touched : List ℕ) (h : sp + wordsOf (vs.map Value.type) ≤ words.length) :
    ∃ as, pushParams (vs.map Value.type) vs (e.withStack sp words touched) =
      .ok () (e.withStack (sp + wordsOf (vs.map Value.type)) (putValues vs sp words)
        (as ++ touched)) := by
  induction vs generalizing sp words touched with
  | nil => exact ⟨[], rfl⟩
  | cons v vs ih =>
      rw [List.map_cons, wordsOf_cons] at h ⊢
      obtain ⟨as, -, hpush⟩ := pushValue_withStack e v touched
        (show sp + v.type.words ≤ words.length by omega)
      obtain ⟨as', hrest⟩ := ih (as ++ touched)
        (show sp + v.type.words + _ ≤ (v.put sp words).length by
          rw [(v.put_same sp words).length]; omega)
      refine ⟨as' ++ as, ?_⟩
      rw [pushParams, if_pos rfl, bind_of_ok (stepping_of_ok hpush), hrest, putValues,
        List.append_assoc, Nat.add_assoc]

/-- An argument of a wrong type empties the stack again. -/
theorem pushParams_error (e : Engine η) {tys : List ValType} {vs : List Value} {sp : ℕ}
    {words : List U32} (touched : List ℕ) (hlength : tys.length = vs.length)
    (hne : vs.map Value.type ≠ tys) (h : sp + wordsOf tys ≤ words.length) :
    ∃ words' touched', words'.length = words.length ∧
      pushParams tys vs (e.withStack sp words touched) =
        .error .paramTypeMismatch (e.withStack 0 words' touched') := by
  induction vs generalizing tys sp words touched with
  | nil =>
      rw [List.length_eq_zero_iff.1 hlength] at hne
      exact absurd rfl hne
  | cons v vs ih =>
      rcases tys with _ | ⟨ty, tys⟩
      · cases hlength
      · rw [wordsOf_cons] at h
        rw [pushParams]
        by_cases hty : v.type = ty
        · subst hty
          obtain ⟨as, -, hpush⟩ := pushValue_withStack e v touched
            (show sp + v.type.words ≤ words.length by omega)
          obtain ⟨words', touched', hlength', hrest⟩ := ih (as ++ touched) (Nat.succ.inj hlength)
            (fun heq => hne (by rw [List.map_cons, heq]))
            (show sp + v.type.words + _ ≤ (v.put sp words).length by
              rw [(v.put_same sp words).length]; omega)
          refine ⟨words', touched', hlength'.trans (v.put_same sp words).length, ?_⟩
          rw [if_pos rfl, bind_of_ok (stepping_of_ok hpush), hrest]
        · rw [if_neg hty]
          exact ⟨words, touched, rfl, rfl⟩

/-! ### Invocation -/

theorem sum_size_div (ts : List ValType) : (ts.map fun t => t.size / 4).sum = wordsOf ts := by
  rw [wordsOf]
  congr 1
  refine List.map_congr_left fun t _ => ?_
  cases t <;> rfl

/-- The reason to reject a call of a function with the type `ty` on an empty stack. -/
def Func.rejection (f : Func) (ty : FuncType) (params : List Value) (stackSize : ℕ) :
    Option InvokeError :=
  if ty.params.length ≠ params.length then some .paramLenMismatch
  else if stackSize < wordsOf ty.params + f.requiredStackWords then some .stackOverflow
  else if params.map Value.type ≠ ty.params then some .paramTypeMismatch
  else none

/-- A running engine rejects every call. -/
theorem invoke_busy (h : e.pc ≠ JumpTarget.sentinel) (f : WasmRef) (params : List Value) :
    invoke f params e = .error .busy e := by
  unfold invoke
  rw [bind_of_ok (get_apply e), if_pos (.inl h)]
  rfl

/-- Only a call of a function that exists ends. -/
theorem invoke_exists (hrest : e.Rests) {f : WasmRef} {params : List Value}
    (h : invoke f params e ≠ .panic) :
    ∃ m func ty, e.store.module? f.module = some m ∧ m.functions[f.index.toNat]? = some func ∧
      m.types[func.ty]? = some ty := by
  unfold invoke at h
  rw [bind_of_ok (get_apply e), if_neg (by simp [hrest.pc, hrest.sp, hrest.fp])] at h
  cases hmodule : e.store.module? f.module with
  | none =>
      rw [hmodule] at h
      exact absurd rfl h
  | some m =>
      rw [hmodule, unwrap_some, pure_bind] at h
      cases hfunc : m.functions[f.index.toNat]? with
      | none =>
          rw [hfunc] at h
          exact absurd rfl h
      | some func =>
          rw [hfunc, unwrap_some, pure_bind] at h
          cases htype : m.types[func.ty]? with
          | none =>
              rw [htype] at h
              exact absurd rfl h
          | some ty => exact ⟨m, func, ty, rfl, hfunc, htype⟩

section Invoke

variable {f : WasmRef} {params : List Value} {m : Module} {func : Func} {ty : FuncType}
  (hrest : e.Rests) (hmodule : e.store.module? f.module = some m)
  (hfunc : m.functions[f.index.toNat]? = some func) (htype : m.types[func.ty]? = some ty)

include hrest hmodule hfunc htype

/-- A resting engine that rejects a call still rests, with other words on its stack. -/
theorem invoke_error {err : InvokeError}
    (h : func.rejection ty params e.stack.words.length = some err) :
    ∃ words touched, words.length = e.stack.words.length ∧
      invoke f params e = .error err (e.withStack 0 words touched) := by
  have hself : e = e.withStack 0 e.stack.words e.stack.touched := by
    rw [← hrest.sp, Engine.withStack_self]
  have hstart : ∀ {x : EntryM η InvokeError Unit}, x = Fallible.throw err →
      ∃ words touched, words.length = e.stack.words.length ∧
        x e = .error err (e.withStack 0 words touched) := by
    rintro x rfl
    exact ⟨_, _, rfl, congrArg (Outcome.error err) hself⟩
  unfold invoke
  rw [bind_of_ok (get_apply e), if_neg (by simp [hrest.pc, hrest.sp, hrest.fp]), hmodule,
    unwrap_some, pure_bind, hfunc, unwrap_some, pure_bind, htype, unwrap_some, pure_bind,
    sum_size_div]
  unfold Func.rejection at h
  split at h
  · next hlength =>
    rw [if_pos hlength]
    exact hstart (congrArg _ (Option.some.inj h))
  · next hlength =>
    rw [if_neg hlength]
    split at h
    · next hroom =>
      rw [if_pos hroom]
      exact hstart (congrArg _ (Option.some.inj h))
    · next hroom =>
      rw [if_neg hroom]
      split at h
      · next hne =>
        cases h
        obtain ⟨words, touched, hwords, hrun⟩ := pushParams_error e e.stack.touched
          (Decidable.not_not.1 hlength) hne (show 0 + _ ≤ e.stack.words.length by
            have : func.requiredStackWords = func.stackUsage + 2 + func.localSize := rfl
            omega)
        rw [← hself] at hrun
        exact ⟨words, touched, hwords, bind_of_error hrun⟩
      · cases h

/-- The engine after a call with `n` words of arguments has been accepted. -/
def Engine.invoked (e : Engine η) (r : ModuleRef) (mem : MemRef) (table : TableRef) (f : Func)
    (n : ℕ) (words : List U32) (as : List ℕ) : Engine η :=
  { e with
    module := r, memory := mem, table := table, fp := n % 2 ^ 32, sp := n + (2 + f.localSize)
    pc := f.expr, jumped := false, result := none, stack := ⟨words, as⟩ }

/-- A call that is accepted enters the function, over the arguments. -/
theorem invoke_ok (h : func.rejection ty params e.stack.words.length = none) {mem : MemRef}
    {table : TableRef} (hmem : e.store.getMemory f.module = some mem)
    (htable : e.store.getTable f.module = some table) :
    ∃ words as, params.map Value.type = ty.params ∧
      wordsOf ty.params + func.requiredStackWords ≤ e.stack.words.length ∧
      Entered (wordsOf ty.params) func (func.linkWord (wordsOf ty.params) 0) JumpTarget.sentinel
        (putValues params 0 e.stack.words) words ∧
      invoke f params e =
        .ok () (e.invoked f.module mem table func (wordsOf ty.params) words as) := by
  have hself : e = e.withStack 0 e.stack.words e.stack.touched := by
    rw [← hrest.sp, Engine.withStack_self]
  unfold Func.rejection at h
  split at h
  · cases h
  · next hlength =>
    split at h
    · cases h
    · next hroom =>
      split at h
      · cases h
      · next htypes =>
        have htypes := Decidable.not_not.1 htypes
        have hroom := Nat.le_of_not_lt hroom
        have hrequired : func.requiredStackWords = func.stackUsage + 2 + func.localSize := rfl
        obtain ⟨as, hpush⟩ := pushParams_ok e e.stack.touched
          (show 0 + wordsOf (params.map Value.type) ≤ e.stack.words.length by rw [htypes]; omega)
        rw [htypes, Nat.zero_add, ← hself] at hpush
        have hwords := (putValues_same params 0 e.stack.words).length
        have hcallee : e.store.func? ⟨f.module, f.index⟩ = some func := by
          simp only [Store.func?, hmodule, Option.bind_eq_bind, Option.bind_some, hfunc]
        obtain ⟨words, as', hcall, he, -⟩ := callImpl_eq
          ((e.withStack (wordsOf ty.params) (putValues params 0 e.stack.words)
            (as ++ e.stack.touched)).inModule f.module mem table) 0 hcallee
          (show e.fp ≤ _ by rw [hrest.fp]; exact Nat.zero_le _)
          (show wordsOf ty.params + _ ≤ (putValues params 0 e.stack.words).length by
            rw [hwords]
            exact hroom)
        refine ⟨words, as' ++ (as ++ e.stack.touched), htypes, hroom, ?_, ?_⟩
        · change Entered (wordsOf ty.params) func (func.linkWord (wordsOf ty.params - e.fp) 0) e.pc
            _ _ at he
          rwa [hrest.fp, hrest.pc] at he
        · unfold invoke
          rw [bind_of_ok (get_apply e), if_neg (by simp [hrest.pc, hrest.sp, hrest.fp]), hmodule,
            unwrap_some, pure_bind, hfunc, unwrap_some, pure_bind, htype, unwrap_some, pure_bind,
            sum_size_div, if_neg hlength, if_neg (Nat.not_lt.2 hroom), bind_of_ok hpush,
            bind_of_ok (stepping_of_ok (enterModule_eq (e.withStack (wordsOf ty.params)
              (putValues params 0 e.stack.words) (as ++ e.stack.touched)) hmem htable))]
          exact (bind_of_ok (stepping_of_ok hcall)).trans rfl

end Invoke

/-! ### What the entry points leave -/

/-- A resting engine that has accepted a call runs the function. -/
theorem Engine.Rests.invoked_running {r : ModuleRef} {mem : MemRef} {table : TableRef} {m : Module}
    {f : Func} {ty : FuncType} {words words' : List U32} {as : List ℕ} (hrest : e.Rests)
    (hcoded : e.store.Coded code) (hmodule : e.store.module? r = some m) (hf : f ∈ m.functions)
    (hdecl : f.Declared m.types ty)
    (hroom : wordsOf ty.params + f.requiredStackWords ≤ e.stack.words.length)
    (hlength : words'.length = e.stack.words.length)
    (he : Entered (wordsOf ty.params) f (f.linkWord (wordsOf ty.params) 0) JumpTarget.sentinel
      words' words) :
    (e.invoked r mem table f (wordsOf ty.params) words as).Running e.store code
      ⟨r, f, wordsOf ty.params, JumpTarget.sentinel⟩ [] 0 := by
  obtain ⟨ctx, L, hL⟩ := (hcoded m (List.mem_of_getElem? hmodule)).coded f hf
  have hrequired : f.requiredStackWords = f.stackUsage + 2 + f.localSize := rfl
  have hsize := hdecl.parameterSize
  have hle := hdecl.parameterSize_le
  refine ⟨⟨m, ctx, L, L.base, ⟨hmodule, hf, hL⟩, hL.expr, hL.heighted.start⟩, .outermost
    ⟨?_, ?_, Nat.zero_le _, ?_, he.link, he.pc⟩ hsize.symm rfl, rfl, ?_, ?_, ?_, rfl⟩
  · change wordsOf ty.params + 2 + f.localSize + f.stackUsage ≤ words.length
    rw [he.same.length, hlength]
    omega
  · exact Nat.le_of_eq hsize
  · change wordsOf ty.params - 0 ≤ 0xFFFF
    omega
  · exact Nat.mod_eq_of_lt (show wordsOf ty.params < 2 ^ 32 by omega)
  · exact Nat.le_of_eq (Nat.add_assoc _ _ _)
  · rw [Engine.pendingWords, show (e.invoked r mem table f (wordsOf ty.params) words
      as).hostPauseResult = none from hrest.pause]
    exact (Nat.add_assoc _ _ _).symm

/-! ### Resumption -/

/-- The engine after a result has been accepted. -/
def Engine.resumed (e : Engine η) (v : Option Value) (as : List ℕ) : Engine η :=
  { e with
    hostPauseResult := none, sp := e.sp + ResultType.words (v.map Value.type)
    stack := ⟨v.elim e.stack.words fun v => v.put e.sp e.stack.words, as ++ e.stack.touched⟩ }

theorem resume_notPaused (h : e.hostPauseResult = none) (v : Option Value) :
    resume v e = .error .notPaused e := by
  unfold resume
  rw [bind_of_ok (get_apply e), h]
  rfl

theorem resume_mismatch {ret : ResultType} {v : Option Value} (h : e.hostPauseResult = some ret)
    (hv : v.map Value.type ≠ ret) : resume v e = .error .resultTypeMismatch e := by
  unfold resume
  rw [bind_of_ok (get_apply e), h]
  exact congrFun (if_neg hv) e

/-- A result of the right type is pushed once. -/
theorem resume_ok {ret : ResultType} {v : Option Value} (h : e.hostPauseResult = some ret)
    (hv : v.map Value.type = ret) (hroom : e.sp + ret.words ≤ e.stack.words.length) :
    ∃ as, (∀ i ∈ as, e.sp ≤ i ∧ i < e.sp + ret.words) ∧
      resume v e = .ok () (e.resumed v as) := by
  unfold resume
  rw [bind_of_ok (get_apply e), h]
  dsimp only
  rw [if_pos hv]
  rw [bind_of_ok (modify_apply _ _)]
  subst hv
  cases v with
  | none => exact ⟨[], by simp, rfl⟩
  | some v =>
      obtain ⟨as, has, hpush⟩ := pushValue_withStack { e with hostPauseResult := none } v
        e.stack.touched (show e.sp + v.type.words ≤ e.stack.words.length from hroom)
      exact ⟨as, has, stepping_of_ok hpush⟩

theorem Engine.resumed_words (e : Engine η) (v : Option Value) (as : List ℕ) :
    SameOutside e.sp (e.sp + ResultType.words (v.map Value.type)) e.stack.words
      (e.resumed v as).stack.words := by
  cases v with
  | none => exact .refl _ _ _
  | some v => exact v.put_same e.sp e.stack.words

theorem Engine.Running.resumed {s : Store} {a : Activation} {rest : List Activation} {h : ℕ}
    {ret : ResultType} {v : Option Value} (hrun : e.Running s code a rest h)
    (hp : e.hostPauseResult = some ret) (hv : v.map Value.type = ret) (as : List ℕ) :
    (e.resumed v as).Running s code a rest h := by
  have hwords := e.resumed_words v as
  have hbase : a.base = a.fp + 2 + a.func.localSize := rfl
  have hle := hrun.base_le
  have hsp := hrun.sp
  rw [Engine.pendingWords, hp, Option.elim_some, ← hv] at hsp
  refine ⟨hrun.at_, hrun.chain.congr hwords.length fun i hi => hwords.word i (.inl (by omega)),
    hrun.module, hrun.fp, ?_, hsp, hrun.jumped⟩
  exact Nat.le_trans hle (Nat.le_add_right _ _)

/-- Two engines that differ in stale words take the same result. -/
theorem Engine.Matches.resumed (hm : e.Matches e') {v : Option Value}
    (hroom : e.sp + ResultType.words (v.map Value.type) ≤ e.stack.words.length)
    (as as' : List ℕ) : (e.resumed v as).Matches (e'.resumed v as') := by
  have hwords := e.resumed_words v as
  have hwords' := e'.resumed_words v as'
  refine ⟨(congrArg (fun b : Engine η => { b with hostPauseResult := none }) hm.beside :), ?_,
    hwords'.length.trans (hm.length.trans hwords.length.symm), fun i hi => ?_⟩
  · exact congrArg (· + ResultType.words (v.map Value.type)) hm.sp
  · cases v with
    | none => exact hm.words i hi
    | some v =>
        have hagree := v.put_agree (show e.sp + _ ≤ _ from hroom) hm.length hm.words i hi
        simp only [Engine.resumed, Option.elim_some, hm.sp]
        exact hagree

end SpaceWasm
