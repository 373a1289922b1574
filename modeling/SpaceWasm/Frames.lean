import SpaceWasm.Jumps

/-!
# Entering and leaving a frame

A call writes the two link words and zeros above the operands of the caller; what was
there before does not matter. A return reads the link words and copies the results down
to the place of the first argument, from the bottom up.
-/

namespace SpaceWasm

open Fallible

variable {η : Type}

/-- The words `words'` are `words` up to those from `a` up to `b`. -/
structure SameOutside (a b : ℕ) (words words' : List U32) : Prop where
  length : words'.length = words.length
  word : ∀ i, i < a ∨ b ≤ i → words'[i]? = words[i]?

theorem SameOutside.refl (a b : ℕ) (words : List U32) : SameOutside a b words words :=
  ⟨rfl, fun _ _ => rfl⟩

theorem SameOutside.set {a b i : ℕ} {l : List U32} (ha : a ≤ i) (hb : i < b) (v : U32) :
    SameOutside a b l (l.set i v) :=
  ⟨List.length_set, fun _ hj => List.getElem?_set_ne (by omega)⟩

theorem SameOutside.mono {a b a' b' : ℕ} {words words' : List U32}
    (h : SameOutside a b words words')
    (ha : a' ≤ a) (hb : b ≤ b') : SameOutside a' b' words words' :=
  ⟨h.length, fun i hi => h.word i (by omega)⟩

theorem SameOutside.trans {a b : ℕ} {words words' words'' : List U32}
    (h : SameOutside a b words words') (h' : SameOutside a b words' words'') :
    SameOutside a b words words'' :=
  ⟨h'.length.trans h.length, fun i hi => (h'.word i hi).trans (h.word i hi)⟩

/-! ### Zeroing and copying -/

/-- The local variables are zero afterwards. -/
theorem zeroLocals_eq (e : Engine η) {n a : ℕ} (h : a + n ≤ e.stack.words.length) :
    ∃ words as, zeroLocals n a e =
        .ok () { e with stack := ⟨words, as ++ e.stack.touched⟩ } ∧
      SameOutside a (a + n) e.stack.words words ∧ (∀ i, a ≤ i → i < a + n → words[i]? = some 0) ∧
        ∀ i ∈ as, a ≤ i ∧ i < a + n := by
  induction n generalizing a e with
  | zero => exact ⟨e.stack.words, [], rfl, .refl _ _ _, fun i hi hlt => by omega, nofun⟩
  | succ n ih =>
      have hwrite := writeWord_withStack e (s := e.sp) e.stack.touched 0
        (show a < e.stack.words.length by omega)
      obtain ⟨words, as, hrun, hsame, hzero, has⟩ := ih
        (e.withStack e.sp (e.stack.words.set a 0) (a :: e.stack.touched)) (a := a + 1)
        (by simp only [Engine.withStack, List.length_set]; omega)
      have hset := (SameOutside.set (l := e.stack.words) (Nat.le_refl a)
        (show a < a + (n + 1) by omega) 0).trans (hsame.mono (by omega) (by omega))
      refine ⟨words, as ++ [a], ?_, hset, fun i hi hlt => ?_, fun i hi => ?_⟩
      · rw [zeroLocals, ← Engine.withStack_self e, bind_of_ok hwrite, hrun]
        simp [Engine.withStack]
      · by_cases heq : i = a
        · rw [heq, hsame.word a (by omega)]
          exact List.getElem?_set_self (by omega)
        · exact hzero i (by omega) (by omega)
      · rcases List.mem_append.1 hi with hi | hi
        · have := has i hi
          omega
        · rw [List.mem_singleton.1 hi]
          omega

namespace Interpreter

/-- Words copied down are what they were above. -/
theorem copyWords_eq (e : Engine η) (n src dst : ℕ) (hle : dst ≤ src)
    (h : src + n ≤ e.stack.words.length) :
    ∃ words as, copyWords n src dst e =
        .ok () { e with stack := ⟨words, as ++ e.stack.touched⟩ } ∧
      SameOutside dst (dst + n) e.stack.words words ∧
        (∀ i < n, words[dst + i]? = e.stack.words[src + i]?) ∧ ∀ i ∈ as, dst ≤ i ∧ i < src + n := by
  induction n generalizing e src dst with
  | zero =>
      exact ⟨e.stack.words, [], rfl, .refl _ _ _, fun i hi => absurd hi (Nat.not_lt_zero i), nofun⟩
  | succ n ih =>
      obtain ⟨v, hv⟩ : ∃ v, e.stack.words[src]? = some v :=
        ⟨_, List.getElem?_eq_getElem (by omega)⟩
      have hread := readWord_withStack e (s := e.sp) e.stack.touched hv
      have hwrite := writeWord_withStack e (s := e.sp) (src :: e.stack.touched) v
        (show dst < e.stack.words.length by omega)
      obtain ⟨words, as, hrun, hsame, hcopy, has⟩ := ih
        (e.withStack e.sp (e.stack.words.set dst v) (dst :: src :: e.stack.touched))
        (src + 1) (dst + 1) (by omega)
        (by simp only [Engine.withStack, List.length_set]; omega)
      have hset := (SameOutside.set (l := e.stack.words) (Nat.le_refl dst)
        (show dst < dst + (n + 1) by omega) v).trans (hsame.mono (by omega) (by omega))
      refine ⟨words, as ++ [dst, src], ?_, hset, fun i hi => ?_, fun i hi => ?_⟩
      · rw [copyWords, ← Engine.withStack_self e, bind_of_ok hread, bind_of_ok hwrite, hrun]
        simp [Engine.withStack]
      · cases i with
        | zero =>
            rw [Nat.add_zero, Nat.add_zero, hsame.word dst (by omega), hv]
            exact List.getElem?_set_self (by omega)
        | succ i =>
            have hi := hcopy i (by omega)
            rw [show dst + 1 + i = dst + (i + 1) by omega,
              show src + 1 + i = src + (i + 1) by omega]
              at hi
            rw [hi]
            exact List.getElem?_set_ne (by omega)
      · rcases List.mem_append.1 hi with hi | hi
        · have := has i hi
          omega
        · simp only [List.mem_cons, List.not_mem_nil, or_false] at hi
          omega

end Interpreter

/-! ### Calls -/

/-- The words of a stack after a call of `f`, with `link` in the first link word and `pc` in
the second one. -/
structure Entered (sp : ℕ) (f : Func) (link pc : U32) (words words' : List U32) : Prop where
  same : SameOutside sp (sp + 2 + f.localSize) words words'
  link : words'[sp]? = some link
  pc : words'[sp + 1]? = some pc
  zero : ∀ i, sp + 2 ≤ i → i < sp + 2 + f.localSize → words'[i]? = some 0

/-- Two frames entered over the same words are the same. -/
theorem Entered.agree {sp : ℕ} {f : Func} {link pc : U32} {words words' w w' : List U32}
    (h : Entered sp f link pc words w) (h' : Entered sp f link pc words' w')
    (hwords : ∀ i < sp, words'[i]? = words[i]?) : ∀ i < sp + (2 + f.localSize), w'[i]? = w[i]? := by
  intro i hi
  by_cases hlt : i < sp
  · rw [h.same.word i (.inl hlt), h'.same.word i (.inl hlt), hwords i hlt]
  · obtain rfl | rfl | hle : i = sp ∨ i = sp + 1 ∨ sp + 2 ≤ i := by omega
    · rw [h.link, h'.link]
    · rw [h.pc, h'.pc]
    · rw [h.zero i hle (by omega), h'.zero i hle (by omega)]

/-- The first link word of a call. -/
def Func.linkWord (f : Func) (frameLength : ℕ) (moduleDelta : U8) : U32 :=
  CallFrame.intoBits ⟨BitVec.ofNat 16 frameLength, moduleDelta, BitVec.ofNat 8 f.parameterSize⟩

theorem callImpl_eq (e : Engine η) (delta : U8) {index : U16} {f : Func}
    (hf : e.store.func? ⟨e.module, index⟩ = some f) (hfp : e.fp ≤ e.sp)
    (hroom : e.sp + f.requiredStackWords ≤ e.stack.words.length) :
    ∃ words as, callImpl delta index e = .ok () { e with
        fp := e.sp % 2 ^ 32, sp := e.sp + (2 + f.localSize), pc := f.expr, jumped := true
        stack := ⟨words, as ++ e.stack.touched⟩ } ∧
      Entered e.sp f (f.linkWord (e.sp - e.fp) delta) e.pc e.stack.words words ∧
        ∀ i ∈ as, e.sp ≤ i ∧ i < e.sp + 2 + f.localSize := by
  have hrequired : f.requiredStackWords = f.stackUsage + 2 + f.localSize := rfl
  have hframe := spBelow_withStack e (s := e.sp) e.stack.touched (l := e.stack.words) hfp
  have hlink := writeWord_withStack e (s := e.sp) e.stack.touched
    (f.linkWord (e.sp - e.fp) delta) (show e.sp < e.stack.words.length by omega)
  rw [Engine.withStack_self] at hframe hlink
  have hpc := writeWord_withStack e (s := e.sp) (e.sp :: e.stack.touched)
    (l := e.stack.words.set e.sp (f.linkWord (e.sp - e.fp) delta)) e.pc
    (show e.sp + 1 < _ by rw [List.length_set]; omega)
  obtain ⟨words, as, hrun, hsame, hzero, has⟩ := zeroLocals_eq (n := f.localSize) (a := e.sp + 2)
    { e with
      fp := e.sp % 2 ^ 32
      stack := ⟨(e.stack.words.set e.sp (f.linkWord (e.sp - e.fp) delta)).set (e.sp + 1) e.pc,
        (e.sp + 1) :: e.sp :: e.stack.touched⟩ }
    (by simp only [List.length_set]; omega)
  refine ⟨words, as ++ [e.sp + 1, e.sp], ?_, ⟨?_, ?_, ?_, hzero⟩, fun i hi => ?_⟩
  · unfold callImpl
    rw [bind_of_ok (get_apply e), hf, unwrap_some, pure_bind, if_neg (Nat.not_lt.2 hroom),
      bind_of_ok hframe,
      bind_of_ok (show writeWord e.sp (CallFrame.intoBits ⟨_, _, _⟩) e = _ from hlink),
      bind_of_ok hpc, bind_of_ok (modify_apply _ _)]
    refine (bind_of_ok hrun).trans ?_
    simp
  · refine ((SameOutside.set (Nat.le_refl _) (by omega) _).trans
      (SameOutside.set (by omega) (by omega) _)).trans (hsame.mono (by omega) (by omega))
  · rw [hsame.word _ (by omega)]
    simp only
    rw [List.getElem?_set_ne (by omega), List.getElem?_set_self (by omega)]
  · rw [hsame.word _ (by omega)]
    simp only
    rw [List.getElem?_set_self (by rw [List.length_set]; omega)]
  · rcases List.mem_append.1 hi with hi | hi
    · have := has i hi
      omega
    · simp only [List.mem_cons, List.not_mem_nil, or_false] at hi
      omega

theorem callImpl_overflow (e : Engine η) (delta : U8) {index : U16} {f : Func}
    (hf : e.store.func? ⟨e.module, index⟩ = some f)
    (hroom : e.stack.words.length < e.sp + f.requiredStackWords) :
    callImpl delta index e = .error (.trap .stackOverflow) e := by
  unfold callImpl
  rw [bind_of_ok (get_apply e), hf, unwrap_some, pure_bind, if_pos hroom]
  rfl

theorem enterModule_eq (e : Engine η) {r : ModuleRef} {mem : MemRef} {table : TableRef}
    (hmem : e.store.getMemory r = some mem) (htable : e.store.getTable r = some table) :
    enterModule r e = .ok () { e with module := r, memory := mem, table := table } := by
  unfold enterModule
  rw [bind_of_ok (get_apply e), hmem, unwrap_some, pure_bind, htable, unwrap_some, pure_bind]
  rfl

/-! ### Returns -/

namespace Interpreter

/-- The value of the words at an address. -/
def wordsValue (words : List U32) (a : ℕ) : ℕ → RawValue
  | 0 => .from64 0
  | 1 => .from32 (words.getD a 0)
  | _ => .from64 ((words.getD a 0).setWidth 64 ||| ((words.getD (a + 1) 0).setWidth 64 <<< 32))

theorem readResult_eq (e : Engine η) {n : ℕ} (hn : n ≤ 2) (h : e.sp + n ≤ e.stack.words.length) :
    ∃ as, readResult n e = .ok (wordsValue e.stack.words e.sp n)
        { e with stack := ⟨e.stack.words, as ++ e.stack.touched⟩ } ∧
      ∀ i ∈ as, e.sp ≤ i ∧ i < e.sp + n := by
  have hword : ∀ a, a < e.stack.words.length →
      e.stack.words[a]? = some (e.stack.words.getD a 0) := by
    intro a ha
    rw [List.getD_eq_getElem _ _ ha, List.getElem?_eq_getElem ha]
  unfold readResult
  rw [bind_of_ok (get_apply e)]
  obtain rfl | rfl | rfl : n = 0 ∨ n = 1 ∨ n = 2 := by omega
  · exact ⟨[], rfl, nofun⟩
  · have hread := readWord_withStack e (s := e.sp) e.stack.touched (hword e.sp (by omega))
    rw [Engine.withStack_self] at hread
    refine ⟨[e.sp], ?_, by simp⟩
    simp only [map_eq_pure_bind]
    rw [bind_of_ok hread]
    rfl
  · have hread := readDouble_withStack e (s := e.sp) e.stack.touched (hword e.sp (by omega))
      (hword (e.sp + 1) (by omega))
    rw [Engine.withStack_self] at hread
    refine ⟨[e.sp + 1, e.sp], ?_, by simp⟩
    simp only [map_eq_pure_bind]
    rw [bind_of_ok hread]
    rfl

/-- What a return makes the current module, and with it the memory and the table. -/
def ReturnsTo (e : Engine η) (delta : U8) (r : ModuleRef) (mem : MemRef) (table : TableRef) :
    Prop :=
  delta = 0 ∧ r = e.module ∧ mem = e.memory ∧ table = e.table ∨
    delta ≠ 0 ∧ r = e.module - delta ∧ e.store.getMemory r = some mem ∧
      e.store.getTable r = some table

/-- The words of a stack after a return of the `n` words below `sp` to `dst`. -/
structure Returned (sp dst n : ℕ) (words words' : List U32) : Prop where
  same : SameOutside dst (dst + n) words words'
  copy : ∀ i < n, words'[dst + i]? = words[sp - n + i]?

theorem return_eq (e : Engine η) {n : ℕ} {c : CallFrame} {pc : U32} {r : ModuleRef} {mem : MemRef}
    {table : TableRef} (hn : n ≤ 2) (hlink : e.stack.words[e.fp]? = some c.intoBits)
    (hpc : e.stack.words[e.fp + 1]? = some pc) (hlength : c.frameLength.toNat ≤ e.fp)
    (hsize : c.parameterSize.toNat ≤ e.fp) (hle : e.fp - c.parameterSize.toNat + n ≤ e.sp)
    (hsp : e.sp ≤ e.stack.words.length) (hr : ReturnsTo e c.moduleDelta r mem table) :
    ∃ words as, Returned e.sp (e.fp - c.parameterSize.toNat) n e.stack.words words ∧
      (∀ i ∈ as, e.fp - c.parameterSize.toNat ≤ i ∧ i < max e.sp (e.fp + 2)) ∧
      return_ n e = if pc = JumpTarget.sentinel then .error .finished { e with
          fp := e.fp - c.frameLength.toNat, module := r, memory := mem, table := table
          sp := e.fp - c.parameterSize.toNat, pc := JumpTarget.sentinel, jumped := true
          result := some (wordsValue words (e.fp - c.parameterSize.toNat) n)
          stack := ⟨words, as ++ e.stack.touched⟩ }
        else .ok () { e with
          fp := e.fp - c.frameLength.toNat, module := r, memory := mem, table := table
          sp := e.fp - c.parameterSize.toNat + n, pc := pc + 2, jumped := true
          stack := ⟨words, as ++ e.stack.touched⟩ } := by
  have hreadPc := readWord_withStack e (s := e.sp) e.stack.touched hpc
  have hreadLink := readWord_withStack e (s := e.sp) ((e.fp + 1) :: e.stack.touched) hlink
  rw [Engine.withStack_self] at hreadPc
  have hsrc := spBelow_withStack e (s := e.sp) (l := e.stack.words)
    (e.fp :: (e.fp + 1) :: e.stack.touched) (show n ≤ e.sp by omega)
  obtain ⟨words, as, hcopy, hsame, hwords, has⟩ := copyWords_eq
    (e.withStack e.sp e.stack.words (e.fp :: (e.fp + 1) :: e.stack.touched)) n (e.sp - n)
    (e.fp - c.parameterSize.toNat) (by omega)
    (by simp only [Engine.withStack]; omega)
  have hbits : CallFrame.fromBits c.intoBits = c := CallFrame.fromBits_intoBits c
  have hwithin : ∀ i ∈ as ++ [e.fp, e.fp + 1],
      e.fp - c.parameterSize.toNat ≤ i ∧ i < max e.sp (e.fp + 2) := by
    intro i hi
    rcases List.mem_append.1 hi with hi | hi
    · have := has i hi
      omega
    · simp only [List.mem_cons, List.not_mem_nil, or_false] at hi
      omega
  obtain ⟨as', hresult, has'⟩ := readResult_eq (n := n) { e with
    fp := e.fp - c.frameLength.toNat, module := r, memory := mem, table := table
    sp := e.fp - c.parameterSize.toNat, pc := JumpTarget.sentinel, jumped := true
    stack := ⟨words, as ++ e.fp :: (e.fp + 1) :: e.stack.touched⟩ } hn (by
      have := hsame.length
      simp only [Engine.withStack] at this ⊢
      omega)
  refine ⟨words, (if pc = JumpTarget.sentinel then as' else []) ++ (as ++ [e.fp, e.fp + 1]),
    ⟨hsame, hwords⟩, fun i hi => ?_, ?_⟩
  · rcases List.mem_append.1 hi with hi | hi
    · split at hi
      · have := has' i hi
        simp only at this
        omega
      · cases hi
    · exact hwithin i hi
  · unfold return_
    rw [bind_of_ok (get_apply e)]
    dsimp only
    rw [bind_of_ok hreadPc, bind_of_ok hreadLink, hbits, assert_of hlength, pure_bind,
      assert_of hsize, pure_bind, bind_of_ok hsrc, bind_of_ok hcopy,
      bind_of_ok (modify_apply _ _)]
    rcases hr with ⟨hzero, rfl, rfl, rfl⟩ | ⟨hne, rfl, hmem, htable⟩
    · rw [if_neg (not_not.2 hzero)]
      by_cases hs : pc = JumpTarget.sentinel
      · rw [if_pos hs, if_pos hs, if_pos hs, bind_of_ok (modify_apply _ _)]
        refine (bind_of_ok hresult).trans ?_
        simp [bind_apply]
      · rw [if_neg hs, if_neg hs, if_neg hs]
        simp [Engine.withStack]
    · rw [if_pos hne, bind_of_ok (get_apply _)]
      refine (bind_of_ok (enterModule_eq { e with
        fp := e.fp - c.frameLength.toNat
        stack := ⟨words, as ++ e.fp :: (e.fp + 1) :: e.stack.touched⟩ } hmem htable)).trans ?_
      by_cases hs : pc = JumpTarget.sentinel
      · rw [if_pos hs, if_pos hs, if_pos hs, bind_of_ok (modify_apply _ _)]
        refine (bind_of_ok hresult).trans ?_
        simp [bind_apply]
      · rw [if_neg hs, if_neg hs, if_neg hs]
        simp

end Interpreter

end SpaceWasm
