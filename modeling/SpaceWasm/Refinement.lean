import SpaceWasm.AsmStep
import SpaceWasm.Lib.Simulation
import SpaceWasm.OpenBlocks

/-!
# The operations of the builder

Each operation of `TextBuilder` simulates the operation of the assembler of the
same meaning: it succeeds where the assembler does, up to the limits of the
implementation, and keeps the representation.
-/

namespace SpaceWasm

open Fallible TextBuilder

/-! ### The context -/

/-- The type of the function behind a reference of a module. -/
def Store.refFuncType? (s : Store) (m : Module) : Ref → Option FuncType
  | .module index => do
      let f ← m.functions[index.toNat]?
      m.types[f.ty]?
  | .host module index => do
      let hm ← s.hostModule? module
      let f ← hm.functions[index.toNat]?
      pure f.type
  | .extern_ module index => do
      let em ← s.module? module
      let f ← em.functions[index.toNat]?
      em.types[f.ty]?

/-- The global behind a reference of a module. -/
def Store.refGlobal? (s : Store) (m : Module) (ref : Ref) : Option GlobalVariable :=
  match ref with
  | .module index => do
      let g ← m.globals[index.toNat]?
      pure ⟨ref, g.type.ty, g.type.mutable⟩
  | .host module index => do
      let hm ← s.hostModule? module
      let g ← hm.globals[index.toNat]?
      pure ⟨ref, g.ty, g.mutable⟩
  | .extern_ module index => do
      let em ← s.module? module
      let g ← em.globals[index.toNat]?
      pure ⟨ref, g.type.ty, g.type.mutable⟩

/-- The references of a module designate symbols in the store. -/
structure Module.Linked (s : Store) (m : Module) : Prop where
  funcs : ∀ x r, m.getFuncRef x = some r → (s.refFuncType? m r).isSome
  globals : ∀ x r, m.getGlobalRef x = some r → (s.refGlobal? m r).isSome

/-- The local variable with an index, as `get_local` resolves it. -/
def localOf (m : Module) (f : Func) (x : Idx) : Option LocalVariable :=
  if 0xFFFF < x then none
  else do
    let signature ← m.types[f.ty]?
    match findVariable signature f x with
    | .ok l => some l
    | .error _ => none

namespace Job

/-- What the function body may refer to. -/
def context (job : Job) : Context := {
  types := job.module.types
  func? := fun x => do
    let r ← job.module.getFuncRef x
    let ty ← job.store.refFuncType? job.module r
    pure (r, ty)
  global? := fun x => do
    let r ← job.module.getGlobalRef x
    job.store.refGlobal? job.module r
  local? := localOf job.module job.func
  table := job.module.table.isSome
  memory := job.module.memory.isSome
  returnTy := job.func.returnTy }

end Job

variable {job : Job} {F D n m : ℕ} {p : List Cell} {α β : Type}

/-- Simulation between the builder and the assembler. -/
abbrev Job.Sim (job : Job) (R : TextBuilder F D → Asm → Prop) (x : TextM F D α) (y : AsmM β)
    (S : α → β → TextBuilder F D → Asm → Prop) : Prop :=
  Simulates ValidationError.IsLimit (fun s => job.Intact s.code)
    (job.module.Linked job.store) R x y S

/-! ### Words -/

/-- Push words. -/
def pushWords : List U16 → TextM F D Unit
  | [] => pure ()
  | w :: ws => do
      pushWord w
      pushWords ws

/-- What a failed write leaves of the code. -/
structure Grown (c c' : CodeBuilder) : Prop where
  size : c.size ≤ c'.size
  word : ∀ i < c.size, c'.word i = c.word i
  options : c'.options = c.options

theorem Grown.intact {c c' : CodeBuilder} (h : Grown c c') (hc : job.Intact c) : job.Intact c' := by
  refine ⟨Nat.le_trans hc.size h.size, fun i hi => ?_, ?_⟩
  · have := hc.size
    rw [h.word i (by omega), hc.word i hi]
  · rw [h.options, hc.options]

/-- Pushing words appends them to the code, or fails to allocate a page. -/
theorem pushWords_spec (ws : List U16) (s : TextBuilder F D) :
    match pushWords ws s with
    | .ok _ s' => ∃ c', s' = { s with code := c' } ∧ Appended ws s.code c'
    | .error e s' => e.IsLimit ∧ ∃ c', s' = { s with code := c' } ∧ Grown s.code c'
    | .panic => False
    | .diverge => False := by
  induction ws generalizing s with
  | nil =>
      refine ⟨s.code, rfl, ?_⟩
      exact ⟨rfl, rfl, fun _ _ => rfl, fun i w hw => by simp at hw⟩
  | cons w ws ih =>
      have hpush := CodeBuilder.push_spec w s.code
      rw [pushWords, bind_apply, pushWord, coding, zoom]
      rcases hc : CodeBuilder.push w s.code with ⟨_, c₁⟩ | ⟨e, c₁⟩ | _ | _ <;> rw [hc] at hpush
      · have hfirst := Appended.of_pushed hpush
        have hrest := ih { s with code := c₁ }
        simp only
        rcases hs : pushWords ws { s with code := c₁ } with ⟨_, s₂⟩ | ⟨e, s₂⟩ | _ | _ <;>
          rw [hs] at hrest
        · obtain ⟨c₂, rfl, hx⟩ := hrest
          exact ⟨c₂, rfl, hfirst.trans hx⟩
        · obtain ⟨he, c₂, rfl, hg⟩ := hrest
          refine ⟨he, c₂, rfl, ?_, fun i hi => ?_, ?_⟩
          · have := hg.size
            have := hfirst.size
            simp only at *
            omega
          · rw [hg.word i (by simp only [hfirst.size]; omega), hfirst.old i hi]
          · rw [hg.options, hfirst.options]
        · exact hrest
        · exact hrest
      · obtain ⟨⟨a, rfl⟩, hsame⟩ := hpush
        refine ⟨trivial, c₁, rfl, Nat.le_of_eq hsame.size.symm, fun i _ => ?_, hsame.options⟩
        rw [hsame.word]
      · exact hpush
      · exact hpush

theorem CheckInv.withCode {bs : List Block} {fs : List ControlFrame} {s : TextBuilder F D} {t : Asm}
    (h : CheckInv job bs fs s t) (c : CodeBuilder) : CheckInv job bs fs { s with code := c } t :=
  ⟨h.store, h.module, h.func, h.opds, h.highwater, h.brTableResult, h.types, h.blocks⟩

/-- Writing plain words. -/
theorem pushWords_sim (ws : List U16) :
    job.Sim (Rep job n p : TextBuilder F D → Asm → Prop) (pushWords ws) (pure () : AsmM Unit)
      fun _ _ => Rep job n (p ++ ws.map Cell.word) := by
  intro s t h
  have hspec := pushWords_spec ws s
  rcases hs : pushWords ws s with ⟨_, s'⟩ | ⟨e, s'⟩ | _ | _ <;> rw [hs] at hspec
  · obtain ⟨c', rfl, hx⟩ := hspec
    exact ⟨(), t, rfl, h.check.withCode c', h.code.append_words hx, h.depth⟩
  · obtain ⟨he, c', rfl, hg⟩ := hspec
    exact ⟨hg.intact h.intact, Or.inl he⟩
  · exact hspec.elim
  · exact hspec

theorem pushWord_eq (w : U16) : (pushWord w : TextM F D Unit) = pushWords [w] := by
  simp [pushWords]

theorem instr_eq (op : U8) : (instr op : TextM F D Unit) = pushWords [opWord op 0] := by
  rw [instr, pushWord_eq, opWord_zero]

theorem instrImm8_eq (op imm : U8) :
    (instrImm8 op imm : TextM F D Unit) = pushWords [opWord op imm] := by
  rw [instrImm8, pushWord_eq]

theorem pushWords_append (ws us : List U16) :
    (pushWords (ws ++ us) : TextM F D Unit) = (do pushWords ws; pushWords us) := by
  induction ws with
  | nil => simp [pushWords]
  | cons w ws ih =>
      rw [List.cons_append, pushWords, pushWords, ih, bind_assoc]

theorem write32_eq (i : U32) :
    (TextBuilder.write32 i : TextM F D Unit) = pushWords (words32 i) := by
  simp [TextBuilder.write32, words32, pushWords]

theorem write64_eq (i : U64) : (write64 i : TextM F D Unit) = pushWords (words64 i) := by
  simp [write64, words64, pushWords]

theorem instrImm8Or16_eq (op : U8) (idx : ℕ) :
    (instrImm8Or16 op idx : TextM F D Unit) =
      if 0xFFFF < idx then Fallible.throw ValidationError.idxTooLarge
      else pushWords (IrInstr.encodeIndex op idx) := by
  unfold instrImm8Or16 IrInstr.encodeIndex
  split
  · rfl
  · split
    · exact instrImm8_eq _ _
    · rw [instrImm8_eq, pushWord_eq, ← pushWords_append]
      rfl

/-! ### Operands -/

/-- The innermost block and its control frame. -/
theorem Rep.cons {s : TextBuilder F D} {t : Asm} (h : Rep job (m + 1) p s t) :
    ∃ b bs f fs, t.blocks = b :: bs ∧ s.controlFrames.toList = f :: fs ∧ SameTypes b f := by
  have htypes := h.check.types
  have hdepth := h.depth
  cases hb : t.blocks with
  | nil => rw [hb] at hdepth; cases hdepth
  | cons b bs =>
      cases hf : s.controlFrames.toList with
      | nil => rw [hb, hf] at htypes; cases htypes
      | cons f fs =>
          rw [hb, hf, List.forall₂_cons] at htypes
          exact ⟨b, bs, f, fs, rfl, rfl, htypes.1⟩

/-- A change of the operand stacks. -/
theorem Rep.withOpds {s : TextBuilder F D} {t : Asm} (h : Rep job n p s t)
    {v : StaticVec OperandType D} {opds : List OperandType} (hv : v.toList = opds)
    (hblocks : BlocksOk t.blocks opds.length) :
    Rep job n p { s with valueStack := v } { t with opds := opds } :=
  ⟨⟨h.check.store, h.check.module, h.check.func, hv, h.check.highwater, h.check.brTableResult,
    h.check.types, hblocks⟩, h.code, h.depth⟩

theorem popStackT_sim :
    job.Sim (Rep job (m + 1) p : TextBuilder F D → Asm → Prop) popStackT Asm.popOpd
      fun a b s t => a = b ∧ Rep job (m + 1) p s t := by
  intro s t h
  obtain ⟨b, bs, f, fs, hb, hf, hsame⟩ := h.cons
  have hlast : s.controlFrames.last? = some f := by
    rw [StaticVec.last?, hf]
    rfl
  have htop : Asm.top t = .ok b t := Asm.top_eq_ok.2 ⟨⟨bs, hb⟩, rfl⟩
  have hlen : s.controlFrameStackLen = t.opds.length - b.height := by
    simp only [controlFrameStackLen, hlast, StaticVec.len, h.check.opds, hsame.height]
  have hun : s.isUnreachable = b.unreachable := by
    simp only [isUnreachable, hlast, hsame.unreachable]
  unfold popStackT Asm.popOpd
  rw [bind_of_ok (get_apply s), bind_of_ok htop, bind_of_ok (get_apply t), hlen, hun]
  by_cases hzero : t.opds.length - b.height = 0
  · by_cases hunr : b.unreachable = true
    · rw [if_pos ⟨hzero, hunr⟩, if_pos ⟨hzero, hunr⟩]
      exact ⟨_, t, rfl, rfl, h⟩
    · have hnot : ¬(t.opds.length - b.height = 0 ∧ b.unreachable = true) := fun hc => hunr hc.2
      rw [if_neg hnot, if_neg hnot, if_pos hzero, if_pos hzero]
      exact ⟨h.intact, Or.inr ⟨(), t, rfl⟩⟩
  · have hnot : ¬(t.opds.length - b.height = 0 ∧ b.unreachable = true) := fun hc => hzero hc.1
    rw [if_neg hnot, if_neg hnot, if_neg hzero, if_neg hzero]
    cases hpop : s.valueStack.pop with
    | none =>
        rw [StaticVec.pop_eq_none, h.check.opds] at hpop
        rw [hpop] at hzero
        simp at hzero
    | some r =>
        obtain ⟨o, v⟩ := r
        rw [StaticVec.pop_eq_some, h.check.opds] at hpop
        rw [hpop]
        refine ⟨o, { t with opds := v.toList }, rfl, rfl, h.withOpds rfl ?_⟩
        have hblocks := h.check.blocks
        rw [hb, BlocksOk] at hblocks ⊢
        refine ⟨?_, hblocks.2⟩
        rw [hpop, List.length_cons] at hzero
        omega

theorem popStack_sim (expect : OperandType) :
    job.Sim (Rep job (m + 1) p : TextBuilder F D → Asm → Prop) (popStack expect)
      (Asm.popExpect expect) fun a b s t => a = b ∧ Rep job (m + 1) p s t := by
  refine Simulates.bind popStackT_sim fun a b => ?_
  intro s t ⟨hab, h⟩
  subst hab
  by_cases h1 : a = .unknown
  · simp only [h1, if_true]
    exact ⟨_, t, rfl, rfl, h⟩
  · by_cases h2 : expect = .unknown
    · simp only [h1, h2, if_true, if_false]
      exact ⟨_, t, rfl, rfl, h⟩
    · by_cases h3 : a = expect
      · simp only [h3, h2, if_false, ne_eq, not_true_eq_false]
        exact ⟨_, t, rfl, rfl, h⟩
      · simp only [h1, h2, h3, if_false, ne_eq, not_false_eq_true, if_true]
        exact ⟨h.intact, Or.inr ⟨(), t, rfl⟩⟩

theorem popVals_sim (ts : List ValType) :
    job.Sim (Rep job (m + 1) p : TextBuilder F D → Asm → Prop) (popVals ts) (Asm.popTypes ts)
      fun _ _ => Rep job (m + 1) p := by
  induction ts with
  | nil => exact Simulates.pure fun s t h => h
  | cons ty ts ih =>
      refine Simulates.bind (popStack_sim _) fun a b => ?_
      exact ih.weaken (fun s t h => h.2) fun _ _ _ _ h => h

theorem pushStack_sim (o : OperandType) :
    job.Sim (Rep job n p : TextBuilder F D → Asm → Prop) (pushStack o) (Asm.pushOpd o)
      fun _ _ => Rep job n p := by
  intro s t h
  unfold pushStack Asm.pushOpd
  rw [bind_of_ok (get_apply s)]
  cases hpush : s.valueStack.push o with
  | none => exact ⟨h.intact, Or.inl trivial⟩
  | some v =>
      rw [StaticVec.push_eq_some, h.check.opds] at hpush
      refine ⟨(), _, rfl, ⟨⟨h.check.store, h.check.module, h.check.func, hpush, ?_,
        h.check.brTableResult, h.check.types, ?_⟩, h.code, h.depth⟩⟩
      · simp only [stackHeight, Asm.words, hpush, h.check.highwater]
      · have hblocks := h.check.blocks
        simp only
        cases hb : t.blocks with
        | nil => trivial
        | cons b bs =>
            rw [hb, BlocksOk] at hblocks
            exact ⟨Nat.le_succ_of_le hblocks.1, hblocks.2⟩

theorem pushVals_sim (ts : List ValType) :
    job.Sim (Rep job n p : TextBuilder F D → Asm → Prop) (pushVals ts) (Asm.pushTypes ts)
      fun _ _ => Rep job n p := by
  induction ts with
  | nil => exact Simulates.pure fun s t h => h
  | cons ty ts ih => exact Simulates.bind (pushStack_sim _) fun _ _ => ih

theorem markUnreachable_sim :
    job.Sim (Rep job (m + 1) p : TextBuilder F D → Asm → Prop) markUnreachable Asm.markUnreachable
      fun _ _ => Rep job (m + 1) p := by
  intro s t h
  obtain ⟨b, bs, f, fs, hb, hf, hsame⟩ := h.cons
  have hlast : s.controlFrames.last? = some f := by
    rw [StaticVec.last?, hf]
    rfl
  have hblocks := h.check.blocks
  have htypes := h.check.types
  have hcode := h.code
  have hdepth := h.depth
  rw [hb, BlocksOk] at hblocks
  rw [hb, hf, List.forall₂_cons] at htypes
  rw [hb, hf] at hcode
  rw [hb] at hdepth
  have hle : f.height ≤ s.valueStack.len := by
    rw [hsame.height, StaticVec.len, h.check.opds]
    exact hblocks.1
  unfold markUnreachable Asm.markUnreachable
  rw [bind_of_ok (get_apply s), hlast]
  simp only
  rw [assert_of hle, pure_bind]
  refine ⟨(), _, rfl, ?_⟩
  have hmod : (s.controlFrames.modify 0 fun f => { f with unreachable := true }).toList =
      { f with unreachable := true } :: fs := by
    rw [StaticVec.toList_modify, hf]
    rfl
  simp only [hb]
  refine ⟨⟨h.check.store, h.check.module, h.check.func, ?_, h.check.highwater,
    h.check.brTableResult, ?_, ?_⟩, ?_, hdepth⟩
  · simp only [StaticVec.toList_truncate, h.check.opds, hsame.height]
  · simp only [hmod]
    exact List.Forall₂.cons ⟨hsame.kind, hsame.label, hsame.out, hsame.height, rfl⟩ htypes.2
  · refine ⟨?_, hblocks.2⟩
    simp only [List.length_drop]
    omega
  · simp only [hmod]
    have hchains := List.forall₂_cons.1 hcode.chains
    exact ⟨hcode.code, hcode.ids, List.Forall₂.cons hchains.1 hchains.2, hcode.encodable⟩

/-! ### Branch operands -/

theorem pc_apply (s : TextBuilder F D) :
    TextBuilder.pc s = .ok (addrOf s.code.size) s := by
  rw [TextBuilder.pc, coding, zoom, CodeBuilder.pc_apply]

theorem stackHeight_eq {s : TextBuilder F D} {t : Asm} (h : Rep job n p s t) :
    s.stackHeight = t.words := by
  rw [stackHeight, h.check.opds, Asm.words]

theorem stackHeightFor_eq {s : TextBuilder F D} {t : Asm} (h : Rep job n p s t) (k : ℕ) :
    s.stackHeightFor k = t.wordsFor k := by
  rw [stackHeightFor, h.check.opds, Asm.wordsFor]

theorem BlocksOk.height_le {bs : List Block} {k n : ℕ} {b : Block} (h : BlocksOk bs n)
    (hb : bs[k]? = some b) : b.height ≤ n := by
  induction bs generalizing k n with
  | nil => simp at hb
  | cons b₀ bs ih =>
      cases k with
      | zero =>
          obtain rfl : b₀ = b := by simpa using hb
          exact h.1
      | succ k => exact Nat.le_trans (ih h.2.2 (by simpa using hb)) h.1

theorem Label.pack_eq {r : ResultType} {d : ℕ} (dest : Dest) (o : JumpOffset) :
    LabelTarget.new r (BitVec.ofNat 8 d) o = (Label.mk r d dest).pack o := rfl

/-- What a branch to the `k`-th enclosing block targets. -/
def IsTarget (t : Asm) (k : ℕ) (d : Dest) : Prop :=
  ∃ b, t.blocks[k]? = some b ∧
    (k + 1 = t.blocks.length ∨ b.kind = .loop ∨ d = .end_ b.id)

/-- The operand of a branch to the end of a block joins the chain of the block. -/
theorem writeForward_sim {s : TextBuilder F D} {t : Asm} (h : Rep job n p s t) {l : ℕ} {b : Block}
    {f : ControlFrame} (hb : t.blocks[l]? = some b) (hf : s.controlFrames.toList[l]? = some f)
    (hsame : SameTypes b f) (hkind : b.kind ≠ .loop) {d : ℕ} (hd : d < 256) :
    job.Sim (fun s' t' => s' = s ∧ t' = t)
      (do
        modify fun s' => { s' with
          controlFrames := s'.controlFrames.modify l fun f =>
            { f with target := addrOf s.code.size } }
        let offset ← ofExcept (JumpOffset.new (addrOf s.code.size) f.target)
        TextBuilder.write32 (LabelTarget.new f.out (BitVec.ofNat 8 d) offset)
        pure f.label : TextM F D ResultType)
      (pure (⟨b.out, d, .end_ b.id⟩, b.label) : AsmM (Label × ResultType))
      fun r a s t => r = a.2 ∧ a.1.depth < 256 ∧ IsTarget t l a.1.dest ∧
        Rep job n (p ++ a.1.cells) s t := by
  rintro s' t' ⟨rfl, rfl⟩
  rw [bind_of_ok (modify_apply _ s')]
  cases hnew : JumpOffset.new (addrOf s'.code.size) f.target with
  | error e =>
      rw [JumpOffset.new_error hnew]
      exact ⟨h.intact, Or.inl trivial⟩
  | ok o =>
      rw [ofExcept_ok, pure_bind, write32_eq, bind_apply, hsame.out,
        Label.pack_eq (.end_ b.id)]
      have hspec := pushWords_spec (words32 (Label.pack ⟨b.out, d, .end_ b.id⟩ o))
        { s' with controlFrames :=
          s'.controlFrames.modify l fun f => { f with target := addrOf s'.code.size } }
      rcases hs : pushWords (words32 (Label.pack ⟨b.out, d, .end_ b.id⟩ o))
        { s' with controlFrames :=
          s'.controlFrames.modify l fun f => { f with target := addrOf s'.code.size } } with
        ⟨_, s''⟩ | ⟨e, s''⟩ | _ | _ <;> rw [hs] at hspec
      · obtain ⟨c', rfl, hx⟩ := hspec
        refine ⟨_, t', rfl, hsame.label, hd, ⟨b, hb, Or.inr (Or.inr rfl)⟩,
          ⟨h.check.store, h.check.module, h.check.func, h.check.opds,
          h.check.highwater, h.check.brTableResult, ?_, h.check.blocks⟩, ?_, h.depth⟩
        · simp only [StaticVec.toList_modify]
          refine forall₂_modify h.check.types hb hf (fun hbf => ?_) fun _ _ _ hbf => hbf
          exact ⟨hbf.kind, hbf.label, hbf.out, hbf.height, hbf.unreachable⟩
        · simp only [StaticVec.toList_modify]
          exact h.code.append_branch hb hf hkind hx hnew rfl
      · obtain ⟨he, c', rfl, hg⟩ := hspec
        exact ⟨hg.intact h.intact, Or.inl he⟩
      · exact hspec.elim
      · exact hspec

/-- The operand of a branch. -/
theorem writeLabelTarget_sim (l : Idx) (ty : ResultType) (hty : ty = job.func.returnTy) :
    job.Sim (Rep job (m + 1) p : TextBuilder F D → Asm → Prop) (writeLabelTarget l)
      (Asm.target ty l) fun r a s t => r = a.2 ∧ a.1.depth < 256 ∧ IsTarget t l a.1.dest ∧
        Rep job (m + 1) (p ++ a.1.cells) s t := by
  intro s t h
  subst hty
  have hlen : s.controlFrames.len = t.blocks.length := by
    rw [StaticVec.len, h.check.types.length_eq]
  unfold writeLabelTarget Asm.target
  rw [bind_of_ok (get_apply s), bind_of_ok (get_apply t)]
  cases hb : t.blocks[l]? with
  | none =>
      rw [forall₂_getElem?_none h.check.types hb]
      exact ⟨h.intact, Or.inr ⟨(), t, rfl⟩⟩
  | some b =>
      obtain ⟨f, hf, hsame⟩ := forall₂_getElem? h.check.types hb
      obtain ⟨f', hf', hchain⟩ := forall₂_getElem? h.code.chains hb
      obtain rfl : f = f' := by
        rw [hf] at hf'
        cases hf'
        rfl
      rw [hf, okOr_some, pure_bind]
      simp only [hlen]
      by_cases hret : l + 1 = t.blocks.length
      · -- An early return.
        rw [if_pos hret, if_pos hret, h.check.func, write32_eq, bind_apply]
        have hspec := pushWords_spec (words32 (LabelTarget.earlyReturn job.func.returnTy)) s
        rcases hs : pushWords (words32 (LabelTarget.earlyReturn job.func.returnTy)) s with
          ⟨_, s'⟩ | ⟨e, s'⟩ | _ | _ <;> rw [hs] at hspec
        · obtain ⟨c', rfl, hx⟩ := hspec
          refine ⟨_, t, rfl, rfl, ?_, ⟨b, hb, Or.inl hret⟩, h.check.withCode c', ?_, h.depth⟩
          · exact Nat.zero_lt_succ _
          · exact h.code.append_known (l := ⟨job.func.returnTy, 0, .ret⟩) (o := 0) hx
              (JumpOffset.new_sentinel _) (Or.inl ⟨rfl, rfl⟩)
        · obtain ⟨he, c', rfl, hg⟩ := hspec
          exact ⟨hg.intact h.intact, Or.inl he⟩
        · exact hspec.elim
        · exact hspec
      · have hle : f.height ≤ s.valueStack.len := by
          rw [hsame.height, StaticVec.len, h.check.opds]
          exact h.check.blocks.height_le hb
        rw [if_neg hret, if_neg hret, bind_of_ok (pc_apply s), assert_of hle, pure_bind,
          stackHeight_eq h, stackHeightFor_eq h, hsame.height]
        by_cases hdeep : 255 < t.words - t.wordsFor b.height
        · rw [if_pos hdeep]
          exact ⟨h.intact, Or.inl trivial⟩
        · have hdepth : t.words - t.wordsFor b.height < 256 := by omega
          rw [if_neg hdeep, hsame.kind]
          have hforward := fun hkind =>
            writeForward_sim h hb hf hsame hkind hdepth s t ⟨rfl, rfl⟩
          cases hkind : b.kind with
          | loop =>
              -- A jump back to the start of the loop.
              obtain ⟨htarget, hstart⟩ := hchain.loop hkind
              simp only
              cases hnew : JumpOffset.new (addrOf s.code.size) f.target with
              | error e =>
                  rw [JumpOffset.new_error hnew]
                  exact ⟨h.intact, Or.inl trivial⟩
              | ok o =>
                  rw [ofExcept_ok, pure_bind, write32_eq, bind_apply,
                    Label.pack_eq (.back b.start)]
                  have hspec := pushWords_spec
                    (words32 (Label.pack ⟨none, t.words - t.wordsFor b.height, .back b.start⟩ o)) s
                  rcases hs : pushWords (words32 (Label.pack
                      ⟨none, t.words - t.wordsFor b.height, .back b.start⟩ o)) s with
                    ⟨_, s'⟩ | ⟨e, s'⟩ | _ | _ <;> rw [hs] at hspec
                  · obtain ⟨c', rfl, hx⟩ := hspec
                    refine ⟨_, t, rfl, rfl, hdepth, ⟨b, hb, Or.inr (Or.inl hkind)⟩,
                      h.check.withCode c', ?_, h.depth⟩
                    exact h.code.append_known hx hnew (Or.inr ⟨b.start, rfl, htarget⟩)
                  · obtain ⟨he, c', rfl, hg⟩ := hspec
                    exact ⟨hg.intact h.intact, Or.inl he⟩
                  · exact hspec.elim
                  · exact hspec
          | block => exact hforward (by rw [hkind]; decide)
          | if_ => exact hforward (by rw [hkind]; decide)

/-! ### Opening blocks -/

/-- The frame that `push_control` pushes. -/
def newFrame (kind : BlockKind) (label out : ResultType) (height : ℕ) : ControlFrame :=
  ⟨kind, label, out, height, JumpTarget.sentinel, false⟩

theorem pushControl_spec (s : TextBuilder F D) (kind : BlockKind) (label out : ResultType)
    (hD : D < 2 ^ 16) :
    match pushControl kind label out s with
    | .ok _ s' => ∃ v, s' = { s with controlFrames := v } ∧
        v.toList = newFrame kind label out s.valueStack.toList.length :: s.controlFrames.toList
    | .error e s' => e.IsLimit ∧ s' = s
    | .panic => False
    | .diverge => False := by
  have hlen : s.valueStack.len % 2 ^ 16 = s.valueStack.toList.length :=
    Nat.mod_eq_of_lt (Nat.lt_of_le_of_lt s.valueStack.length_le hD)
  unfold pushControl
  rw [bind_of_ok (get_apply s), hlen]
  cases hpush : s.controlFrames.push
      (newFrame kind label out s.valueStack.toList.length) with
  | none =>
      rw [newFrame] at hpush
      simp only [hpush]
      exact ⟨trivial, rfl⟩
  | some v =>
      have hv := StaticVec.push_eq_some.1 hpush
      rw [newFrame] at hpush
      simp only [hpush]
      exact ⟨v, rfl, hv⟩

/-- The types of a block that is opened. -/
theorem CheckInv.open {s : TextBuilder F D} {t : Asm} (h : Rep job (m + 1) p s t)
    {kind : BlockKind} {label out : ResultType} {v : StaticVec ControlFrame F} {f : ControlFrame}
    (hv : v.toList = f :: s.controlFrames.toList)
    (hf : f.kind = kind ∧ f.label = label ∧ f.out = out ∧ f.height = t.opds.length ∧
      f.unreachable = false) (c : CodeBuilder) :
    CheckInv job (t.opened kind label out).blocks v.toList
      { s with code := c, controlFrames := v } (t.opened kind label out) := by
  obtain ⟨hkind, hlabel, hout, hheight, hun⟩ := hf
  refine ⟨h.check.store, h.check.module, h.check.func, h.check.opds, h.check.highwater,
    h.check.brTableResult, ?_, ?_⟩
  · rw [hv]
    exact List.Forall₂.cons ⟨hkind, hlabel, hout, hheight, hun⟩ h.check.types
  · refine ⟨Nat.le_refl _, fun hnil => ?_, h.check.blocks⟩
    have := h.depth
    rw [hnil] at this
    cases this

theorem pushControl_block_sim (label out : ResultType) (hD : D < 2 ^ 16) :
    job.Sim (Rep job (m + 1) p : TextBuilder F D → Asm → Prop) (pushControl .block label out)
      (Asm.pushBlock .block label out) fun _ _ => Rep job (m + 2) p := by
  intro s t h
  have hspec := pushControl_spec s .block label out hD
  rcases hs : pushControl .block label out s with ⟨_, s'⟩ | ⟨e, s'⟩ | _ | _ <;> rw [hs] at hspec
  · obtain ⟨v, rfl, hv⟩ := hspec
    rw [h.check.opds] at hv
    refine ⟨(), _, Asm.pushBlock_apply _ _ _ t, ?_, ?_, ?_⟩
    · exact CheckInv.open h hv ⟨rfl, rfl, rfl, rfl, rfl⟩ s.code
    · simp only [hv]
      exact h.code.open_block rfl rfl rfl
    · rw [Asm.opened, List.length_cons, h.depth]
  · obtain ⟨he, rfl⟩ := hspec
    exact ⟨h.intact, Or.inl he⟩
  · exact hspec.elim
  · exact hspec

/-- A loop starts at the current address. -/
theorem loop_sim (out : ResultType) (hD : D < 2 ^ 16) :
    job.Sim (Rep job (m + 1) [] : TextBuilder F D → Asm → Prop) (Compiler.loop_ out)
      (Asm.pushBlock .loop none out) fun _ _ => Rep job (m + 2) [] := by
  intro s t h
  have hspec := pushControl_spec s .loop none out hD
  unfold Compiler.loop_
  rw [bind_apply]
  rcases hs : pushControl .loop none out s with ⟨_, s'⟩ | ⟨e, s'⟩ | _ | _ <;> rw [hs] at hspec
  · obtain ⟨v, rfl, hv⟩ := hspec
    rw [h.check.opds] at hv
    have hlast : v.last? = some (newFrame .loop none out t.opds.length) := by
      rw [StaticVec.last?, hv]
      rfl
    simp only
    rw [bind_of_ok (pc_apply _), setControlTarget, bind_of_ok (get_apply _), hlast]
    have hmod : (v.modify 0 fun f => { f with target := addrOf s.code.size }).toList =
        { newFrame .loop none out t.opds.length with target := addrOf s.code.size } ::
          s.controlFrames.toList := by
      rw [StaticVec.toList_modify, hv]
      rfl
    refine ⟨(), _, Asm.pushBlock_apply _ _ _ t, ?_, ?_, ?_⟩
    · exact CheckInv.open h hmod ⟨rfl, rfl, rfl, rfl, rfl⟩ s.code
    · simp only [hmod]
      exact h.code.open_loop rfl rfl rfl rfl
    · rw [Asm.opened, List.length_cons, h.depth]
  · obtain ⟨he, rfl⟩ := hspec
    exact ⟨h.intact, Or.inl he⟩
  · exact hspec.elim
  · exact hspec

/-- The block of an `if`, with the operand for its false branch. -/
theorem openIf_sim (out : ResultType) (hD : D < 2 ^ 16) :
    job.Sim (Rep job (m + 1) p : TextBuilder F D → Asm → Prop)
      (do
        pushControl .if_ out out
        writeIfElseTarget)
      (do
        Asm.pushBlock .if_ out out
        let b ← Asm.top
        pure (Label.mk out 0 (.else_ b.id)))
      fun _ l s t => l.depth < 256 ∧ Rep job (m + 2) (p ++ l.cells) s t := by
  intro s t h
  have hspec := pushControl_spec s .if_ out out hD
  rw [bind_apply]
  rcases hs : pushControl .if_ out out s with ⟨_, s'⟩ | ⟨e, s'⟩ | _ | _ <;> rw [hs] at hspec
  · obtain ⟨v, rfl, hv⟩ := hspec
    rw [h.check.opds] at hv
    have hlast : v.last? = some (newFrame .if_ out out t.opds.length) := by
      rw [StaticVec.last?, hv]
      rfl
    simp only
    rw [writeIfElseTarget, bind_of_ok (get_apply _), hlast]
    simp only
    rw [bind_of_ok (pc_apply _), write32_eq, bind_apply]
    have hwords := pushWords_spec
      (words32 (LabelTarget.new (newFrame .if_ out out t.opds.length).out 0 JumpOffset.sentinel))
      { s with controlFrames := v }
    rcases hw : pushWords
        (words32 (LabelTarget.new (newFrame .if_ out out t.opds.length).out 0 JumpOffset.sentinel))
        { s with controlFrames := v } with ⟨_, s''⟩ | ⟨e, s''⟩ | _ | _ <;> rw [hw] at hwords
    · obtain ⟨c', rfl, hx⟩ := hwords
      have hmod : (v.modify 0 fun f => { f with target := addrOf s.code.size }).toList =
          { newFrame .if_ out out t.opds.length with target := addrOf s.code.size } ::
            s.controlFrames.toList := by
        rw [StaticVec.toList_modify, hv]
        rfl
      refine ⟨_, t.opened .if_ out out, rfl, Nat.zero_lt_succ _, ?_, ?_, ?_⟩
      · exact CheckInv.open h hmod ⟨rfl, rfl, rfl, rfl, rfl⟩ c'
      · simp only [hmod]
        exact h.code.open_if (o := 0) (l := ⟨out, 0, .else_ t.nextId⟩) rfl rfl hx rfl rfl rfl
      · rw [Asm.opened, List.length_cons, h.depth]
    · obtain ⟨he, c', rfl, hg⟩ := hwords
      exact ⟨hg.intact h.intact, Or.inl he⟩
    · exact hwords.elim
    · exact hwords
  · obtain ⟨he, rfl⟩ := hspec
    exact ⟨h.intact, Or.inl he⟩
  · exact hspec.elim
  · exact hspec

/-! ### Leaving blocks -/

/-- The state after a block has been left: its chain is still to be patched. -/
structure Left (job : Job) (n : ℕ) (p : List Cell) (f : ControlFrame) (b : Block)
    (s : TextBuilder F D) (t : Asm) : Prop where
  check : CheckInv job t.blocks s.controlFrames.toList s t
  code : CodeInv job t.toListing p t.nextId (b :: t.blocks) (f :: s.controlFrames.toList) s.code
  depth : t.blocks.length = n
  types : SameTypes b f
  height : t.opds.length = b.height
  kind : t.blocks = [] → b.kind = .block

theorem Left.intact {f : ControlFrame} {b : Block} {s : TextBuilder F D} {t : Asm}
    (h : Left job n p f b s t) : job.Intact s.code := h.code.code.intact

theorem popFrame_sim :
    job.Sim (Rep job (m + 1) p : TextBuilder F D → Asm → Prop) popFrame Asm.popBlock
      fun f b => Left job m p f b := by
  intro s t h
  obtain ⟨b, bs, f, fs, hb, hf, hsame⟩ := h.cons
  have hlast : s.controlFrames.last? = some f := by
    rw [StaticVec.last?, hf]
    rfl
  have htop : Asm.top t = .ok b t := Asm.top_eq_ok.2 ⟨⟨bs, hb⟩, rfl⟩
  have hpop : job.Sim (Rep job (m + 1) p : TextBuilder F D → Asm → Prop) (popVals b.out.toList)
      (Asm.popTypes b.out.toList) fun _ _ => Rep job (m + 1) p := popVals_sim b.out.toList
  have hpops := hpop s t h
  unfold popFrame Asm.popBlock
  rw [bind_of_ok (get_apply s), hlast, unwrap_some, pure_bind, bind_of_ok htop, popResultType,
    hsame.out, bind_apply]
  rcases hs : popVals b.out.toList s with ⟨_, s'⟩ | ⟨e, s'⟩ | _ | _ <;> rw [hs] at hpops
  · obtain ⟨_, t', ht, h'⟩ := hpops
    obtain ⟨opds, rfl⟩ := Asm.popTypes_frame ht
    obtain ⟨b', bs', f', fs', hb', hf', hsame'⟩ := h'.cons
    obtain ⟨rfl, rfl⟩ : b' = b ∧ bs' = bs := by
      have heq : b' :: bs' = b :: bs := by rw [← hb', ← hb]
      exact List.cons.inj heq
    have hheight : s'.valueStack.len ≠ f.height ↔ opds.length ≠ b'.height := by
      rw [StaticVec.len, h'.check.opds, hsame.height]
    rw [bind_of_ok ht, bind_of_ok (get_apply _)]
    simp only
    rw [bind_of_ok (get_apply s')]
    by_cases hne : opds.length ≠ b'.height
    · rw [if_pos (hheight.2 hne), if_pos hne]
      exact ⟨h'.intact, Or.inr ⟨(), _, rfl⟩⟩
    · rw [if_neg (fun hc => hne (hheight.1 hc)), if_neg hne]
      have htypes := h'.check.types
      have hblocks := h'.check.blocks
      have hcode := h'.code
      have hdepth := h'.depth
      rw [hb', hf', List.forall₂_cons] at htypes
      rw [hb', BlocksOk] at hblocks
      rw [hb', hf'] at hcode
      rw [hb', List.length_cons] at hdepth
      cases hpop : s'.controlFrames.pop with
      | none =>
          rw [StaticVec.pop_eq_none, hf'] at hpop
          cases hpop
      | some r =>
          obtain ⟨f'', v⟩ := r
          rw [StaticVec.pop_eq_some, hf'] at hpop
          obtain ⟨rfl, hv⟩ := List.cons.inj hpop
          have hlen : opds.length = b'.height := not_not.1 hne
          have htail : t.blocks.tail = bs' := by rw [hb]; rfl
          refine ⟨b', _, rfl, ?_, ?_, ?_, htypes.1, hlen, ?_⟩
          · refine ⟨h'.check.store, h'.check.module, h'.check.func, h'.check.opds,
              h'.check.highwater, h'.check.brTableResult, ?_, ?_⟩
            · simp only [htail, ← hv]
              exact htypes.2
            · simp only [htail, hlen]
              exact hblocks.2.2
          · simp only [htail, ← hv]
            exact hcode
          · simp only [htail]
            exact Nat.succ.inj hdepth
          · simp only [htail]
            exact hblocks.2.1
  · obtain ⟨hK, hl | ⟨e', t', ht⟩⟩ := hpops
    · exact ⟨hK, Or.inl hl⟩
    · exact ⟨hK, Or.inr ⟨e', t', bind_of_error ht⟩⟩
  · exact hpops
  · exact hpops

theorem CodeRel.size_here {L : Listing} {c : CodeBuilder} (h : CodeRel job L [] c) :
    c.size = L.here := h.size

/-- The types after a block has been left do not depend on the bound addresses. -/
theorem CheckInv.bind {s : TextBuilder F D} {t : Asm}
    (h : CheckInv job t.blocks s.controlFrames.toList s t) (c : CodeBuilder)
    (ends elses : ℕ → Option ℕ) :
    CheckInv job t.blocks s.controlFrames.toList { s with code := c }
      { t with ends := ends, elses := elses } :=
  ⟨h.store, h.module, h.func, h.opds, h.highwater, h.brTableResult, h.types, h.blocks⟩

/-- Patching the operands that wait for the end of a block. -/
theorem patchChain_spec {f : ControlFrame} {b : Block} {s : TextBuilder F D} {t : Asm}
    (h : Left job n [] f b s t) (hkind : b.kind ≠ .loop) :
    match (patchChain f.target : TextM F D Unit) s with
    | .ok _ s' => Rep job n [] s' { t with
        ends := Function.update t.ends b.id (some t.here)
        elses := if b.kind = .if_ then Function.update t.elses b.id (some t.here) else t.elses }
    | .error e s' => job.Intact s'.code ∧ e.IsLimit
    | .panic => False
    | .diverge => False := by
  obtain ⟨sites, hchain, hcover, haddr⟩ := h.code.chain_sites hkind
  have hpatch := backpatch_patchLabel (addrOf s.code.size) hchain
    fun x hx => (haddr x hx).1
  unfold patchChain
  rw [bind_of_ok (pc_apply s), coding, zoom]
  rcases hc : CodeBuilder.backpatch f.target ()
      (fun _ address label => patchLabel (addrOf s.code.size) address label) s.code with
    ⟨_, c'⟩ | ⟨e, c'⟩ | _ | _ <;> rw [hc] at hpatch
  · obtain ⟨hp, hjumps⟩ := hpatch
    rw [h.code.code.size_here] at hjumps
    refine ⟨h.check.bind c' _ _, ?_, h.depth⟩
    exact h.code.close hcover hp hjumps rfl
  · exact ⟨hpatch.2.intact h.intact fun x hx => (haddr x hx).2, hpatch.1⟩
  · exact hpatch
  · exact hpatch

theorem popControl_sim :
    job.Sim (Rep job (m + 1) [] : TextBuilder F D → Asm → Prop) popControl Asm.popControl
      fun r r' s t => r = r' ∧ Rep job m [] s t := by
  refine Simulates.bind popFrame_sim fun f b => ?_
  intro s t h
  have hsame := h.types
  have hpatch := fun hkind => patchChain_spec h hkind
  rw [hsame.kind, hsame.out]
  cases hkind : b.kind with
  | loop =>
      refine ⟨_, _, rfl, rfl, h.check.bind s.code _ t.elses, ?_, h.depth⟩
      exact h.code.close_loop hkind t.here
  | block =>
      have hp := hpatch (by rw [hkind]; decide)
      simp only
      rw [bind_apply]
      rcases hs : (patchChain f.target : TextM F D Unit) s with ⟨_, s'⟩ | ⟨e, s'⟩ | _ | _ <;>
        rw [hs] at hp
      · rw [hkind, if_neg (by decide)] at hp
        exact ⟨_, _, rfl, rfl, hp⟩
      · exact ⟨hp.1, Or.inl hp.2⟩
      · exact hp.elim
      · exact hp
  | if_ =>
      have hp := hpatch (by rw [hkind]; decide)
      simp only
      by_cases hout : b.out = none
      · rw [if_pos hout, if_pos hout, bind_apply]
        rcases hs : (patchChain f.target : TextM F D Unit) s with ⟨_, s'⟩ | ⟨e, s'⟩ | _ | _ <;>
          rw [hs] at hp
        · rw [hkind, if_pos rfl] at hp
          exact ⟨_, _, rfl, rfl, hp⟩
        · exact ⟨hp.1, Or.inl hp.2⟩
        · exact hp.elim
        · exact hp
      · rw [if_neg hout, if_neg hout]
        exact ⟨h.intact, Or.inr ⟨(), t, rfl⟩⟩

/-- Leaving the first arm of an `if` for the second one. The branch to the end
that closes the first arm has been written, so the chain does not only consist of
the false branch. -/
theorem elseArm_sim (hD : D < 2 ^ 16) :
    job.Sim (fun s t => Rep job (m + 1) [] s t ∧
      ∃ (b : Block) (bs : List Block) (i : ℕ) (l : Label),
        t.blocks = b :: bs ∧
        (b.kind = .if_ → (image t.entries)[i]? = some (Cell.lo l) ∧ l.dest = .end_ b.id))
      (do
        let (results, brChain) ← popControlAndPatchIf
        pushControl .block results results
        setControlTarget brChain : TextM F D Unit)
      (do
        let b ← Asm.top
        if b.kind ≠ .if_ then Asm.reject
        else do
          let b ← Asm.popBlock
          Asm.bindElse b.id
          modify fun t => { t with
            blocks := ⟨.block, b.out, b.out, t.opds.length, false, b.id, b.start⟩ :: t.blocks } :
        AsmM Unit)
      fun _ _ => Rep job (m + 1) [] := by
  rintro s t ⟨h, b, bs, i, l, hb, hbranch⟩
  obtain ⟨b', bs', f, fs, hb', hf, hsame⟩ := h.cons
  obtain ⟨rfl, rfl⟩ : b' = b ∧ bs' = bs := List.cons.inj (by rw [← hb', ← hb])
  have hlast : s.controlFrames.last? = some f := by
    rw [StaticVec.last?, hf]
    rfl
  have htop : Asm.top t = .ok b' t := Asm.top_eq_ok.2 ⟨⟨bs', hb⟩, rfl⟩
  have hpop := popFrame_sim s t h
  unfold popControlAndPatchIf
  rw [bind_apply, bind_of_ok (get_apply s), hlast, unwrap_some, pure_bind, bind_of_ok htop,
    hsame.kind]
  by_cases hkind : b'.kind = .if_
  · obtain ⟨hcell, hdest⟩ := hbranch hkind
    rw [if_neg (not_not_intro hkind), if_neg (not_not_intro hkind), bind_apply]
    rcases hs : (popFrame : TextM F D ControlFrame) s with ⟨f₁, s₁⟩ | ⟨e, s₁⟩ | _ | _ <;>
      rw [hs] at hpop
    · obtain ⟨b₁, t₁, ht₁, hleft⟩ := hpop
      obtain ⟨bs₁, opds, hb₁, -, hlen, rfl⟩ := Asm.popBlock_eq_ok ht₁
      obtain ⟨rfl, rfl⟩ : b₁ = b' ∧ bs₁ = bs' := List.cons.inj (by rw [← hb₁, ← hb])
      -- The chain: the branches to the end, and the false branch as its tail.
      obtain ⟨hchain, -⟩ := List.forall₂_cons.1 hleft.code.chains
      obtain ⟨sites, hsites, hcover, hshape⟩ := hchain.chain (by rw [hkind]; decide)
      obtain ⟨init, tail, rfl, htail, hinit⟩ := hshape hkind
      have hmem : (⟨t.base + i, l⟩ : Site) ∈ init ++ [tail] := by
        refine (hcover _).2 ⟨i, rfl, ?_, Or.inl hdest⟩
        rw [List.append_nil]
        exact hcell
      obtain ⟨q, init, rfl⟩ : ∃ q init', init = q :: init' := by
        cases init with
        | nil =>
            rw [List.nil_append, List.mem_singleton] at hmem
            rw [← hmem, hdest] at htail
            cases htail
        | cons q init => exact ⟨q, init, rfl⟩
      have haddr : ∀ x ∈ q :: init ++ [tail], x.addr + 1 < s₁.code.size ∧
          job.code.size ≤ x.addr := by
        intro x hx
        obtain ⟨j, hj, hcell', -⟩ := (hcover x).1 hx
        have hlt := hleft.code.code.lo_lt_size hcell'
        have hbase := hleft.code.code.base
        omega
      have hpatch := backpatch_patchIfTail (addrOf s₁.code.size) hsites
        (haddr q (by simp)).1
      simp only
      rw [bind_of_ok (pc_apply s₁), bind_apply, coding, zoom]
      rcases hc : CodeBuilder.backpatch f₁.target (JumpTarget.sentinel, JumpTarget.sentinel)
          (patchIfTail f₁.target (addrOf s₁.code.size)) s₁.code with
        ⟨acc, c'⟩ | ⟨e, c'⟩ | _ | _ <;> rw [hc] at hpatch
      · obtain ⟨hacc, hp, hjump, hcut⟩ := hpatch
        have hchain' := hcut f₁.target hsites
        simp only [pure_apply]
        rw [bind_apply]
        have hspec := pushControl_spec { s₁ with code := c' } .block f₁.out f₁.out hD
        rcases hs₂ : pushControl .block f₁.out f₁.out { s₁ with code := c' } with
          ⟨_, s₂⟩ | ⟨e, s₂⟩ | _ | _ <;> rw [hs₂] at hspec
        · obtain ⟨v, rfl, hv⟩ := hspec
          have hlast' : v.last? = some
              (newFrame .block f₁.out f₁.out s₁.valueStack.toList.length) := by
            rw [StaticVec.last?, hv]
            rfl
          simp only
          rw [setControlTarget, bind_of_ok (get_apply _), hlast', bind_of_ok ht₁]
          have hmod : (v.modify 0 fun f => { f with target := acc.2 }).toList =
              { newFrame .block f₁.out f₁.out s₁.valueStack.toList.length with target := acc.2 } ::
                s₁.controlFrames.toList := by
            rw [StaticVec.toList_modify, hv]
            rfl
          have hopds := hleft.check.opds
          refine ⟨(), _, rfl, ⟨hleft.check.store, hleft.check.module, hleft.check.func, hopds,
            hleft.check.highwater, hleft.check.brTableResult, ?_, ?_⟩, ?_, ?_⟩
          · simp only [hmod]
            refine List.Forall₂.cons ⟨rfl, hleft.types.out, hleft.types.out, ?_, rfl⟩
              hleft.check.types
            rw [newFrame, hopds]
          · refine ⟨Nat.le_refl _, fun _ => rfl, ?_⟩
            exact hleft.check.blocks
          · simp only [hmod]
            have hhere := hleft.code.code.size_here
            rw [hhere] at hjump
            refine hleft.code.else_ hkind hcover htail hinit hp hjump rfl rfl ?_
            rw [hacc]
            exact hchain'
          · rw [List.length_cons, hleft.depth]
        · obtain ⟨he, rfl⟩ := hspec
          exact ⟨hp.intact hleft.intact fun x hx => (haddr x hx).2, Or.inl he⟩
        · exact hspec.elim
        · exact hspec
      · exact ⟨hpatch.2.intact hleft.intact fun x hx => (haddr x hx).2, Or.inl hpatch.1⟩
      · exact hpatch.elim
      · exact hpatch
    · obtain ⟨hK, hl | ⟨e', t', ht⟩⟩ := hpop
      · exact ⟨hK, Or.inl hl⟩
      · exact ⟨hK, Or.inr ⟨e', t', bind_of_error ht⟩⟩
    · exact hpop
    · exact hpop
  · rw [if_pos hkind, if_pos hkind]
    exact ⟨h.intact, Or.inr ⟨(), t, rfl⟩⟩

end SpaceWasm
