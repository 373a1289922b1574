import SpaceWasm.Decoding
import SpaceWasm.Refinement

/-!
# The compiler simulates the assembler

One lemma for each call of the visitor: the handler of the compiler succeeds
where the assembler does, up to the limits, and its code represents the listing.
-/

namespace SpaceWasm

open Fallible TextBuilder

variable {job : Job} {F D n m : ℕ} {p : List Cell} {α β : Type}

/-! ### Emitting -/

theorem emit_sim {i : AsmInstr} (hi : i.Encodable) (height : Option ℕ) :
    job.Sim (Rep job n i.cells : TextBuilder F D → Asm → Prop) (pure ()) (Asm.emit height i)
      fun _ _ => Rep job n [] := by
  intro s t h
  refine ⟨(), _, rfl, ⟨h.check.store, h.check.module, h.check.func, h.check.opds,
    h.check.highwater, h.check.brTableResult, h.check.types, h.check.blocks⟩, ?_, h.depth⟩
  refine h.code.commit rfl fun e he => ?_
  rcases List.mem_cons.1 he with rfl | he
  · exact hi
  · exact h.code.encodable e he

theorem cells_plain (i : IrInstr) : (AsmInstr.plain i).cells = i.encode.map Cell.word := by
  simp [AsmInstr.cells, AsmInstr.head, AsmInstr.labels]

/-- A handler that writes the words of the instruction it emits. -/
theorem emitting_sim {R : TextBuilder F D → Asm → Prop} {x : TextM F D α} {y : AsmM IrInstr}
    (h : job.Sim R x y fun _ i s t => i.Encodable ∧ Rep job n (i.encode.map Cell.word) s t) :
    job.Sim R x (Asm.emitting y) fun _ _ => Rep job n [] := by
  intro s t hst
  have hx := h s t hst
  unfold Asm.emitting
  rw [bind_of_ok (gets_apply _ t)]
  cases hs : x s with
  | ok a s' =>
      rw [hs] at hx
      obtain ⟨i, t', ht, hi, hrep⟩ := hx
      rw [← cells_plain] at hrep
      rw [bind_of_ok ht]
      exact emit_sim (i := .plain i) hi _ s' t' hrep
  | error e s' =>
      rw [hs] at hx
      obtain ⟨hK, hl | ⟨e', t', ht⟩⟩ := hx
      · exact ⟨hK, Or.inl hl⟩
      · exact ⟨hK, Or.inr ⟨e', t', bind_of_error ht⟩⟩
  | panic => rw [hs] at hx; exact hx
  | diverge => rw [hs] at hx; exact hx

/-- Writing the words of an instruction. -/
theorem pushEncode_sim {i : IrInstr} (hi : i.Encodable) :
    job.Sim (Rep job n [] : TextBuilder F D → Asm → Prop) (pushWords i.encode)
      (pure i : AsmM IrInstr) fun _ i s t => i.Encodable ∧
        Rep job n (i.encode.map Cell.word) s t := by
  intro s t h
  have hpush := pushWords_sim (p := []) i.encode s t h
  cases hs : pushWords i.encode s with
  | ok a s' =>
      rw [hs] at hpush
      obtain ⟨_, t', ht, hrep⟩ := hpush
      cases ht
      exact ⟨i, t, rfl, hi, hrep⟩
  | error e s' =>
      rw [hs] at hpush
      obtain ⟨hK, hl | ⟨e', t', ht⟩⟩ := hpush
      · exact ⟨hK, Or.inl hl⟩
      · cases ht
  | panic => rw [hs] at hpush; exact hpush
  | diverge => rw [hs] at hpush; exact hpush

/-- Pops and pushes of fixed types, and an instruction. -/
theorem fixed_sim (ins outs : List ValType) {i : IrInstr} (hi : i.Encodable) {x : TextM F D Unit}
    (hx : x = pushWords i.encode) :
    job.Sim (Rep job (m + 1) [] : TextBuilder F D → Asm → Prop)
      (do
        Compiler.validate ins outs
        x)
      (Asm.fixed ins outs i) fun _ _ => Rep job (m + 1) [] := by
  subst hx
  refine emitting_sim ?_
  rw [Compiler.validate, bind_assoc]
  exact Simulates.bind (popVals_sim ins) fun _ _ =>
    Simulates.bind (pushVals_sim outs) fun _ _ => pushEncode_sim hi

theorem instrReturn_eq (ty : ResultType) :
    (Compiler.instrReturn ty : TextM F D Unit) = pushWords (Asm.instrReturn ty).encode := by
  cases ty with
  | none => exact instr_eq _
  | some ty => exact instrImm8_eq _ _

theorem encodable_instrReturn (ty : ResultType) : (Asm.instrReturn ty).Encodable := by
  cases ty <;> trivial

/-! ### Control instructions -/

theorem unreachable_sim :
    job.Sim (Rep job (m + 1) [] : TextBuilder F D → Asm → Prop) Compiler.unreachable
      (Asm.visit job.context .unreachable) fun _ _ => Rep job (m + 1) [] := by
  have hwords : (instrImm8 Opcode.unreachable 0 : TextM F D Unit) =
      pushWords IrInstr.unreachable.encode := instrImm8_eq _ _
  refine Simulates.bind (emitting_sim ?_) fun _ _ => markUnreachable_sim
  rw [hwords]
  exact pushEncode_sim trivial

theorem exitBlock_sim :
    job.Sim (Rep job (m + 1) [] : TextBuilder F D → Asm → Prop) Compiler.exitBlock
      (Asm.visit job.context .exitBlock) fun _ _ => Rep job m [] := by
  refine Simulates.bind popControl_sim fun r r' => ?_
  rintro s t ⟨hr, h⟩
  subst hr
  exact pushVals_sim r.toList s t h

theorem finish_sim :
    job.Sim (Rep job (m + 1) [] : TextBuilder F D → Asm → Prop) Compiler.finish
      (Asm.visit job.context .finish) fun _ _ => Rep job m [] := by
  refine emitting_sim (Simulates.bind popControl_sim fun r r' => ?_)
  rintro s t ⟨hr, h⟩
  subst hr
  rw [instrReturn_eq]
  exact pushEncode_sim (encodable_instrReturn r) s t h

theorem popKnown_sim (ty : ValType) :
    job.Sim (Rep job (m + 1) p : TextBuilder F D → Asm → Prop) (popStack (.known ty))
      (Asm.popExpect (.known ty)) fun _ _ => Rep job (m + 1) p :=
  (popStack_sim _).weaken (fun _ _ h => h) fun _ _ _ _ h => h.2

/-- The head of an instruction with a label. -/
theorem head_sim (op : U8) :
    job.Sim (Rep job n [] : TextBuilder F D → Asm → Prop) (instr op) (pure () : AsmM Unit)
      fun _ _ => Rep job n [Cell.word (opWord op 0)] := by
  rw [instr_eq]
  exact pushWords_sim (p := []) [opWord op 0]

theorem if_sim (ty : ResultType) (hD : D < 2 ^ 16) :
    job.Sim (Rep job (m + 1) [] : TextBuilder F D → Asm → Prop) (Compiler.if_ ty)
      (Asm.visit job.context (.if_ ty)) fun _ _ => Rep job (m + 2) [] := by
  have hasm : Asm.visit job.context (.if_ ty) = (do
      let height ← gets Asm.height
      let _ ← Asm.popExpect (.known .i32)
      let l ← (do
        Asm.pushBlock .if_ ty ty
        let b ← Asm.top
        pure (Label.mk ty 0 (.else_ b.id)))
      Asm.emit height (.if_ l)) := by
    simp only [Asm.visit, bind_assoc, pure_bind]
  have hcomp : (Compiler.if_ ty : TextM F D Unit) = (do
      let _ ← popStack (.known .i32)
      instr Opcode.if_
      (do
        pushControl .if_ ty ty
        writeIfElseTarget)
      pure ()) := by
    simp only [Compiler.if_, bind_pure_unit, bind_assoc]
  rw [hasm, hcomp]
  refine Simulates.gets_right fun height => Simulates.bind (popKnown_sim _) fun _ _ => ?_
  refine Simulates.left (head_sim _) fun _ => Simulates.bind (openIf_sim ty hD) fun _ l => ?_
  rintro s t ⟨hdepth, h⟩
  exact emit_sim (i := .if_ l) hdepth height s t h

/-- The end of a `br`, a `br_if` or an `else`: the label, and the instruction. -/
theorem label_sim {i : Label → AsmInstr} {op : U8} (l : Idx)
    (hcells : ∀ label, (i label).cells = Cell.word (opWord op 0) :: label.cells)
    (henc : ∀ label : Label, label.depth < 256 → (i label).Encodable) (height : Option ℕ) :
    job.Sim (Rep job (m + 1) [] : TextBuilder F D → Asm → Prop)
      (do
        instr op
        writeLabelTarget l)
      (do
        let (label, types) ← Asm.target job.context.returnTy l
        Asm.emit height (i label)
        pure (label, types))
      fun r a s t => r = a.2 ∧ Rep job (m + 1) [] s t ∧ IsTarget t l a.1.dest ∧
        ∃ k : ℕ, (image t.entries)[k]? = some (Cell.lo a.1) := by
  refine Simulates.left (head_sim op) fun _ => ?_
  intro s t h
  have htarget := writeLabelTarget_sim (p := [Cell.word (opWord op 0)]) l
    job.context.returnTy rfl s t h
  cases hs : (writeLabelTarget l : TextM F D ResultType) s with
  | ok r s' =>
      rw [hs] at htarget
      obtain ⟨a, t', ht, hr, hdepth, htgt, hrep⟩ := htarget
      rw [List.singleton_append, ← hcells] at hrep
      obtain ⟨_, t'', ht', hrep'⟩ := emit_sim (henc a.1 hdepth) height s' t' hrep
      cases ht'
      rw [bind_of_ok ht]
      refine ⟨a, _, rfl, hr, hrep', htgt, (image t'.entries).length + 1, ?_⟩
      simp only [image, hcells]
      rw [List.getElem?_append_right (by omega), Nat.add_sub_cancel_left]
      rfl
  | error e s' =>
      rw [hs] at htarget
      obtain ⟨hK, hl | ⟨e', t', ht⟩⟩ := htarget
      · exact ⟨hK, Or.inl hl⟩
      · exact ⟨hK, Or.inr ⟨e', t', bind_of_error ht⟩⟩
  | panic => rw [hs] at htarget; exact htarget
  | diverge => rw [hs] at htarget; exact htarget

theorem br_sim (l : Idx) :
    job.Sim (Rep job (m + 1) [] : TextBuilder F D → Asm → Prop) (Compiler.br l)
      (Asm.visit job.context (.br l)) fun _ _ => Rep job (m + 1) [] := by
  have hasm : ∀ height, (do
      let (label, types) ← Asm.target job.context.returnTy l
      Asm.emit height (.br label)
      Asm.popTypes types.toList
      Asm.markUnreachable) = (do
      let r ← (do
        let (label, types) ← Asm.target job.context.returnTy l
        Asm.emit height (.br label)
        pure (label, types))
      Asm.popTypes r.2.toList
      Asm.markUnreachable) := by
    intro height
    simp only [bind_assoc, pure_bind]
  have hcomp : (Compiler.br l : TextM F D Unit) = (do
      let lblTypes ← (do
        instr Opcode.br
        writeLabelTarget l)
      popResultType lblTypes
      TextBuilder.markUnreachable) := by
    simp only [Compiler.br, bind_assoc]
  refine Simulates.gets_right fun height => ?_
  rw [hasm, hcomp]
  refine Simulates.bind (label_sim (i := AsmInstr.br) l (fun _ => rfl) (fun _ h => h) height)
    fun r a => ?_
  rintro s t ⟨hr, h, -⟩
  subst hr
  exact Simulates.bind (popVals_sim a.2.toList) (fun _ _ => markUnreachable_sim) s t h

theorem brIf_sim (l : Idx) :
    job.Sim (Rep job (m + 1) [] : TextBuilder F D → Asm → Prop) (Compiler.brIf l)
      (Asm.visit job.context (.brIf l)) fun _ _ => Rep job (m + 1) [] := by
  have hasm : ∀ height, (do
      let (label, types) ← Asm.target job.context.returnTy l
      Asm.emit height (.brIf label)
      Asm.popTypes types.toList
      Asm.pushTypes types.toList) = (do
      let r ← (do
        let (label, types) ← Asm.target job.context.returnTy l
        Asm.emit height (.brIf label)
        pure (label, types))
      Asm.popTypes r.2.toList
      Asm.pushTypes r.2.toList) := by
    intro height
    simp only [bind_assoc, pure_bind]
  have hcomp : (Compiler.brIf l : TextM F D Unit) = (do
      let _ ← popStack (.known .i32)
      let lblTypes ← (do
        instr Opcode.brIf
        writeLabelTarget l)
      popResultType lblTypes
      pushResultType lblTypes) := by
    simp only [Compiler.brIf, bind_assoc]
  refine Simulates.gets_right fun height => ?_
  rw [hcomp]
  refine Simulates.bind (popKnown_sim _) fun _ _ => ?_
  rw [hasm]
  refine Simulates.bind (label_sim (i := AsmInstr.brIf) l (fun _ => rfl) (fun _ h => h) height)
    fun r a => ?_
  rintro s t ⟨hr, h, -⟩
  subst hr
  exact Simulates.bind (popVals_sim a.2.toList) (fun _ _ => pushVals_sim a.2.toList) s t h

/-- The branch over the `else` arm, as a step of its own. -/
theorem Asm.else_eq (returnTy : ResultType) (height : Option ℕ) :
    (do
      let (label, _) ← Asm.target returnTy 0
      Asm.emit height (.br label)
      let b ← Asm.top
      if b.kind ≠ .if_ then Asm.reject
      else do
        let b ← Asm.popBlock
        Asm.bindElse b.id
        modify fun t => { t with
          blocks := ⟨.block, b.out, b.out, t.opds.length, false, b.id, b.start⟩ :: t.blocks }) =
      (do
        let _ ← (do
          let (label, types) ← Asm.target returnTy 0
          Asm.emit height (.br label)
          pure (label, types))
        let b ← Asm.top
        if b.kind ≠ .if_ then Asm.reject
        else do
          let b ← Asm.popBlock
          Asm.bindElse b.id
          modify fun t => { t with
            blocks := ⟨.block, b.out, b.out, t.opds.length, false, b.id, b.start⟩ :: t.blocks } :
        AsmM Unit) := by
  simp only [bind_assoc, pure_bind]

theorem Compiler.else_eq :
    (Compiler.else_ : TextM F D Unit) = (do
      let _ ← (do
        instr Opcode.br
        writeLabelTarget 0)
      let (results, brChain) ← popControlAndPatchIf
      pushControl .block results results
      setControlTarget brChain) := by
  simp only [Compiler.else_, bind_assoc]

theorem else_sim (hD : D < 2 ^ 16) :
    job.Sim (Rep job (m + 1) [] : TextBuilder F D → Asm → Prop) Compiler.else_
      (Asm.visit job.context .else_) fun _ _ => Rep job (m + 1) [] := by
  refine Simulates.gets_right fun height => ?_
  rw [Asm.else_eq, Compiler.else_eq]
  refine Simulates.bind (label_sim (i := AsmInstr.br) 0 (fun _ => rfl) (fun _ h => h) height)
    fun r a => ?_
  refine (elseArm_sim hD).weaken (fun s t hst => ?_) fun _ _ _ _ h => h
  obtain ⟨-, h, ⟨b, hb, htgt⟩, k, hk⟩ := hst
  refine ⟨h, ?_⟩
  cases hbs : t.blocks with
  | nil => rw [hbs] at hb; cases hb
  | cons b' bs =>
      obtain rfl : b' = b := by
        rw [hbs] at hb
        simpa using hb
      refine ⟨b', bs, k, a.1, rfl, fun hkind => ⟨hk, ?_⟩⟩
      rcases htgt with hlen | hloop | hdest
      · -- The block of the function is no `if`.
        have hblocks := h.check.blocks
        rw [hbs, BlocksOk] at hblocks
        have hnil : bs = [] := by
          rw [hbs] at hlen
          simpa using hlen.symm
        rw [hblocks.2.1 hnil] at hkind
        cases hkind
      · rw [hloop] at hkind
        cases hkind
      · exact hdest

theorem return_sim :
    job.Sim (Rep job (m + 1) [] : TextBuilder F D → Asm → Prop) Compiler.return_
      (Asm.visit job.context .return_) fun _ _ => Rep job (m + 1) [] := by
  intro s t h
  have hcomp : (Compiler.return_ : TextM F D Unit) s = ((do
      (do
        popVals job.func.returnTy.toList
        pushWords (Asm.instrReturn job.func.returnTy).encode)
      TextBuilder.markUnreachable) : TextM F D Unit) s := by
    unfold Compiler.return_
    rw [bind_of_ok (get_apply s), h.check.func, bind_assoc, instrReturn_eq]
    rfl
  rw [hcomp]
  refine Simulates.bind (emitting_sim ?_) (fun _ _ => markUnreachable_sim) s t h
  exact Simulates.bind (popVals_sim _) fun _ _ => pushEncode_sim (encodable_instrReturn _)

/-! ### Branch tables -/

/-- The last instruction of the listing is a `br_table`. -/
def Asm.InTable (t : Asm) : Prop :=
  ∃ addr n ls height es, t.entries = ⟨addr, .brTable n ls, height⟩ :: es

theorem brTableStart_sim (len : U32) :
    job.Sim (Rep job (m + 1) [] : TextBuilder F D → Asm → Prop) (Compiler.brTableStart len)
      (Asm.visit job.context (.brTableStart len)) fun _ _ s t => Rep job (m + 1) [] s t ∧
        t.InTable := by
  refine Simulates.gets_right fun height => Simulates.bind (popKnown_sim _) fun _ _ => ?_
  rw [instrImm8Or16_eq]
  refine Simulates.ite_limit trivial (fun s t h => h.intact) fun hlen => ?_
  intro s t h
  have hcells : (IrInstr.encodeIndex Opcode.brTable len.toNat).map Cell.word =
      (AsmInstr.brTable len.toNat []).cells := by
    simp [AsmInstr.cells, AsmInstr.head, AsmInstr.labels]
  have hpush := pushWords_sim (p := []) (IrInstr.encodeIndex Opcode.brTable len.toNat) s t h
  rw [List.nil_append, hcells] at hpush
  have henc : (AsmInstr.brTable len.toNat []).Encodable :=
    ⟨by omega, fun l hl => by cases hl⟩
  cases hs : pushWords (IrInstr.encodeIndex Opcode.brTable len.toNat) s with
  | ok a s' =>
      rw [hs] at hpush
      obtain ⟨_, t', ht, hrep⟩ := hpush
      cases ht
      obtain ⟨_, t'', ht', hrep'⟩ := emit_sim henc height s' t hrep
      cases ht'
      exact ⟨(), _, rfl, hrep', _, _, _, _, _, rfl⟩
  | error e s' =>
      rw [hs] at hpush
      obtain ⟨hK, hl | ⟨e', t', ht⟩⟩ := hpush
      · exact ⟨hK, Or.inl hl⟩
      · cases ht
  | panic => rw [hs] at hpush; exact hpush
  | diverge => rw [hs] at hpush; exact hpush

/-- One more label of a `br_table`. -/
theorem tableLabel_sim (l : Idx) :
    job.Sim (fun s t => Rep job (m + 1) [] s t ∧ t.InTable :
        TextBuilder F D → Asm → Prop) (writeLabelTarget l)
      (do
        let (label, types) ← Asm.target job.context.returnTy l
        Asm.emitLabel label
        pure types)
      fun r a s t => r = a ∧ Rep job (m + 1) [] s t ∧ t.InTable := by
  rintro s t ⟨h, addr, k, ls, height, es, hes⟩
  have htarget := writeLabelTarget_sim (p := []) l job.context.returnTy rfl s t h
  cases hs : (writeLabelTarget l : TextM F D ResultType) s with
  | ok r s' =>
      rw [hs] at htarget
      obtain ⟨a, t', ht, hr, hdepth, -, hrep⟩ := htarget
      have hsame : t' = t := by
        unfold Asm.target at ht
        rw [bind_of_ok (get_apply t)] at ht
        obtain ⟨b, t₁, hb, ht⟩ := bind_eq_ok.1 ht
        obtain ⟨-, rfl⟩ := okOr_eq_ok.1 hb
        split at ht
        · cases ht
          rfl
        · split at ht <;> cases ht <;> rfl
      subst hsame
      rw [bind_of_ok ht]
      refine ⟨_, _, rfl, hr, ⟨⟨hrep.check.store, hrep.check.module, hrep.check.func,
        hrep.check.opds, hrep.check.highwater, hrep.check.brTableResult, hrep.check.types,
        hrep.check.blocks⟩, ?_, hrep.depth⟩, ?_⟩
      · have hcode := hrep.code
        refine hcode.commit ?_ ?_
        · rw [hes]
          simp only [List.modifyHead_cons, image, AsmInstr.addLabel, AsmInstr.cells,
            AsmInstr.head, AsmInstr.labels, List.flatMap_append, List.flatMap_singleton,
            List.append_assoc, List.nil_append]
        · intro e he
          have hall := hcode.encodable
          rw [hes] at he hall
          rw [List.modifyHead_cons] at he
          rcases List.mem_cons.1 he with rfl | he
          · obtain ⟨hk, hls⟩ := hall _ List.mem_cons_self
            refine ⟨hk, fun l' hl' => ?_⟩
            rcases List.mem_append.1 hl' with hl' | hl'
            · exact hls l' hl'
            · rw [List.mem_singleton.1 hl']
              exact hdepth
          · exact hall e (List.mem_cons_of_mem _ he)
      · refine ⟨addr, k, ls ++ [a.1], height, es, ?_⟩
        simp only [hes, List.modifyHead_cons, AsmInstr.addLabel]
  | error e s' =>
      rw [hs] at htarget
      obtain ⟨hK, hl | ⟨e', t', ht⟩⟩ := htarget
      · exact ⟨hK, Or.inl hl⟩
      · exact ⟨hK, Or.inr ⟨e', t', bind_of_error ht⟩⟩
  | panic => rw [hs] at htarget; exact htarget
  | diverge => rw [hs] at htarget; exact htarget

theorem Rep.withBrTableResult {s : TextBuilder F D} {t : Asm} (h : Rep job n p s t)
    (r : Option ResultType) :
    Rep job n p { s with brTableResult := r } { t with brTableResult := r } :=
  ⟨⟨h.check.store, h.check.module, h.check.func, h.check.opds, h.check.highwater, rfl,
    h.check.types, h.check.blocks⟩, h.code, h.depth⟩

/-- The label of a `br_table`, as a step of its own. -/
theorem Asm.brTableBranch_eq (ctx : Context) (l : Idx) :
    Asm.visit ctx (.brTableBranch l) = (do
      let types ← (do
        let (label, types) ← Asm.target ctx.returnTy l
        Asm.emitLabel label
        pure types)
      let t ← get
      match t.brTableResult with
      | some other => if other ≠ types then Asm.reject else pure ()
      | none => set { t with brTableResult := some types }) := by
  simp only [bind_assoc, pure_bind]
  rfl

theorem brTableBranch_sim (l : Idx) :
    job.Sim (fun s t => Rep job (m + 1) [] s t ∧ t.InTable :
        TextBuilder F D → Asm → Prop) (Compiler.brTableBranch l)
      (Asm.visit job.context (.brTableBranch l)) fun _ _ s t => Rep job (m + 1) [] s t ∧
        t.InTable := by
  rw [Asm.brTableBranch_eq]
  refine Simulates.bind (tableLabel_sim l) fun r a => ?_
  rintro s t ⟨rfl, h, htable⟩
  unfold checkBrTableResult
  rw [bind_of_ok (get_apply s), bind_of_ok (get_apply t), h.check.brTableResult]
  cases ht : t.brTableResult with
  | none => exact ⟨(), _, rfl, h.withBrTableResult _, htable⟩
  | some other =>
      simp only
      by_cases hne : other ≠ r
      · rw [if_pos hne, if_pos hne]
        exact ⟨h.intact, Or.inr ⟨(), t, rfl⟩⟩
      · rw [if_neg hne, if_neg hne]
        exact ⟨(), t, rfl, h, htable⟩

theorem Asm.brTableFinish_eq (ctx : Context) (l : Idx) :
    Asm.visit ctx (.brTableFinish l) = (do
      let types ← (do
        let (label, types) ← Asm.target ctx.returnTy l
        Asm.emitLabel label
        pure types)
      let t ← get
      match t.brTableResult with
      | some other => if other ≠ types then Asm.reject else set { t with brTableResult := none }
      | none => pure ()
      Asm.popTypes types.toList
      Asm.markUnreachable) := by
  simp only [bind_assoc, pure_bind]
  rfl

theorem brTableFinish_sim (l : Idx) :
    job.Sim (fun s t => Rep job (m + 1) [] s t ∧ t.InTable :
        TextBuilder F D → Asm → Prop) (Compiler.brTableFinish l)
      (Asm.visit job.context (.brTableFinish l)) fun _ _ => Rep job (m + 1) [] := by
  rw [Asm.brTableFinish_eq]
  refine Simulates.bind (tableLabel_sim l) fun r a => ?_
  rintro s t ⟨rfl, h, -⟩
  have hpop : job.Sim (Rep job (m + 1) [] : TextBuilder F D → Asm → Prop) (popVals r.toList)
      (Asm.popTypes r.toList) fun _ _ => Rep job (m + 1) [] := popVals_sim r.toList
  have hend := Simulates.bind hpop fun _ _ => markUnreachable_sim
  unfold checkAndClearBrTableResult
  rw [bind_assoc, bind_of_ok (get_apply s), bind_of_ok (get_apply t), h.check.brTableResult]
  cases ht : t.brTableResult with
  | none => exact hend s t h
  | some other =>
      simp only
      by_cases hne : other ≠ r
      · rw [if_pos hne, if_pos hne]
        exact ⟨h.intact, Or.inr ⟨(), t, rfl⟩⟩
      · rw [if_neg hne, if_neg hne]
        exact hend _ _ (h.withBrTableResult none)

/-! ### Calls -/

/-- The end of the three kinds of calls. -/
theorem emitCall_sim (ty : FuncType) (i : IrInstr) {op imm : U8} {index : U16}
    (hi : i.Encodable) (henc : i.encode = [opWord op imm, index]) :
    job.Sim (Rep job (m + 1) [] : TextBuilder F D → Asm → Prop)
      (Compiler.emitCall ty.params ty.returns op imm index)
      (do
        Asm.popTypes ty.params.reverse
        Asm.pushTypes ty.returns.reverse
        pure i)
      fun _ i s t => i.Encodable ∧ Rep job (m + 1) (i.encode.map Cell.word) s t := by
  have hwords : (do
      instrImm8 op imm
      write16 index : TextM F D Unit) = pushWords i.encode := by
    rw [henc, instrImm8_eq, write16, pushWord_eq, ← pushWords_append]
    rfl
  unfold Compiler.emitCall
  rw [hwords]
  exact Simulates.bind (popVals_sim _) fun _ _ =>
    Simulates.bind (pushVals_sim _) fun _ _ => pushEncode_sim hi

/-- The words of the call of the function behind a reference. -/
def emitRefCall (ty : FuncType) : Ref → TextM F D Unit
  | .module index => Compiler.emitCall ty.params ty.returns Opcode.call 0 index
  | .host module index => Compiler.emitCall ty.params ty.returns Opcode.callHost module index
  | .extern_ module index => Compiler.emitCall ty.params ty.returns Opcode.callExtern module index

theorem call_eq {s : TextBuilder F D} {x : Idx} {ref : Ref}
    (href : s.module.getFuncRef x = some ref) :
    Compiler.call x s = (do
      let ty ← unwrap (s.store.refFuncType? s.module ref)
      emitRefCall ty ref : TextM F D Unit) s := by
  unfold Compiler.call
  rw [bind_of_ok (get_apply s), href, okOr_some, pure_bind]
  cases ref with
  | module index => simp only [Store.refFuncType?, unwrap_bind, bind_assoc, emitRefCall]
  | host module index =>
      simp only [Store.refFuncType?, unwrap_bind, bind_assoc, emitRefCall]
      rfl
  | extern_ module index => simp only [Store.refFuncType?, unwrap_bind, bind_assoc, emitRefCall]

theorem emitRefCall_sim (ty : FuncType) (ref : Ref) :
    job.Sim (Rep job (m + 1) [] : TextBuilder F D → Asm → Prop) (emitRefCall ty ref)
      (do
        Asm.popTypes ty.params.reverse
        Asm.pushTypes ty.returns.reverse
        pure (Asm.callInstr ref))
      fun _ i s t => i.Encodable ∧ Rep job (m + 1) (i.encode.map Cell.word) s t := by
  cases ref with
  | module index => exact emitCall_sim ty (.call index) trivial rfl
  | host module index => exact emitCall_sim ty (.callHost module index) trivial rfl
  | extern_ module index => exact emitCall_sim ty (.callExtern module index) trivial rfl

theorem call_sim (x : Idx) :
    job.Sim (Rep job (m + 1) [] : TextBuilder F D → Asm → Prop) (Compiler.call x)
      (Asm.visit job.context (.call x)) fun _ _ => Rep job (m + 1) [] := by
  refine emitting_sim ?_
  intro s t h
  cases href : job.module.getFuncRef x with
  | none =>
      have hnone : job.context.func? x = none := by
        simp only [Job.context, href]
        rfl
      unfold Compiler.call
      rw [bind_of_ok (get_apply s), h.check.module, href, hnone]
      exact ⟨h.intact, Or.inr ⟨(), t, rfl⟩⟩
  | some ref =>
      rw [call_eq (h.check.module ▸ href), h.check.module, h.check.store]
      cases hty : job.store.refFuncType? job.module ref with
      | none =>
          intro hlinked
          have hsome := hlinked.funcs x ref href
          rw [hty] at hsome
          cases hsome
      | some ty =>
          have hsome : job.context.func? x = some (ref, ty) := by
            simp only [Job.context, href, Option.bind_eq_bind, Option.bind_some, hty]
            rfl
          rw [hsome, okOr_some, pure_bind, unwrap_some, pure_bind]
          exact emitRefCall_sim ty ref s t h

theorem callIndirect_sim (x : Idx) :
    job.Sim (Rep job (m + 1) [] : TextBuilder F D → Asm → Prop) (Compiler.callIndirect x)
      (Asm.visit job.context (.callIndirect x)) fun _ _ => Rep job (m + 1) [] := by
  refine emitting_sim ?_
  intro s t h
  unfold Compiler.callIndirect
  rw [bind_of_ok (get_apply s), h.check.module]
  have htable : job.module.table = none ↔ job.context.table = false := by
    simp [Job.context]
  refine Simulates.ite (R := Rep job (m + 1) []) htable
    (fun _ => Simulates.throw fun s t h => h.intact)
    (fun _ => ?_) s t h
  refine Simulates.bind (popKnown_sim _) fun _ _ => ?_
  refine Simulates.bind (M := fun ty ty' s t => ty = ty' ∧ Rep job (m + 1) [] s t)
    (Simulates.okOr (fun s t h => h.intact) fun ty s t _ h => ⟨rfl, h⟩) fun ty ty' => ?_
  rintro s t ⟨rfl, h⟩
  refine Simulates.bind (popVals_sim _) (fun _ _ => Simulates.bind (pushVals_sim _) fun _ _ => ?_)
    s t h
  refine Simulates.ite_limit trivial (fun s t h => h.intact) fun hx => ?_
  have hwords : (do
      instr Opcode.callIndirect
      write16 (BitVec.ofNat 16 x) : TextM F D Unit) =
        pushWords (IrInstr.callIndirect x).encode := by
    rw [instr_eq, write16, pushWord_eq, ← pushWords_append]
    rfl
  rw [hwords]
  have hlt : (x : ℕ) < 2 ^ 16 := Nat.lt_succ_of_le (Nat.le_of_not_lt hx)
  exact pushEncode_sim (i := .callIndirect x) hlt

/-! ### Parametric and variable instructions -/

theorem drop_sim :
    job.Sim (Rep job (m + 1) [] : TextBuilder F D → Asm → Prop) Compiler.drop
      (Asm.visit job.context .drop) fun _ _ => Rep job (m + 1) [] := by
  refine emitting_sim (Simulates.bind popStackT_sim fun o o' => ?_)
  rintro s t ⟨rfl, h⟩
  have hwords : (instrImm8 Opcode.drop o.valType.tag : TextM F D Unit) =
      pushWords (IrInstr.drop o.valType).encode := instrImm8_eq _ _
  rw [hwords]
  exact pushEncode_sim (i := .drop o.valType) trivial s t h

theorem select_sim :
    job.Sim (Rep job (m + 1) [] : TextBuilder F D → Asm → Prop) Compiler.select
      (Asm.visit job.context .select) fun _ _ => Rep job (m + 1) [] := by
  refine emitting_sim (Simulates.bind (popKnown_sim _) fun _ _ => ?_)
  refine Simulates.bind popStackT_sim fun t1 t1' => ?_
  rintro s t ⟨rfl, h⟩
  refine Simulates.bind (popStack_sim t1) (fun t2 t2' => ?_) s t h
  rintro s t ⟨rfl, h⟩
  refine Simulates.bind (pushStack_sim t2) (fun _ _ => ?_) s t h
  have hwords : (instrImm8 Opcode.select t2.valType.tag : TextM F D Unit) =
      pushWords (IrInstr.select t2.valType).encode := instrImm8_eq _ _
  rw [hwords]
  exact pushEncode_sim (i := .select t2.valType) trivial

theorem getLocal_sim (x : Idx) :
    job.Sim (Rep job n p : TextBuilder F D → Asm → Prop) (getLocal x)
      (okOr (job.context.local? x) () : AsmM LocalVariable) fun l l' s t => l = l' ∧
        Rep job n p s t := by
  intro s t h
  unfold getLocal
  rw [bind_of_ok (get_apply s), h.check.module, h.check.func]
  have hlocal : job.context.local? x = localOf job.module job.func x := rfl
  rw [hlocal, localOf]
  by_cases hx : 0xFFFF < x
  · rw [if_pos hx, if_pos hx]
    exact ⟨h.intact, Or.inr ⟨(), t, rfl⟩⟩
  · rw [if_neg hx, if_neg hx]
    cases hty : job.module.types[job.func.ty]? with
    | none => exact ⟨h.intact, Or.inr ⟨(), t, rfl⟩⟩
    | some ty =>
        rw [okOr_some, pure_bind]
        simp only [Option.bind_eq_bind, Option.bind_some]
        cases hfind : findVariable ty job.func x with
        | error e => exact ⟨h.intact, Or.inr ⟨(), t, rfl⟩⟩
        | ok l => exact ⟨l, t, rfl, rfl, h⟩

/-- An access to a local variable. -/
theorem withLocal_sim (x : Idx) (ins outs : ValType → List ValType) (i : LocalVariable → IrInstr)
    {body : LocalVariable → TextM F D Unit} (hi : ∀ l, (i l).Encodable)
    (hbody : ∀ l, body l = (do
      popVals (ins l.ty)
      pushVals (outs l.ty)
      pushWords (i l).encode)) :
    job.Sim (Rep job (m + 1) [] : TextBuilder F D → Asm → Prop) (getLocal x >>= body)
      (Asm.withLocal job.context x ins outs i) fun _ _ => Rep job (m + 1) [] := by
  refine emitting_sim (Simulates.bind (getLocal_sim x) fun l l' => ?_)
  rintro s t ⟨rfl, h⟩
  rw [hbody]
  exact Simulates.bind (popVals_sim _)
    (fun _ _ => Simulates.bind (pushVals_sim _) fun _ _ => pushEncode_sim (hi l)) s t h

theorem localWords_eq (op : U8) (l : LocalVariable) :
    (do
      instrImm8 op l.ty.tag
      write16 l.frameOffset : TextM F D Unit) = pushWords [opWord op l.ty.tag, l.frameOffset] := by
  rw [instrImm8_eq, write16, pushWord_eq, ← pushWords_append]
  rfl

theorem localGet_sim (x : Idx) :
    job.Sim (Rep job (m + 1) [] : TextBuilder F D → Asm → Prop) (Compiler.localGet x)
      (Asm.visit job.context (.localGet x)) fun _ _ => Rep job (m + 1) [] := by
  refine withLocal_sim x (fun _ => []) (fun t => [t]) .localGet (fun _ => trivial) fun l => ?_
  simp only [popVals, pushVals, pure_bind, bind_assoc, localWords_eq]
  rfl

theorem localSet_sim (x : Idx) :
    job.Sim (Rep job (m + 1) [] : TextBuilder F D → Asm → Prop) (Compiler.localSet x)
      (Asm.visit job.context (.localSet x)) fun _ _ => Rep job (m + 1) [] := by
  refine withLocal_sim x (fun t => [t]) (fun _ => []) .localSet (fun _ => trivial) fun l => ?_
  simp only [popVals, pushVals, pure_bind, bind_assoc, localWords_eq]
  rfl

theorem localTee_sim (x : Idx) :
    job.Sim (Rep job (m + 1) [] : TextBuilder F D → Asm → Prop) (Compiler.localTee x)
      (Asm.visit job.context (.localTee x)) fun _ _ => Rep job (m + 1) [] := by
  refine withLocal_sim x (fun t => [t]) (fun t => [t]) .localTee (fun _ => trivial) fun l => ?_
  simp only [popVals, pushVals, pure_bind, bind_assoc, localWords_eq]
  rfl

/-- A global of another module is looked up without a check. -/
theorem getGlobal_eq {s : TextBuilder F D} {x : Idx} {ref : Ref}
    (href : s.module.getGlobalRef x = some ref) :
    (∃ index, ref = .module index ∧ getGlobal x s =
      (okOr (s.store.refGlobal? s.module ref) .globalIdxOutOfRange : TextM F D GlobalVariable) s) ∨
    getGlobal x s = (unwrap (s.store.refGlobal? s.module ref) : TextM F D GlobalVariable) s := by
  unfold getGlobal
  rw [bind_of_ok (get_apply s), href, okOr_some, pure_bind]
  cases ref with
  | module index =>
      refine Or.inl ⟨index, rfl, ?_⟩
      simp only [Store.refGlobal?]
      cases s.module.globals[index.toNat]? <;> rfl
  | host module index =>
      refine Or.inr ?_
      simp only [Store.refGlobal?, unwrap_bind]
      rfl
  | extern_ module index =>
      refine Or.inr ?_
      simp only [Store.refGlobal?, unwrap_bind]
      rfl

theorem getGlobal_sim (x : Idx) :
    job.Sim (Rep job n p : TextBuilder F D → Asm → Prop) (getGlobal x)
      (okOr (job.context.global? x) () : AsmM GlobalVariable) fun g g' s t => g = g' ∧
        Rep job n p s t := by
  intro s t h
  cases href : job.module.getGlobalRef x with
  | none =>
      have hnone : job.context.global? x = none := by
        simp only [Job.context, href]
        rfl
      unfold getGlobal
      rw [bind_of_ok (get_apply s), h.check.module, href, hnone]
      exact ⟨h.intact, Or.inr ⟨(), t, rfl⟩⟩
  | some ref =>
      have hglobal : job.context.global? x = job.store.refGlobal? job.module ref := by
        simp only [Job.context, href, Option.bind_eq_bind, Option.bind_some]
      have heq := getGlobal_eq (s := s) (h.check.module ▸ href)
      rw [h.check.module, h.check.store] at heq
      rw [hglobal]
      cases hg : job.store.refGlobal? job.module ref with
      | none =>
          rw [hg] at heq
          rcases heq with ⟨_, -, heq⟩ | heq
          · rw [heq]
            exact ⟨h.intact, Or.inr ⟨(), t, rfl⟩⟩
          · rw [heq]
            intro hlinked
            have hsome := hlinked.globals x ref href
            rw [hg] at hsome
            cases hsome
      | some g =>
          rw [hg] at heq
          rcases heq with ⟨_, -, heq⟩ | heq
          · rw [heq]
            exact ⟨g, t, rfl, rfl, h⟩
          · rw [heq]
            exact ⟨g, t, rfl, rfl, h⟩

theorem globalIndex_eq (op : U8) (index : U16) :
    (instrImm8Or16 op index.toNat : TextM F D Unit) =
      pushWords (IrInstr.encodeIndex op index.toNat) := by
  have hlt := index.isLt
  rw [instrImm8Or16_eq, if_neg (by omega)]

theorem externWords_eq (op module : U8) (index : U16) :
    (do
      instrImm8 op module
      write16 index : TextM F D Unit) = pushWords [opWord op module, index] := by
  rw [instrImm8_eq, write16, pushWord_eq, ← pushWords_append]
  rfl

theorem globalGetWords_eq (ref : Ref) :
    (Compiler.instrGlobal Opcode.globalGet Opcode.globalGetExtern Opcode.globalGetHost ref :
      TextM F D Unit) = pushWords (Asm.globalGetInstr ref).encode := by
  cases ref with
  | module index => exact globalIndex_eq _ index
  | host module index => exact externWords_eq _ module index
  | extern_ module index => exact externWords_eq _ module index

theorem globalSetWords_eq (ref : Ref) :
    (Compiler.instrGlobal Opcode.globalSet Opcode.globalSetExtern Opcode.globalSetHost ref :
      TextM F D Unit) = pushWords (Asm.globalSetInstr ref).encode := by
  cases ref with
  | module index => exact globalIndex_eq _ index
  | host module index => exact externWords_eq _ module index
  | extern_ module index => exact externWords_eq _ module index

theorem globalGet_sim (x : Idx) :
    job.Sim (Rep job (m + 1) [] : TextBuilder F D → Asm → Prop) (Compiler.globalGet x)
      (Asm.visit job.context (.globalGet x)) fun _ _ => Rep job (m + 1) [] := by
  refine emitting_sim (Simulates.bind (getGlobal_sim x) fun g g' => ?_)
  rintro s t ⟨rfl, h⟩
  have hi : (Asm.globalGetInstr g.reference).Encodable := by
    cases g.reference <;> trivial
  have hpush : job.Sim (Rep job (m + 1) [] : TextBuilder F D → Asm → Prop) (pushVals [g.ty])
      (Asm.pushTypes [g.ty]) fun _ _ => Rep job (m + 1) [] := pushVals_sim [g.ty]
  simp only [pushVals, bind_pure_unit] at hpush
  rw [globalGetWords_eq]
  exact Simulates.bind hpush (fun _ _ => pushEncode_sim hi) s t h

theorem globalSet_sim (x : Idx) :
    job.Sim (Rep job (m + 1) [] : TextBuilder F D → Asm → Prop) (Compiler.globalSet x)
      (Asm.visit job.context (.globalSet x)) fun _ _ => Rep job (m + 1) [] := by
  refine emitting_sim (Simulates.bind (getGlobal_sim x) fun g g' => ?_)
  rintro s t ⟨rfl, h⟩
  have hi : (Asm.globalSetInstr g.reference).Encodable := by
    cases g.reference <;> trivial
  have hpop : job.Sim (Rep job (m + 1) [] : TextBuilder F D → Asm → Prop) (popVals [g.ty])
      (Asm.popTypes [g.ty]) fun _ _ => Rep job (m + 1) [] := popVals_sim [g.ty]
  refine Simulates.ite (R := Rep job (m + 1) []) Iff.rfl
    (fun _ => Simulates.throw fun s t h => h.intact) (fun _ => ?_) s t h
  have hcomp : (do
      let _ ← popStack (.known g.ty)
      Compiler.instrGlobal Opcode.globalSet Opcode.globalSetExtern Opcode.globalSetHost
        g.reference : TextM F D Unit) = (do
      popVals [g.ty]
      pushWords (Asm.globalSetInstr g.reference).encode) := by
    simp only [popVals, bind_assoc, pure_bind, globalSetWords_eq]
  rw [hcomp]
  exact Simulates.bind hpop fun _ _ => pushEncode_sim hi

/-! ### Memory instructions -/

theorem memory_none_iff (job : Job) : job.module.memory = none ↔ job.context.memory = false := by
  simp [Job.context]

/-- An instruction on the memory: the check of the memory, the types, and a last
check with the instruction. -/
theorem onMemory_sim (ins outs : List ValType) (ok : Bool) {i : IrInstr} {x : TextM F D Unit}
    (hx : job.Sim (Rep job (m + 1) [] : TextBuilder F D → Asm → Prop) x
      (if ok = false then Asm.reject else pure i)
      fun _ i s t => i.Encodable ∧ Rep job (m + 1) (i.encode.map Cell.word) s t) :
    job.Sim (Rep job (m + 1) [] : TextBuilder F D → Asm → Prop)
      (do
        Compiler.checkMemoryDefined
        Compiler.validate ins outs
        x)
      (Asm.onMemory job.context ins outs ok i) fun _ _ => Rep job (m + 1) [] := by
  refine emitting_sim ?_
  intro s t h
  unfold Compiler.checkMemoryDefined
  rw [bind_assoc, bind_of_ok (get_apply s), h.check.module]
  have hmem := memory_none_iff job
  by_cases hnone : job.module.memory = none
  · rw [if_pos hnone, if_pos (hmem.1 hnone)]
    exact ⟨h.intact, Or.inr ⟨(), t, rfl⟩⟩
  · rw [if_neg hnone, if_neg (fun hc => hnone (hmem.2 hc)), pure_bind, Compiler.validate,
      bind_assoc]
    exact Simulates.bind (popVals_sim ins)
      (fun _ _ => Simulates.bind (pushVals_sim outs) fun _ _ => hx) s t h

/-- The end of a load or a store. -/
theorem memArg_sim {op : U8} {maxAlign : ℕ} (hmax : maxAlign < 0xFF) (a : MemArg) {i : IrInstr}
    (hi : a.align.toNat < 0xFF → i.Encodable)
    (henc : i.encode = opWord op (a.align.setWidth 8) :: words32 a.offset) :
    job.Sim (Rep job (m + 1) [] : TextBuilder F D → Asm → Prop)
      (if maxAlign < a.align.toNat then throw ValidationError.alignmentLargerThanType
        else instrMem op a)
      (if decide (a.align.toNat ≤ maxAlign) = false then Asm.reject else pure i)
      fun _ i s t => i.Encodable ∧ Rep job (m + 1) (i.encode.map Cell.word) s t := by
  refine Simulates.ite ?_ (fun _ => Simulates.throw fun s t h => h.intact) fun halign => ?_
  · rw [decide_eq_false_iff_not, Nat.not_le]
  · have hlt : ¬0xFF ≤ a.align.toNat := by omega
    unfold instrMem
    rw [if_neg hlt, instrImm8_eq, write32_eq, ← pushWords_append, List.singleton_append, ← henc]
    exact pushEncode_sim (hi (by omega))

theorem load_sim (op : LoadOp) (a : MemArg) :
    job.Sim (Rep job (m + 1) [] : TextBuilder F D → Asm → Prop) (Compiler.load op a)
      (Asm.visit job.context (.load op a)) fun _ _ => Rep job (m + 1) [] := by
  have hmax : op.maxAlign < 0xFF := by cases op <;> decide
  exact onMemory_sim [.i32] [op.result] _ (memArg_sim hmax a (fun h => h) rfl)

theorem store_sim (op : StoreOp) (a : MemArg) :
    job.Sim (Rep job (m + 1) [] : TextBuilder F D → Asm → Prop) (Compiler.store op a)
      (Asm.visit job.context (.store op a)) fun _ _ => Rep job (m + 1) [] := by
  have hmax : op.maxAlign < 0xFF := by cases op <;> decide
  exact onMemory_sim [op.operand, .i32] [] _ (memArg_sim hmax a (fun h => h) rfl)

theorem memorySize_sim :
    job.Sim (Rep job (m + 1) [] : TextBuilder F D → Asm → Prop) Compiler.memorySize
      (Asm.visit job.context .memorySize) fun _ _ => Rep job (m + 1) [] := by
  have hwords : (instr Opcode.memorySize : TextM F D Unit) =
      pushWords IrInstr.memorySize.encode := instr_eq _
  refine onMemory_sim [] [.i32] true ?_
  rw [hwords]
  exact pushEncode_sim (i := .memorySize) trivial

theorem memoryGrow_sim :
    job.Sim (Rep job (m + 1) [] : TextBuilder F D → Asm → Prop) Compiler.memoryGrow
      (Asm.visit job.context .memoryGrow) fun _ _ => Rep job (m + 1) [] := by
  refine onMemory_sim [.i32] [.i32] true ?_
  intro s t h
  have hwords : (instr Opcode.memoryGrow : TextM F D Unit) =
      pushWords IrInstr.memoryGrow.encode := instr_eq _
  rw [bind_of_ok (get_apply s)]
  by_cases hgrow : s.code.options.allowMemoryGrow = true
  · rw [if_pos hgrow, hwords]
    exact pushEncode_sim (i := .memoryGrow) trivial s t h
  · rw [if_neg hgrow]
    exact ⟨h.intact, Or.inl trivial⟩

/-! ### Numeric instructions -/

theorem instrImm8Or32_eq (n : U32) :
    (instrImm8Or32 Opcode.i32Const n : TextM F D Unit) = pushWords (IrInstr.i32Const n).encode := by
  by_cases h : n.toNat < 0xFF
  · rw [instrImm8Or32, IrInstr.encode, if_pos h, if_pos h]
    exact instrImm8_eq _ _
  · rw [instrImm8Or32, IrInstr.encode, if_neg h, if_neg h, instrImm8_eq, write32_eq,
      ← pushWords_append]
    rfl

theorem instrImm8Or64_eq (n : U64) :
    (instrImm8Or64 Opcode.i64Const n : TextM F D Unit) = pushWords (IrInstr.i64Const n).encode := by
  by_cases h : n.toNat < 0xFF
  · rw [instrImm8Or64, IrInstr.encode, if_pos h, if_pos h]
    exact instrImm8_eq _ _
  · rw [instrImm8Or64, IrInstr.encode, if_neg h, if_neg h, instrImm8_eq, write64_eq,
      ← pushWords_append]
    rfl

theorem f32ConstWords_eq (z : U32) :
    (do
      instr Opcode.f32Const
      TextBuilder.write32 z : TextM F D Unit) = pushWords (IrInstr.f32Const z).encode := by
  rw [instr_eq, write32_eq, ← pushWords_append]
  rfl

theorem f64ConstWords_eq (z : U64) :
    (do
      instr Opcode.f64Const
      write64 z : TextM F D Unit) = pushWords (IrInstr.f64Const z).encode := by
  rw [instr_eq, write64_eq, ← pushWords_append]
  rfl

/-- A reinterpretation changes the types only. -/
theorem reinterpret_sim (op : ReinterpretOp) :
    job.Sim (Rep job (m + 1) [] : TextBuilder F D → Asm → Prop) (Compiler.reinterpret op)
      (Asm.visit job.context (.reinterpret op)) fun _ _ => Rep job (m + 1) [] :=
  Simulates.bind (popVals_sim _) fun _ _ => pushVals_sim _

/-! ### The visitor -/

/-- The representation after an instruction at a block depth. -/
def RepAfter (job : Job) (next : Option ℕ) : TextBuilder F D → Asm → Prop :=
  match next with
  | some d => Rep job (d + 1) []
  | none => Rep job 0 []

theorem visit_sim (hD : D < 2 ^ 16) {d : ℕ} {i : WasmInstr}
    (hi : i.Single d) :
    job.Sim (Rep job (d + 1) [] : TextBuilder F D → Asm → Prop) (Compiler.visit i)
      (Asm.visit job.context i) fun _ _ => RepAfter job (i.depthAfter d) := by
  cases i with
  | unreachable => exact unreachable_sim
  | nop => exact Simulates.pure fun s t h => h
  | enterBlock ty => exact pushControl_block_sim ty ty hD
  | loop_ ty => exact loop_sim ty hD
  | if_ ty => exact if_sim ty hD
  | else_ => exact else_sim hD
  | exitBlock =>
      obtain ⟨d, rfl⟩ : ∃ d', d = d' + 1 := ⟨d - 1, (Nat.succ_pred_eq_of_pos hi).symm⟩
      exact exitBlock_sim
  | finish =>
      obtain rfl : d = 0 := hi
      exact finish_sim
  | br l => exact br_sim l
  | brIf l => exact brIf_sim l
  | brTableStart len => exact hi.elim
  | brTableBranch l => exact hi.elim
  | brTableFinish l => exact hi.elim
  | return_ => exact return_sim
  | call x => exact call_sim x
  | callIndirect x => exact callIndirect_sim x
  | drop => exact drop_sim
  | select => exact select_sim
  | localGet x => exact localGet_sim x
  | localSet x => exact localSet_sim x
  | localTee x => exact localTee_sim x
  | globalGet x => exact globalGet_sim x
  | globalSet x => exact globalSet_sim x
  | load op a => exact load_sim op a
  | store op a => exact store_sim op a
  | memorySize => exact memorySize_sim
  | memoryGrow => exact memoryGrow_sim
  | i32Const n => exact fixed_sim (i := .i32Const n) [] [.i32] trivial (instrImm8Or32_eq n)
  | i64Const n => exact fixed_sim (i := .i64Const n) [] [.i64] trivial (instrImm8Or64_eq n)
  | f32Const z => exact fixed_sim (i := .f32Const z) [] [.f32] trivial (f32ConstWords_eq z)
  | f64Const z => exact fixed_sim (i := .f64Const z) [] [.f64] trivial (f64ConstWords_eq z)
  | num op => exact fixed_sim (i := .num op) op.params [op.result] trivial (instr_eq op.opcode)
  | sat op =>
      exact fixed_sim (i := .sat op) [op.operand] [op.result] trivial (instrImm8_eq _ op.sub)
  | reinterpret op => exact reinterpret_sim op

end SpaceWasm
