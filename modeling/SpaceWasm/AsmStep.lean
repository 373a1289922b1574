import Mathlib.Data.List.Infix
import SpaceWasm.Assembler

/-!
# What a call of the assembler does

Every call that succeeds is one of a dozen steps. A step says which instruction
it emits, what it does to the operands and to the open blocks, and which
addresses it binds. The invariants of the listing are proved once for each step.
-/

namespace SpaceWasm

open Fallible

/-- An instruction of the body, the IR instruction for it, and the types this one
pops, topmost first, and pushes. -/
inductive Context.Emits (ctx : Context) :
    WasmInstr → IrInstr → List ValType → List ValType → Prop where
  | call {x : Idx} {ref : Ref} {ty : FuncType} : ctx.func? x = some (ref, ty) →
      ctx.Emits (.call x) (Asm.callInstr ref) ty.params.reverse ty.returns.reverse
  | callIndirect {x : Idx} {ty : FuncType} : ctx.table = true → ctx.types[x]? = some ty →
      ctx.Emits (.callIndirect x) (.callIndirect x) (.i32 :: ty.params.reverse) ty.returns
  | drop {ty : ValType} : ctx.Emits .drop (.drop ty) [ty] []
  | select {ty : ValType} : ctx.Emits .select (.select ty) [.i32, ty, ty] [ty]
  | localGet {x : Idx} {l : LocalVariable} : ctx.local? x = some l →
      ctx.Emits (.localGet x) (.localGet l) [] [l.ty]
  | localSet {x : Idx} {l : LocalVariable} : ctx.local? x = some l →
      ctx.Emits (.localSet x) (.localSet l) [l.ty] []
  | localTee {x : Idx} {l : LocalVariable} : ctx.local? x = some l →
      ctx.Emits (.localTee x) (.localTee l) [l.ty] [l.ty]
  | globalGet {x : Idx} {g : GlobalVariable} : ctx.global? x = some g →
      ctx.Emits (.globalGet x) (Asm.globalGetInstr g.reference) [] [g.ty]
  | globalSet {x : Idx} {g : GlobalVariable} : ctx.global? x = some g → g.mutable = true →
      ctx.Emits (.globalSet x) (Asm.globalSetInstr g.reference) [g.ty] []
  | load {op : LoadOp} {m : MemArg} : ctx.memory = true → m.align.toNat ≤ op.maxAlign →
      ctx.Emits (.load op m) (.load op m) [.i32] [op.result]
  | store {op : StoreOp} {m : MemArg} : ctx.memory = true → m.align.toNat ≤ op.maxAlign →
      ctx.Emits (.store op m) (.store op m) [op.operand, .i32] []
  | memorySize : ctx.memory = true → ctx.Emits .memorySize .memorySize [] [.i32]
  | memoryGrow : ctx.memory = true → ctx.Emits .memoryGrow .memoryGrow [.i32] [.i32]
  | i32Const {n : U32} : ctx.Emits (.i32Const n) (.i32Const n) [] [.i32]
  | i64Const {n : U64} : ctx.Emits (.i64Const n) (.i64Const n) [] [.i64]
  | f32Const {z : U32} : ctx.Emits (.f32Const z) (.f32Const z) [] [.f32]
  | f64Const {z : U64} : ctx.Emits (.f64Const z) (.f64Const z) [] [.f64]
  | num {op : NumOp} : ctx.Emits (.num op) (.num op) op.params [op.result]
  | sat {op : SatOp} : ctx.Emits (.sat op) (.sat op) [op.operand] [op.result]

/-- An instruction that emits nothing and its types. -/
inductive Context.Retypes (ctx : Context) : WasmInstr → List ValType → List ValType → Prop where
  | nop : ctx.Retypes .nop [] []
  | reinterpret {op : ReinterpretOp} : ctx.Retypes (.reinterpret op) [op.operand] [op.result]

/-! ### The words of a list of operands -/

theorem heightWords_append_le (l m : List OperandType) :
    heightWords l ≤ heightWords (l ++ m) := by
  induction l with
  | nil => exact Nat.zero_le _
  | cons o l ih =>
      cases o with
      | unknown => exact Nat.le_refl _
      | known ty => exact Nat.add_le_add_left ih _

theorem heightWords_reverse_le {l m : List OperandType} (h : l <:+ m) :
    heightWords l.reverse ≤ heightWords m.reverse := by
  obtain ⟨k, rfl⟩ := h
  rw [List.reverse_append]
  exact heightWords_append_le _ _

/-- Known operands on top of known ones. -/
theorem heightWords_append {l m : List OperandType} (h : .unknown ∉ l) :
    heightWords (l ++ m) = heightWords l + heightWords m := by
  induction l with
  | nil => simp [heightWords]
  | cons o l ih =>
      rw [List.mem_cons, not_or] at h
      cases o with
      | unknown => exact absurd rfl h.1
      | known ty => rw [List.cons_append, heightWords, heightWords, ih h.2, Nat.add_assoc]

theorem heightWords_known (ts : List ValType) :
    heightWords (ts.map OperandType.known) = wordsOf ts := by
  induction ts with
  | nil => rfl
  | cons t ts ih => rw [List.map_cons, heightWords, ih, wordsOf_cons]

namespace Asm

variable {ctx : Context} {t t' : Asm} {ins : List ValType}

/-! ### Operands -/

/-- The innermost block can be reached, and every operand is known. -/
def Certain (t : Asm) : Prop :=
  (∀ b ∈ t.blocks.head?, b.unreachable = false) ∧ OperandType.unknown ∉ t.opds

/-- Popping operands of the types `ins` leaves `opds`. -/
structure Pops (t : Asm) (ins : List ValType) (opds : List OperandType) : Prop where
  suffix : opds <:+ t.opds
  floor : ∀ b ∈ t.blocks.head?, b.height ≤ t.opds.length → b.height ≤ opds.length
  exact_ : t.Certain → t.opds = ins.map .known ++ opds

theorem Pops.nil (t : Asm) : t.Pops [] t.opds := ⟨List.suffix_rfl, fun _ _ h => h, fun _ => rfl⟩

/-- Only the blocks and the operands matter. -/
theorem Pops.congr {opds : List OperandType} (h : t.Pops ins opds) (hb : t'.blocks = t.blocks)
    (ho : t'.opds = t.opds) : t'.Pops ins opds := by
  refine ⟨ho ▸ h.suffix, fun b hb' => ?_, fun hc => ?_⟩
  · rw [ho]
    exact h.floor b (hb ▸ hb')
  · rw [ho]
    exact h.exact_ ⟨hb ▸ hc.1, ho ▸ hc.2⟩

theorem Certain.withOpds {opds : List OperandType} (h : t.Certain) (hs : opds <:+ t.opds) :
    Certain { t with opds := opds } :=
  ⟨h.1, fun hmem => h.2 (hs.subset hmem)⟩

theorem Pops.append {opds opds' : List OperandType} {ins' : List ValType} (h : t.Pops ins opds)
    (h' : Pops { t with opds := opds } ins' opds') : t.Pops (ins ++ ins') opds' := by
  refine ⟨h'.suffix.trans h.suffix, fun b hb hle => ?_, fun hc => ?_⟩
  · exact h'.floor b hb (h.floor b hb hle)
  · rw [h.exact_ hc, List.map_append, List.append_assoc]
    congr 1
    exact h'.exact_ (hc.withOpds h.suffix)

theorem popOpd_pops {o : OperandType} (h : popOpd t = .ok o t') :
    ∃ opds, t' = { t with opds := opds } ∧ t.Pops [o.valType] opds ∧
      (t.Certain → o = .known o.valType) := by
  obtain ⟨b, bs, hb, ⟨hzero, hun, rfl, rfl⟩ | ⟨hne, opds, hopds, rfl⟩⟩ := popOpd_eq_ok h
  · have hnot : ¬t'.Certain := by
      intro hc
      have := hc.1 b (by rw [hb]; rfl)
      rw [hun] at this
      cases this
    exact ⟨t'.opds, rfl, ⟨List.suffix_rfl, fun _ _ h => h, fun hc => absurd hc hnot⟩,
      fun hc => absurd hc hnot⟩
  · have hknown : t.Certain → o = .known o.valType := by
      intro hc
      cases o with
      | unknown => exact absurd (by rw [hopds]; exact List.mem_cons_self) hc.2
      | known ty => rfl
    refine ⟨opds, rfl, ⟨?_, ?_, ?_⟩, hknown⟩
    · rw [hopds]
      exact List.suffix_cons o opds
    · intro b' hb' hle
      rw [hb, List.head?_cons, Option.mem_some_iff] at hb'
      subst hb'
      rw [hopds, List.length_cons] at hne hle
      omega
    · intro hc
      rw [hopds, List.map_cons, List.map_nil, ← hknown hc]
      rfl

/-- An operand that is expected to be known. -/
theorem popExpect_pops {expect o : OperandType} (h : popExpect expect t = .ok o t') :
    ∃ opds, t' = { t with opds := opds } ∧ t.Pops [o.valType] opds ∧
      (t.Certain → o = .known o.valType) ∧ (expect ≠ .unknown → o = expect) := by
  obtain ⟨actual, hpop, hcases⟩ := popExpect_eq_ok h
  obtain ⟨opds, rfl, hpops, hknown⟩ := popOpd_pops hpop
  rcases hcases with ⟨rfl, rfl⟩ | ⟨hne, rfl, hexp⟩
  · have hnot : ¬t.Certain := fun hc => by cases hknown hc
    exact ⟨opds, rfl, ⟨hpops.suffix, hpops.floor, fun hc => absurd hc hnot⟩,
      fun hc => absurd hc hnot, fun _ => rfl⟩
  · refine ⟨opds, rfl, hpops, hknown, fun hu => ?_⟩
    rcases hexp with hexp | hexp
    · exact absurd hexp hu
    · exact hexp.symm

theorem popKnown_pops {ty : ValType} {o : OperandType}
    (h : popExpect (.known ty) t = .ok o t') :
    ∃ opds, t' = { t with opds := opds } ∧ t.Pops [ty] opds := by
  obtain ⟨opds, rfl, hpops, -, ho⟩ := popExpect_pops h
  obtain rfl := ho (by intro hc; cases hc)
  exact ⟨opds, rfl, hpops⟩

theorem popTypes_pops {u : Unit} (h : popTypes ins t = .ok u t') :
    ∃ opds, t' = { t with opds := opds } ∧ t.Pops ins opds := by
  induction ins generalizing t with
  | nil =>
      obtain ⟨-, rfl⟩ := pure_eq_ok.1 h
      exact ⟨t.opds, rfl, Pops.nil t⟩
  | cons ty ins ih =>
      obtain ⟨o, t₁, hpop, h⟩ := bind_eq_ok.1 h
      obtain ⟨opds₁, rfl, hpops₁⟩ := popKnown_pops hpop
      obtain ⟨opds, rfl, hpops⟩ := ih h
      exact ⟨opds, rfl, hpops₁.append hpops⟩

/-- Operands are pushed onto `opds`: the new high-water mark. -/
structure Pushed (t : Asm) (opds : List OperandType) (hw : ℕ) : Prop where
  le : t.highwater ≤ hw
  words : t.words ≤ t.highwater → heightWords opds.reverse ≤ hw

theorem Pushed.of_suffix {opds : List OperandType} (h : opds <:+ t.opds) :
    t.Pushed opds t.highwater :=
  ⟨Nat.le_refl _, fun hw => Nat.le_trans (heightWords_reverse_le h) hw⟩

theorem pushOpd_apply (o : OperandType) (t : Asm) :
    pushOpd o t = .ok () { t with
      opds := o :: t.opds
      highwater := max (heightWords (o :: t.opds).reverse) t.highwater } := rfl

theorem pushTypes_pushed {outs : List ValType} {u : Unit} (h : pushTypes outs t = .ok u t') :
    ∃ hw, t' = { t with opds := (outs.map .known).reverse ++ t.opds, highwater := hw } ∧
      t.Pushed ((outs.map .known).reverse ++ t.opds) hw := by
  induction outs generalizing t with
  | nil =>
      obtain ⟨-, rfl⟩ := pure_eq_ok.1 h
      exact ⟨t.highwater, rfl, Nat.le_refl _, fun h => h⟩
  | cons ty outs ih =>
      rw [pushTypes, bind_of_ok (pushOpd_apply _ t)] at h
      obtain ⟨hw, rfl, hpushed⟩ := ih h
      have heq : ((ty :: outs).map OperandType.known).reverse ++ t.opds =
          (outs.map OperandType.known).reverse ++ (.known ty :: t.opds) := by
        rw [List.map_cons, List.reverse_cons, List.append_assoc, List.singleton_append]
      rw [heq]
      exact ⟨hw, rfl, Nat.le_trans (Nat.le_max_right _ _) hpushed.le,
        fun _ => hpushed.words (Nat.le_max_left _ _)⟩

/-- Pops, and then pushes. -/
theorem Pushed.after_pops {opds opds' : List OperandType} {hw : ℕ} (h : opds <:+ t.opds)
    (hp : Pushed { t with opds := opds } opds' hw) : t.Pushed opds' hw :=
  ⟨hp.le, fun hle => hp.words (Nat.le_trans (heightWords_reverse_le h) hle)⟩

/-! ### Emitting and blocks -/

/-- An instruction emitted with the current height. -/
def push (t : Asm) (i : AsmInstr) : Asm := { t with entries := ⟨t.here, i, t.height⟩ :: t.entries }

/-- One more label for the last instruction. -/
def addLabel (t : Asm) (label : Label) : Asm :=
  { t with entries := t.entries.modifyHead fun e => { e with instr := e.instr.addLabel label } }

/-- The rest of the innermost block cannot be reached. -/
def dead (t : Asm) : Asm :=
  match t.blocks with
  | [] => t
  | b :: bs => { t with
      opds := t.opds.drop (t.opds.length - b.height)
      blocks := { b with unreachable := true } :: bs }

/-- A block that is opened. -/
def opened (kind : BlockKind) (label out : ResultType) (t : Asm) : Asm :=
  { t with
    blocks := ⟨kind, label, out, t.opds.length, false, t.nextId, t.here⟩ :: t.blocks
    nextId := t.nextId + 1 }

theorem pushBlock_apply (kind : BlockKind) (label out : ResultType) (t : Asm) :
    pushBlock kind label out t = .ok () (t.opened kind label out) := rfl

/-- The end of a block is bound to the current address, and with it the missing
`else` arm of an `if`. -/
def bound (t : Asm) (b : Block) : Asm := { t with
  ends := Function.update t.ends b.id (some t.here)
  elses := if b.kind = .if_ then Function.update t.elses b.id (some t.here) else t.elses }

/-- The operand of a branch to the `l`-th enclosing block, and the types that the
branch carries. -/
inductive Targets (t : Asm) (returnTy : ResultType) (l : Idx) : Label → ResultType → Prop where
  | ret : l + 1 = t.blocks.length → t.Targets returnTy l ⟨returnTy, 0, .ret⟩ returnTy
  | back {b : Block} : l + 1 ≠ t.blocks.length → t.blocks[l]? = some b → b.kind = .loop →
      t.Targets returnTy l ⟨none, t.words - t.wordsFor b.height, .back b.start⟩ none
  | end_ {b : Block} : l + 1 ≠ t.blocks.length → t.blocks[l]? = some b → b.kind ≠ .loop →
      t.Targets returnTy l ⟨b.out, t.words - t.wordsFor b.height, .end_ b.id⟩ b.label

theorem target_targets {returnTy : ResultType} {l : Idx} {label : Label} {types : ResultType}
    (h : target returnTy l t = .ok (label, types) t') :
    t = t' ∧ t.Targets returnTy l label types := by
  unfold target at h
  rw [bind_of_ok (get_apply t)] at h
  obtain ⟨b, t₁, hb, h⟩ := bind_eq_ok.1 h
  obtain ⟨hget, rfl⟩ := okOr_eq_ok.1 hb
  by_cases hlen : l + 1 = t.blocks.length
  · rw [if_pos hlen] at h
    cases h
    exact ⟨rfl, .ret hlen⟩
  · rw [if_neg hlen] at h
    cases hkind : b.kind with
    | loop =>
        rw [hkind] at h
        cases h
        exact ⟨rfl, .back hlen hget hkind⟩
    | block =>
        rw [hkind] at h
        cases h
        exact ⟨rfl, .end_ hlen hget (by rw [hkind]; intro hc; cases hc)⟩
    | if_ =>
        rw [hkind] at h
        cases h
        exact ⟨rfl, .end_ hlen hget (by rw [hkind]; intro hc; cases hc)⟩

/-! ### The steps -/

/-- One call of the visitor. -/
inductive Step (ctx : Context) (t : Asm) : WasmInstr → Asm → Prop where
  | silent {i : WasmInstr} {ins outs : List ValType} {opds : List OperandType} {hw : ℕ} :
      ctx.Retypes i ins outs → t.Pops ins opds →
      t.Pushed ((outs.map .known).reverse ++ opds) hw →
      Step ctx t i { t with opds := (outs.map .known).reverse ++ opds, highwater := hw }
  | plain {i : WasmInstr} {j : IrInstr} {ins outs : List ValType}
      {pushed opds : List OperandType} {hw : ℕ} :
      ctx.Emits i j ins outs → t.Pops ins opds → t.Pushed (pushed ++ opds) hw →
      (t.Certain → pushed = (outs.map .known).reverse) →
      Step ctx t i { t.push (.plain j) with opds := pushed ++ opds, highwater := hw }
  | unreachable : Step ctx t .unreachable (t.push (.plain .unreachable)).dead
  | return_ {opds : List OperandType} : t.Pops ctx.returnTy.toList opds →
      Step ctx t .return_ (dead { t.push (.plain (instrReturn ctx.returnTy)) with opds := opds })
  | enterBlock {ty : ResultType} : Step ctx t (.enterBlock ty) (t.opened .block ty ty)
  | loop_ {ty : ResultType} : Step ctx t (.loop_ ty) (t.opened .loop none ty)
  | if_ {ty : ResultType} {opds : List OperandType} : t.Pops [.i32] opds →
      Step ctx t (.if_ ty) { t.push (.if_ ⟨ty, 0, .else_ t.nextId⟩) with
        opds := opds
        blocks := ⟨.if_, ty, ty, opds.length, false, t.nextId, t.here⟩ :: t.blocks
        nextId := t.nextId + 1 }
  | else_ {label : Label} {types : ResultType} {b : Block} {bs : List Block}
      {opds : List OperandType} : t.Targets ctx.returnTy 0 label types → t.blocks = b :: bs →
      b.kind = .if_ → t.Pops b.out.toList opds → opds.length = b.height →
      Step ctx t .else_ { t.push (.br label) with
        opds := opds
        elses := Function.update t.elses b.id (some (t.push (.br label)).here)
        blocks := ⟨.block, b.out, b.out, opds.length, false, b.id, b.start⟩ :: bs }
  | exitBlock {b : Block} {bs : List Block} {opds : List OperandType} {hw : ℕ} :
      t.blocks = b :: bs → t.Pops b.out.toList opds → opds.length = b.height →
      (b.kind = .if_ → b.out = none) →
      t.Pushed ((b.out.toList.map .known).reverse ++ opds) hw →
      Step ctx t .exitBlock { t.bound b with
        opds := (b.out.toList.map .known).reverse ++ opds
        highwater := hw
        blocks := bs }
  | finish {b : Block} {bs : List Block} {opds : List OperandType} :
      t.blocks = b :: bs → t.Pops b.out.toList opds → opds.length = b.height →
      (b.kind = .if_ → b.out = none) →
      Step ctx t .finish { t.bound b with
        opds := opds
        blocks := bs
        entries := ⟨t.here, .plain (instrReturn b.out), t.height⟩ :: t.entries }
  | br {l : Idx} {label : Label} {types : ResultType} {opds : List OperandType} :
      t.Targets ctx.returnTy l label types → t.Pops types.toList opds →
      Step ctx t (.br l) (dead { t.push (.br label) with opds := opds })
  | brIf {l : Idx} {label : Label} {types : ResultType} {opds opds' : List OperandType}
      {hw : ℕ} : t.Pops [.i32] opds →
      Targets { t with opds := opds } ctx.returnTy l label types →
      Pops { t with opds := opds } types.toList opds' →
      t.Pushed ((types.toList.map .known).reverse ++ opds') hw →
      Step ctx t (.brIf l) { t.push (.brIf label) with
        opds := (types.toList.map .known).reverse ++ opds'
        highwater := hw }
  | brTableStart {len : U32} {opds : List OperandType} : t.Pops [.i32] opds →
      Step ctx t (.brTableStart len) { t.push (.brTable len.toNat []) with opds := opds }
  | brTableBranch {l : Idx} {label : Label} {types : ResultType} :
      t.Targets ctx.returnTy l label types →
      (∀ other, t.brTableResult = some other → other = types) →
      Step ctx t (.brTableBranch l) { t.addLabel label with brTableResult := some types }
  | brTableFinish {l : Idx} {label : Label} {types : ResultType} {opds : List OperandType} :
      t.Targets ctx.returnTy l label types →
      (∀ other, t.brTableResult = some other → other = types) →
      t.Pops types.toList opds →
      Step ctx t (.brTableFinish l)
        (dead { t.addLabel label with brTableResult := none, opds := opds })

/-! ### Every call is a step -/

theorem emitting_eq_ok {x : AsmM IrInstr} {u : Unit} (h : emitting x t = .ok u t') :
    ∃ j t₁, x t = .ok j t₁ ∧
      t' = { t₁ with entries := ⟨t₁.here, .plain j, t.height⟩ :: t₁.entries } := by
  unfold emitting at h
  rw [bind_of_ok (gets_apply _ t)] at h
  obtain ⟨j, t₁, hx, h⟩ := bind_eq_ok.1 h
  cases h
  exact ⟨j, t₁, hx, rfl⟩

/-- Pops and pushes of known types, and the instruction. -/
theorem step_of_types {i : WasmInstr} {j : IrInstr} {outs : List ValType}
    {x : AsmM IrInstr} {u : Unit} (hemits : ctx.Emits i j ins outs)
    (hx : ∀ j' t₁, x t = .ok j' t₁ → (do
      popTypes ins
      pushTypes outs
      pure j : AsmM IrInstr) t = .ok j' t₁)
    (h : emitting x t = .ok u t') : Step ctx t i t' := by
  obtain ⟨j', t₁, hrun, rfl⟩ := emitting_eq_ok h
  obtain ⟨_, t₂, hpop, hrun⟩ := bind_eq_ok.1 (hx j' t₁ hrun)
  obtain ⟨opds, rfl, hpops⟩ := popTypes_pops hpop
  obtain ⟨_, t₃, hpush, hrun⟩ := bind_eq_ok.1 hrun
  obtain ⟨hw, rfl, hpushed⟩ := pushTypes_pushed hpush
  obtain ⟨rfl, rfl⟩ := pure_eq_ok.1 hrun
  exact Step.plain hemits hpops (hpushed.after_pops hpops.suffix) fun _ => rfl

/-- An instruction on the memory. -/
theorem step_onMemory {i : WasmInstr} {j : IrInstr} {outs : List ValType} {ok : Bool} {u : Unit}
    (hemits : ctx.memory = true → ok = true → ctx.Emits i j ins outs)
    (h : onMemory ctx ins outs ok j t = .ok u t') : Step ctx t i t' := by
  obtain ⟨j', t₁, hrun, rfl⟩ := emitting_eq_ok h
  by_cases hmem : ctx.memory = false
  · rw [if_pos hmem] at hrun
    cases hrun
  · rw [if_neg hmem] at hrun
    obtain ⟨_, t₂, hpop, hrun⟩ := bind_eq_ok.1 hrun
    obtain ⟨opds, rfl, hpops⟩ := popTypes_pops hpop
    obtain ⟨_, t₃, hpush, hrun⟩ := bind_eq_ok.1 hrun
    obtain ⟨hw, rfl, hpushed⟩ := pushTypes_pushed hpush
    cases ok with
    | false => cases hrun
    | true =>
        cases hrun
        exact Step.plain (hemits (Bool.not_eq_false _ ▸ hmem) rfl) hpops
          (hpushed.after_pops hpops.suffix) fun _ => rfl

/-- An access to a local variable. -/
theorem step_withLocal {i : WasmInstr} (x : Idx) (ins outs : ValType → List ValType)
    (j : LocalVariable → IrInstr) {u : Unit}
    (hemits : ∀ l, ctx.local? x = some l → ctx.Emits i (j l) (ins l.ty) (outs l.ty))
    (h : withLocal ctx x ins outs j t = .ok u t') : Step ctx t i t' := by
  obtain ⟨j', t₁, hrun, rfl⟩ := emitting_eq_ok h
  obtain ⟨l, t₂, hget, hrun⟩ := bind_eq_ok.1 hrun
  obtain ⟨hl, rfl⟩ := okOr_eq_ok.1 hget
  obtain ⟨_, t₂, hpop, hrun⟩ := bind_eq_ok.1 hrun
  obtain ⟨opds, rfl, hpops⟩ := popTypes_pops hpop
  obtain ⟨_, t₃, hpush, hrun⟩ := bind_eq_ok.1 hrun
  obtain ⟨hw, rfl, hpushed⟩ := pushTypes_pushed hpush
  cases hrun
  exact Step.plain (hemits l hl) hpops (hpushed.after_pops hpops.suffix) fun _ => rfl

theorem step_call {x : Idx} {u : Unit} (h : call ctx x t = .ok u t') : Step ctx t (.call x) t' := by
  obtain ⟨j', t₁, hrun, rfl⟩ := emitting_eq_ok h
  obtain ⟨⟨ref, ty⟩, t₂, hget, hrun⟩ := bind_eq_ok.1 hrun
  obtain ⟨hf, rfl⟩ := okOr_eq_ok.1 hget
  obtain ⟨_, t₂, hpop, hrun⟩ := bind_eq_ok.1 hrun
  obtain ⟨opds, rfl, hpops⟩ := popTypes_pops hpop
  obtain ⟨_, t₃, hpush, hrun⟩ := bind_eq_ok.1 hrun
  obtain ⟨hw, rfl, hpushed⟩ := pushTypes_pushed hpush
  cases hrun
  exact Step.plain (.call hf) hpops (hpushed.after_pops hpops.suffix) fun _ => rfl

theorem step_callIndirect {x : Idx} {u : Unit} (h : callIndirect ctx x t = .ok u t') :
    Step ctx t (.callIndirect x) t' := by
  obtain ⟨j', t₁, hrun, rfl⟩ := emitting_eq_ok h
  by_cases htable : ctx.table = false
  · rw [if_pos htable] at hrun
    cases hrun
  · rw [if_neg htable] at hrun
    obtain ⟨o, t₂, hpop, hrun⟩ := bind_eq_ok.1 hrun
    obtain ⟨opds, rfl, hpops⟩ := popKnown_pops hpop
    obtain ⟨ty, t₃, hget, hrun⟩ := bind_eq_ok.1 hrun
    obtain ⟨hty, rfl⟩ := okOr_eq_ok.1 hget
    obtain ⟨_, t₃, hpop', hrun⟩ := bind_eq_ok.1 hrun
    obtain ⟨opds', rfl, hpops'⟩ := popTypes_pops hpop'
    obtain ⟨_, t₄, hpush, hrun⟩ := bind_eq_ok.1 hrun
    obtain ⟨hw, rfl, hpushed⟩ := pushTypes_pushed hpush
    cases hrun
    have hall := hpops.append hpops'
    exact Step.plain (.callIndirect (Bool.not_eq_false _ ▸ htable) hty) hall
      (hpushed.after_pops hall.suffix) fun _ => rfl

theorem step_drop {u : Unit} (h : drop t = .ok u t') : Step ctx t .drop t' := by
  obtain ⟨j', t₁, hrun, rfl⟩ := emitting_eq_ok h
  obtain ⟨o, t₂, hpop, hrun⟩ := bind_eq_ok.1 hrun
  obtain ⟨opds, rfl, hpops, -⟩ := popOpd_pops hpop
  cases hrun
  exact @Step.plain _ _ _ _ _ _ [] _ _ .drop hpops (Pushed.of_suffix hpops.suffix) fun _ => rfl

theorem step_select {u : Unit} (h : select t = .ok u t') : Step ctx t .select t' := by
  obtain ⟨j', t₁, hrun, rfl⟩ := emitting_eq_ok h
  obtain ⟨o, t₂, hpop, hrun⟩ := bind_eq_ok.1 hrun
  obtain ⟨opds, rfl, hpops⟩ := popKnown_pops hpop
  obtain ⟨o₁, t₃, hpop₁, hrun⟩ := bind_eq_ok.1 hrun
  obtain ⟨opds₁, rfl, hpops₁, hknown₁⟩ := popOpd_pops hpop₁
  obtain ⟨o₂, t₄, hpop₂, hrun⟩ := bind_eq_ok.1 hrun
  obtain ⟨opds₂, rfl, hpops₂, hknown₂, hexp⟩ := popExpect_pops hpop₂
  rw [bind_of_ok (pushOpd_apply _ _)] at hrun
  cases hrun
  have hall := (hpops.append hpops₁).append hpops₂
  have hcertain : t.Certain → o₁ = .known o₁.valType ∧ o₂ = o₁ := by
    intro hc
    have ho := hknown₁ (hc.withOpds hpops.suffix)
    exact ⟨ho, hexp (by rw [ho]; intro hu; cases hu)⟩
  have htypes : t.Pops [.i32, o₂.valType, o₂.valType] opds₂ := by
    refine ⟨hall.suffix, hall.floor, fun hc => ?_⟩
    have heq := hall.exact_ hc
    rwa [← (hcertain hc).2] at heq
  refine @Step.plain _ _ _ _ _ _ [o₂] _ _ .select htypes ?_ fun hc => ?_
  · exact ⟨Nat.le_max_right _ _, fun _ => Nat.le_max_left _ _⟩
  · obtain ⟨ho, ho₂⟩ := hcertain hc
    rw [ho₂, ho]
    rfl

theorem step_globalGet {x : Idx} {u : Unit} (h : globalGet ctx x t = .ok u t') :
    Step ctx t (.globalGet x) t' := by
  obtain ⟨j', t₁, hrun, rfl⟩ := emitting_eq_ok h
  obtain ⟨g, t₂, hget, hrun⟩ := bind_eq_ok.1 hrun
  obtain ⟨hg, rfl⟩ := okOr_eq_ok.1 hget
  obtain ⟨_, t₃, hpush, hrun⟩ := bind_eq_ok.1 hrun
  obtain ⟨hw, rfl, hpushed⟩ := pushTypes_pushed hpush
  cases hrun
  exact Step.plain (.globalGet hg) (Pops.nil t) hpushed fun _ => rfl

theorem step_globalSet {x : Idx} {u : Unit} (h : globalSet ctx x t = .ok u t') :
    Step ctx t (.globalSet x) t' := by
  obtain ⟨j', t₁, hrun, rfl⟩ := emitting_eq_ok h
  obtain ⟨g, t₂, hget, hrun⟩ := bind_eq_ok.1 hrun
  obtain ⟨hg, rfl⟩ := okOr_eq_ok.1 hget
  by_cases hmut : g.mutable = false
  · rw [if_pos hmut] at hrun
    cases hrun
  · rw [if_neg hmut] at hrun
    obtain ⟨_, t₂, hpop, hrun⟩ := bind_eq_ok.1 hrun
    obtain ⟨opds, rfl, hpops⟩ := popTypes_pops hpop
    cases hrun
    exact @Step.plain _ _ _ _ _ _ [] _ _ (.globalSet hg (Bool.not_eq_false _ ▸ hmut)) hpops
      (Pushed.of_suffix hpops.suffix) fun _ => rfl

/-- Pops and pushes without an instruction. -/
theorem step_retype {i : WasmInstr} {outs : List ValType} {u : Unit}
    (hretypes : ctx.Retypes i ins outs)
    (h : (do
      popTypes ins
      pushTypes outs : AsmM Unit) t = .ok u t') : Step ctx t i t' := by
  obtain ⟨_, t₂, hpop, h⟩ := bind_eq_ok.1 h
  obtain ⟨opds, rfl, hpops⟩ := popTypes_pops hpop
  obtain ⟨hw, rfl, hpushed⟩ := pushTypes_pushed h
  exact Step.silent hretypes hpops (hpushed.after_pops hpops.suffix)

/-! ### Control instructions -/

theorem popBlock_pops {b : Block} (h : popBlock t = .ok b t') :
    ∃ bs opds, t.blocks = b :: bs ∧ t.Pops b.out.toList opds ∧ opds.length = b.height ∧
      t' = { t with opds := opds, blocks := bs } := by
  obtain ⟨bs, opds, hb, hpop, hlen, rfl⟩ := popBlock_eq_ok h
  obtain ⟨opds', heq, hpops⟩ := popTypes_pops hpop
  obtain rfl : opds = opds' := congrArg Asm.opds heq
  exact ⟨bs, opds, hb, hpops, hlen, rfl⟩

theorem popControl_bound {r : ResultType} (h : popControl t = .ok r t') :
    ∃ b bs opds, t.blocks = b :: bs ∧ t.Pops b.out.toList opds ∧ opds.length = b.height ∧
      (b.kind = .if_ → b.out = none) ∧ r = b.out ∧
      t' = { t.bound b with opds := opds, blocks := bs } := by
  obtain ⟨b, t₁, hpop, h⟩ := bind_eq_ok.1 h
  obtain ⟨bs, opds, hb, hpops, hlen, rfl⟩ := popBlock_pops hpop
  cases hkind : b.kind with
  | loop =>
      rw [hkind] at h
      cases h
      refine ⟨b, bs, opds, hb, hpops, hlen, (fun hc => by rw [hkind] at hc; cases hc), rfl, ?_⟩
      simp only [bound, hkind, reduceCtorEq, if_false]
  | block =>
      rw [hkind] at h
      cases h
      refine ⟨b, bs, opds, hb, hpops, hlen, (fun hc => by rw [hkind] at hc; cases hc), rfl, ?_⟩
      simp only [bound, hkind, reduceCtorEq, if_false]
  | if_ =>
      rw [hkind] at h
      by_cases hout : b.out = none
      · simp only [hout, if_true] at h
        cases h
        refine ⟨b, bs, opds, hb, hpops, hlen, fun _ => hout, hout.symm, ?_⟩
        simp only [bound, hkind, if_true]
        rfl
      · simp only [hout, if_false] at h
        cases h

theorem step_exitBlock {u : Unit} (h : visit ctx .exitBlock t = .ok u t') :
    Step ctx t .exitBlock t' := by
  obtain ⟨r, t₁, hpop, h⟩ := bind_eq_ok.1 h
  obtain ⟨b, bs, opds, hb, hpops, hlen, hif, rfl, rfl⟩ := popControl_bound hpop
  obtain ⟨hw, rfl, hpushed⟩ := pushTypes_pushed h
  exact Step.exitBlock hb hpops hlen hif
    (Pushed.after_pops hpops.suffix ⟨hpushed.le, hpushed.words⟩)

theorem step_finish {u : Unit} (h : visit ctx .finish t = .ok u t') : Step ctx t .finish t' := by
  obtain ⟨j', t₁, hrun, rfl⟩ := emitting_eq_ok h
  obtain ⟨r, t₂, hpop, hrun⟩ := bind_eq_ok.1 hrun
  obtain ⟨b, bs, opds, hb, hpops, hlen, hif, rfl, rfl⟩ := popControl_bound hpop
  cases hrun
  exact Step.finish hb hpops hlen hif

theorem step_if {ty : ResultType} {u : Unit} (h : visit ctx (.if_ ty) t = .ok u t') :
    Step ctx t (.if_ ty) t' := by
  simp only [visit] at h
  rw [bind_of_ok (gets_apply _ t)] at h
  obtain ⟨o, t₁, hpop, h⟩ := bind_eq_ok.1 h
  obtain ⟨opds, rfl, hpops⟩ := popKnown_pops hpop
  rw [bind_of_ok (pushBlock_apply _ _ _ _)] at h
  cases h
  exact Step.if_ hpops

theorem step_br {l : Idx} {u : Unit} (h : br ctx l t = .ok u t') : Step ctx t (.br l) t' := by
  unfold br at h
  rw [bind_of_ok (gets_apply _ t)] at h
  obtain ⟨⟨label, types⟩, t₁, htgt, h⟩ := bind_eq_ok.1 h
  obtain ⟨rfl, htarget⟩ := target_targets htgt
  obtain ⟨_, t₂, hemit, h⟩ := bind_eq_ok.1 h
  cases hemit
  obtain ⟨_, t₃, hpop, h⟩ := bind_eq_ok.1 h
  obtain ⟨opds, rfl, hpops⟩ := popTypes_pops hpop
  cases h
  exact Step.br htarget (hpops.congr rfl rfl)

theorem step_brIf {l : Idx} {u : Unit} (h : brIf ctx l t = .ok u t') :
    Step ctx t (.brIf l) t' := by
  unfold brIf at h
  rw [bind_of_ok (gets_apply _ t)] at h
  obtain ⟨o, t₁, hpop, h⟩ := bind_eq_ok.1 h
  obtain ⟨opds, rfl, hpops⟩ := popKnown_pops hpop
  obtain ⟨⟨label, types⟩, t₁, htgt, h⟩ := bind_eq_ok.1 h
  obtain ⟨rfl, htarget⟩ := target_targets htgt
  obtain ⟨_, t₂, hemit, h⟩ := bind_eq_ok.1 h
  cases hemit
  obtain ⟨_, t₃, hpop', h⟩ := bind_eq_ok.1 h
  obtain ⟨opds', rfl, hpops'⟩ := popTypes_pops hpop'
  obtain ⟨hw, rfl, hpushed⟩ := pushTypes_pushed h
  have hsuffix : opds' <:+ t.opds := hpops'.suffix.trans hpops.suffix
  exact Step.brIf hpops htarget (hpops'.congr rfl rfl)
    (Pushed.after_pops hsuffix ⟨hpushed.le, hpushed.words⟩)

theorem step_brTableStart {len : U32} {u : Unit} (h : brTableStart len t = .ok u t') :
    Step ctx t (.brTableStart len) t' := by
  unfold brTableStart at h
  rw [bind_of_ok (gets_apply _ t)] at h
  obtain ⟨o, t₁, hpop, h⟩ := bind_eq_ok.1 h
  obtain ⟨opds, rfl, hpops⟩ := popKnown_pops hpop
  cases h
  exact Step.brTableStart hpops

theorem step_brTableBranch {l : Idx} {u : Unit} (h : brTableBranch ctx l t = .ok u t') :
    Step ctx t (.brTableBranch l) t' := by
  unfold brTableBranch at h
  obtain ⟨⟨label, types⟩, t₁, htgt, hrest⟩ := bind_eq_ok.1 h
  obtain ⟨rfl, htarget⟩ := target_targets htgt
  obtain ⟨_, t₂, hemit, h⟩ := bind_eq_ok.1 hrest
  cases hemit
  rw [bind_of_ok (get_apply _)] at h
  simp only at h
  cases hres : t.brTableResult with
  | none =>
      rw [hres] at h
      cases h
      exact Step.brTableBranch htarget fun other ho => by rw [hres] at ho; cases ho
  | some other =>
      rw [hres] at h
      by_cases hne : other ≠ types
      · simp only [if_pos hne] at h
        cases h
      · simp only [if_neg hne] at h
        cases h
        obtain rfl := not_not.1 hne
        exact Step.brTableBranch htarget
          fun o ho => by rw [hres] at ho; exact (Option.some.inj ho).symm

theorem step_brTableFinish {l : Idx} {u : Unit} (h : brTableFinish ctx l t = .ok u t') :
    Step ctx t (.brTableFinish l) t' := by
  unfold brTableFinish at h
  obtain ⟨⟨label, types⟩, t₁, htgt, hrest⟩ := bind_eq_ok.1 h
  obtain ⟨rfl, htarget⟩ := target_targets htgt
  obtain ⟨_, t₂, hemit, h⟩ := bind_eq_ok.1 hrest
  cases hemit
  rw [bind_of_ok (get_apply _)] at h
  simp only at h
  cases hres : t.brTableResult with
  | none =>
      rw [hres] at h
      obtain ⟨_, t₃, hpop, h⟩ := bind_eq_ok.1 h
      obtain ⟨opds, rfl, hpops⟩ := popTypes_pops hpop
      cases h
      exact Step.brTableFinish htarget
        (fun other ho => by rw [hres] at ho; cases ho) (hpops.congr rfl rfl)
  | some other =>
      rw [hres] at h
      by_cases hne : other ≠ types
      · simp only [if_pos hne] at h
        cases h
      · simp only [if_neg hne] at h
        obtain ⟨_, t₂, hset, h⟩ := bind_eq_ok.1 h
        cases hset
        obtain ⟨_, t₃, hpop, h⟩ := bind_eq_ok.1 h
        obtain ⟨opds, rfl, hpops⟩ := popTypes_pops hpop
        cases h
        obtain rfl := not_not.1 hne
        exact Step.brTableFinish htarget
          (fun o ho => by rw [hres] at ho; exact (Option.some.inj ho).symm) (hpops.congr rfl rfl)

theorem step_else {u : Unit} (h : else_ ctx t = .ok u t') : Step ctx t .else_ t' := by
  unfold else_ at h
  rw [bind_of_ok (gets_apply _ t)] at h
  obtain ⟨⟨label, types⟩, t₁, htgt, h⟩ := bind_eq_ok.1 h
  obtain ⟨rfl, htarget⟩ := target_targets htgt
  obtain ⟨_, t₂, hemit, h⟩ := bind_eq_ok.1 h
  cases hemit
  obtain ⟨b, t₃, htop, h⟩ := bind_eq_ok.1 h
  obtain ⟨⟨bs, hb⟩, rfl⟩ := top_eq_ok.1 htop
  by_cases hkind : b.kind ≠ .if_
  · rw [if_pos hkind] at h
    cases h
  · rw [if_neg hkind] at h
    obtain ⟨b', t₄, hpop, h⟩ := bind_eq_ok.1 h
    obtain ⟨bs', opds, hb', hpops, hlen, rfl⟩ := popBlock_pops hpop
    obtain ⟨rfl, rfl⟩ := List.cons.inj (hb.symm.trans hb')
    cases h
    exact Step.else_ htarget hb (not_not.1 hkind) (hpops.congr rfl rfl) hlen

theorem step_return {u : Unit} (h : return_ ctx t = .ok u t') : Step ctx t .return_ t' := by
  obtain ⟨_, t₁, hemit, h⟩ := bind_eq_ok.1 h
  obtain ⟨j', t₂, hrun, rfl⟩ := emitting_eq_ok hemit
  obtain ⟨_, t₃, hpop, hrun⟩ := bind_eq_ok.1 hrun
  obtain ⟨opds, rfl, hpops⟩ := popTypes_pops hpop
  cases hrun
  cases h
  exact Step.return_ hpops

/-- Every call that succeeds is a step. -/
theorem visit_step {i : WasmInstr} {u : Unit} (h : visit ctx i t = .ok u t') :
    Step ctx t i t' := by
  cases i with
  | unreachable =>
      cases h
      exact Step.unreachable
  | nop => exact step_retype .nop h
  | enterBlock ty =>
      cases h
      exact Step.enterBlock
  | loop_ ty =>
      cases h
      exact Step.loop_
  | if_ ty => exact step_if h
  | else_ => exact step_else h
  | exitBlock => exact step_exitBlock h
  | finish => exact step_finish h
  | br l => exact step_br h
  | brIf l => exact step_brIf h
  | brTableStart len => exact step_brTableStart h
  | brTableBranch l => exact step_brTableBranch h
  | brTableFinish l => exact step_brTableFinish h
  | return_ => exact step_return h
  | call x => exact step_call h
  | callIndirect x => exact step_callIndirect h
  | drop => exact step_drop h
  | select => exact step_select h
  | localGet x =>
      exact step_withLocal x (fun _ => []) (fun t => [t]) .localGet (fun l hl => .localGet hl) h
  | localSet x =>
      exact step_withLocal x (fun t => [t]) (fun _ => []) .localSet (fun l hl => .localSet hl) h
  | localTee x =>
      exact step_withLocal x (fun t => [t]) (fun t => [t]) .localTee (fun l hl => .localTee hl) h
  | globalGet x => exact step_globalGet h
  | globalSet x => exact step_globalSet h
  | load op m => exact step_onMemory (fun hm ha => .load hm (of_decide_eq_true ha)) h
  | store op m => exact step_onMemory (fun hm ha => .store hm (of_decide_eq_true ha)) h
  | memorySize => exact step_onMemory (fun hm _ => .memorySize hm) h
  | memoryGrow => exact step_onMemory (fun hm _ => .memoryGrow hm) h
  | i32Const n => exact step_of_types .i32Const (fun _ _ hx => hx) h
  | i64Const n => exact step_of_types .i64Const (fun _ _ hx => hx) h
  | f32Const z => exact step_of_types .f32Const (fun _ _ hx => hx) h
  | f64Const z => exact step_of_types .f64Const (fun _ _ hx => hx) h
  | num op => exact step_of_types .num (fun _ _ hx => hx) h
  | sat op => exact step_of_types .sat (fun _ _ hx => hx) h
  | reinterpret op => exact step_retype .reinterpret h

end Asm

end SpaceWasm
