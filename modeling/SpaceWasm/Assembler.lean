import SpaceWasm.Encoding
import SpaceWasm.Instr

/-!
# The symbolic assembler

The compiler seen without its code buffer: it checks the operand types in the
same way, and emits a listing of instructions whose branches name their targets.
The end of a block and the start of an `else` arm are bound to addresses once
they are known, and only then is the listing turned into words.

This is the abstract model of the compiler. A listing knows for each instruction
the height of the operand stack before it, as long as the instruction can be
reached.
-/

namespace SpaceWasm

open Fallible

/-! ### The context of a function -/

/-- What a function body may refer to. -/
structure Context where
  types : List FuncType
  func? : Idx → Option (Ref × FuncType)
  global? : Idx → Option GlobalVariable
  local? : Idx → Option LocalVariable
  table : Bool
  memory : Bool
  returnTy : ResultType

/-! ### Listings -/

/-- The target of a branch. -/
inductive Dest where
  /-- The return from the function. -/
  | ret
  /-- The start of a loop. -/
  | back (address : ℕ)
  /-- The end of the block with an identity. -/
  | end_ (id : ℕ)
  /-- The `else` arm of the block with an identity. -/
  | else_ (id : ℕ)
  deriving DecidableEq, Repr

/-- A symbolic branch operand. -/
structure Label where
  result : ResultType
  depth : ℕ
  dest : Dest
  deriving DecidableEq, Repr

/-- A symbolic instruction. -/
inductive AsmInstr where
  | plain (i : IrInstr)
  | if_ (l : Label)
  | br (l : Label)
  | brIf (l : Label)
  | brTable (n : ℕ) (ls : List Label)
  deriving DecidableEq, Repr

/-- A word of a listing: a known one, or half of a branch operand. -/
inductive Cell where
  | word (w : U16)
  | lo (l : Label)
  | hi (l : Label)
  deriving DecidableEq, Repr

namespace Label

def cells (l : Label) : List Cell := [.lo l, .hi l]

end Label

namespace AsmInstr

/-- The words before the labels. -/
def head : AsmInstr → List U16
  | plain i => i.encode
  | if_ _ => [TextBuilder.opWord Opcode.if_ 0]
  | br _ => [TextBuilder.opWord Opcode.br 0]
  | brIf _ => [TextBuilder.opWord Opcode.brIf 0]
  | brTable n _ => IrInstr.encodeIndex Opcode.brTable n

def labels : AsmInstr → List Label
  | plain _ => []
  | if_ l => [l]
  | br l => [l]
  | brIf l => [l]
  | brTable _ ls => ls

def cells (i : AsmInstr) : List Cell := i.head.map .word ++ i.labels.flatMap Label.cells

/-- One more label of a `br_table`. -/
def addLabel (l : Label) : AsmInstr → AsmInstr
  | brTable n ls => brTable n (ls ++ [l])
  | i => i

end AsmInstr

/-- An instruction of a listing. -/
structure Entry where
  addr : ℕ
  instr : AsmInstr
  /-- The operand words on the stack before the instruction; `none` in code that
  cannot be reached. -/
  height : Option ℕ
  deriving DecidableEq

/-- The address after an entry. -/
def Entry.next (e : Entry) : ℕ := e.addr + e.instr.cells.length

/-- The words of a list of entries, the last one first. -/
def image : List Entry → List Cell
  | [] => []
  | e :: es => image es ++ e.instr.cells

/-- An open block. -/
structure Block where
  kind : BlockKind
  label : ResultType
  out : ResultType
  /-- The number of operands below the block. -/
  height : ℕ
  unreachable : Bool
  id : ℕ
  start : ℕ
  deriving DecidableEq

/-- The instructions emitted so far and the addresses of their targets. -/
structure Listing where
  base : ℕ
  /-- The instructions, the last one first. -/
  entries : List Entry
  /-- The addresses bound to the ends of blocks. -/
  ends : ℕ → Option ℕ
  /-- The addresses bound to `else` arms. -/
  elses : ℕ → Option ℕ

namespace Listing

/-- The address of the next word. -/
def here (t : Listing) : ℕ := t.base + (image t.entries).length

/-- The code address of a target, once it is known. A return has the sentinel. -/
def resolve (t : Listing) : Dest → Option JumpTarget
  | .ret => some JumpTarget.sentinel
  | .back a => some (addrOf a)
  | .end_ id => (t.ends id).map addrOf
  | .else_ id => (t.elses id).map addrOf

end Listing

/-- The state of the assembler. -/
structure Asm extends Listing where
  /-- The open blocks, the innermost one first. -/
  blocks : List Block
  /-- The operand types, the topmost one first. -/
  opds : List OperandType
  highwater : ℕ
  brTableResult : Option ResultType
  nextId : ℕ

abbrev AsmM (α : Type) := Fallible Unit Asm α

namespace Asm

/-- The operand words. -/
def words (t : Asm) : ℕ := heightWords t.opds.reverse

/-- The operand words below the `n` lowest operands' end. -/
def wordsFor (t : Asm) (n : ℕ) : ℕ := heightWords (t.opds.reverse.take n)

/-- Whether the code at this point can be reached. -/
def live (t : Asm) : Bool := t.blocks.all fun b => !b.unreachable

/-- The operand words, where the code can be reached. -/
def height (t : Asm) : Option ℕ := if t.live then some t.words else none

/-! ### Operands and blocks -/

def reject {α : Type} : AsmM α := throw ()

def top : AsmM Block := do
  let t ← get
  okOr t.blocks.head? ()

def pushOpd (o : OperandType) : AsmM Unit :=
  modify fun t =>
    let t := { t with opds := o :: t.opds }
    { t with highwater := max t.words t.highwater }

/-- Pop an operand; there is none below the height of a block, except that an
unreachable block gives as many unknown ones as are asked for. -/
def popOpd : AsmM OperandType := do
  let b ← top
  let t ← get
  if t.opds.length - b.height = 0 ∧ b.unreachable = true then pure .unknown
  else if t.opds.length - b.height = 0 then reject
  else
    match t.opds with
    | [] => reject
    | o :: opds => do
        set { t with opds := opds }
        pure o

def popExpect (expect : OperandType) : AsmM OperandType := do
  let actual ← popOpd
  if actual = .unknown then pure expect
  else if expect = .unknown then pure actual
  else if actual ≠ expect then reject
  else pure actual

/-- Pop operands of known types, the topmost one first. -/
def popTypes : List ValType → AsmM Unit
  | [] => pure ()
  | t :: ts => do
      let _ ← popExpect (.known t)
      popTypes ts

def pushTypes : List ValType → AsmM Unit
  | [] => pure ()
  | t :: ts => do
      pushOpd (.known t)
      pushTypes ts

/-- The rest of the block cannot be reached. -/
def markUnreachable : AsmM Unit :=
  modify fun t =>
    match t.blocks with
    | [] => t
    | b :: bs => { t with
        opds := t.opds.drop (t.opds.length - b.height)
        blocks := { b with unreachable := true } :: bs }

def pushBlock (kind : BlockKind) (label out : ResultType) : AsmM Unit :=
  modify fun t => { t with
    blocks := ⟨kind, label, out, t.opds.length, false, t.nextId, t.here⟩ :: t.blocks
    nextId := t.nextId + 1 }

/-- Leave a block with exactly its results on top of the operands below it. -/
def popBlock : AsmM Block := do
  let b ← top
  popTypes b.out.toList
  let t ← get
  if t.opds.length ≠ b.height then reject
  else do
    set { t with blocks := t.blocks.tail }
    pure b

/-! ### Labels -/

/-- The operand of a branch to the `l`-th enclosing block, and the types the
branch carries. -/
def target (returnTy : ResultType) (l : Idx) : AsmM (Label × ResultType) := do
  let t ← get
  let b ← okOr t.blocks[l]? ()
  if l + 1 = t.blocks.length then pure (⟨returnTy, 0, .ret⟩, returnTy)
  else
    let depth := t.words - t.wordsFor b.height
    match b.kind with
    | .loop => pure (⟨none, depth, .back b.start⟩, none)
    | .block | .if_ => pure (⟨b.out, depth, .end_ b.id⟩, b.label)

/-- The end of a block is here. -/
def bindEnd (id : ℕ) : AsmM Unit :=
  modify fun t => { t with ends := Function.update t.ends id (some t.here) }

/-- The `else` arm of a block is here. -/
def bindElse (id : ℕ) : AsmM Unit :=
  modify fun t => { t with elses := Function.update t.elses id (some t.here) }

def popControl : AsmM ResultType := do
  let b ← popBlock
  match b.kind with
  | .loop => bindEnd b.id
  | .block => bindEnd b.id
  | .if_ =>
      -- Without an `else` arm the operands have to pass through.
      if b.out = none then do
        bindElse b.id
        bindEnd b.id
      else reject
  pure b.out

/-! ### Emitting -/

def emit (height : Option ℕ) (i : AsmInstr) : AsmM Unit :=
  modify fun t => { t with entries := ⟨t.here, i, height⟩ :: t.entries }

/-- One more label for the `br_table` being emitted. -/
def emitLabel (l : Label) : AsmM Unit :=
  modify fun t => { t with
    entries := t.entries.modifyHead fun e => { e with instr := e.instr.addLabel l } }

/-- Emit the instruction that `x` returns, with the height before `x`. -/
def emitting (x : AsmM IrInstr) : AsmM Unit := do
  let height ← gets height
  let i ← x
  emit height (.plain i)

/-! ### Instructions -/

variable (ctx : Context)

/-- An instruction that pops and pushes operands of fixed types. -/
def fixed (ins outs : List ValType) (i : IrInstr) : AsmM Unit :=
  emitting do
    popTypes ins
    pushTypes outs
    pure i

def instrReturn : ResultType → IrInstr
  | some ty => .return_ (BitVec.ofNat 8 ty.size / 4)
  | none => .return_ 0

def else_ : AsmM Unit := do
  let height ← gets height
  let (label, _) ← target ctx.returnTy 0
  emit height (.br label)
  let b ← top
  if b.kind ≠ .if_ then reject
  else do
    let b ← popBlock
    bindElse b.id
    -- The `else` arm has the identity of its `if`: both end at the same place.
    modify fun t => { t with
      blocks := ⟨.block, b.out, b.out, t.opds.length, false, b.id, b.start⟩ :: t.blocks }

def br (l : Idx) : AsmM Unit := do
  let height ← gets height
  let (label, types) ← target ctx.returnTy l
  emit height (.br label)
  popTypes types.toList
  markUnreachable

def brIf (l : Idx) : AsmM Unit := do
  let height ← gets height
  let _ ← popExpect (.known .i32)
  let (label, types) ← target ctx.returnTy l
  emit height (.brIf label)
  popTypes types.toList
  pushTypes types.toList

def brTableStart (len : U32) : AsmM Unit := do
  let height ← gets height
  let _ ← popExpect (.known .i32)
  emit height (.brTable len.toNat [])

def brTableBranch (l : Idx) : AsmM Unit := do
  let (label, types) ← target ctx.returnTy l
  emitLabel label
  let t ← get
  match t.brTableResult with
  | some other => if other ≠ types then reject else pure ()
  | none => set { t with brTableResult := some types }

def brTableFinish (l : Idx) : AsmM Unit := do
  let (label, types) ← target ctx.returnTy l
  emitLabel label
  let t ← get
  match t.brTableResult with
  | some other => if other ≠ types then reject else set { t with brTableResult := none }
  | none => pure ()
  popTypes types.toList
  markUnreachable

def return_ : AsmM Unit := do
  emitting do
    popTypes ctx.returnTy.toList
    pure (instrReturn ctx.returnTy)
  markUnreachable

/-- The call of the function behind a reference. -/
def callInstr : Ref → IrInstr
  | .module index => .call index
  | .host module index => .callHost module index
  | .extern_ module index => .callExtern module index

def call (x : Idx) : AsmM Unit :=
  emitting do
    let (ref, ty) ← okOr (ctx.func? x) ()
    popTypes ty.params.reverse
    pushTypes ty.returns.reverse
    pure (callInstr ref)

def callIndirect (x : Idx) : AsmM Unit :=
  emitting do
    if ctx.table = false then reject
    else do
      let _ ← popExpect (.known .i32)
      let ty ← okOr ctx.types[x]? ()
      popTypes ty.params.reverse
      pushTypes ty.returns
      pure (.callIndirect x)

def drop : AsmM Unit :=
  emitting do
    let ty ← popOpd
    pure (.drop ty.valType)

def select : AsmM Unit :=
  emitting do
    let _ ← popExpect (.known .i32)
    let t1 ← popOpd
    let t2 ← popExpect t1
    pushOpd t2
    pure (.select t2.valType)

/-- An access to a local variable. -/
def withLocal (x : Idx) (ins outs : ValType → List ValType) (i : LocalVariable → IrInstr) :
    AsmM Unit :=
  emitting do
    let l ← okOr (ctx.local? x) ()
    popTypes (ins l.ty)
    pushTypes (outs l.ty)
    pure (i l)

/-- The instructions that read and write the global behind a reference. -/
def globalGetInstr : Ref → IrInstr
  | .module idx => .globalGet idx
  | .extern_ module index => .globalGetExtern module index
  | .host module index => .globalGetHost module index

def globalSetInstr : Ref → IrInstr
  | .module idx => .globalSet idx
  | .extern_ module index => .globalSetExtern module index
  | .host module index => .globalSetHost module index

def globalGet (x : Idx) : AsmM Unit :=
  emitting do
    let g ← okOr (ctx.global? x) ()
    pushTypes [g.ty]
    pure (globalGetInstr g.reference)

def globalSet (x : Idx) : AsmM Unit :=
  emitting do
    let g ← okOr (ctx.global? x) ()
    if g.mutable = false then reject
    else do
      popTypes [g.ty]
      pure (globalSetInstr g.reference)

/-- An instruction on the memory. -/
def onMemory (ins outs : List ValType) (ok : Bool) (i : IrInstr) : AsmM Unit :=
  emitting do
    if ctx.memory = false then reject
    else do
      popTypes ins
      pushTypes outs
      if ok = false then reject else pure i

/-- One call of the visitor. -/
def visit : WasmInstr → AsmM Unit
  | .unreachable => do
      emitting (pure .unreachable)
      markUnreachable
  | .nop => pure ()
  | .enterBlock t => pushBlock .block t t
  | .loop_ t => pushBlock .loop none t
  | .if_ t => do
      let height ← gets height
      let _ ← popExpect (.known .i32)
      pushBlock .if_ t t
      let b ← top
      emit height (.if_ ⟨t, 0, .else_ b.id⟩)
  | .else_ => else_ ctx
  | .exitBlock => do
      let results ← popControl
      pushTypes results.toList
  | .finish =>
      emitting do
        let ty ← popControl
        pure (instrReturn ty)
  | .br l => br ctx l
  | .brIf l => brIf ctx l
  | .brTableStart len => brTableStart len
  | .brTableBranch l => brTableBranch ctx l
  | .brTableFinish l => brTableFinish ctx l
  | .return_ => return_ ctx
  | .call x => call ctx x
  | .callIndirect x => callIndirect ctx x
  | .drop => drop
  | .select => select
  | .localGet x => withLocal ctx x (fun _ => []) (fun t => [t]) .localGet
  | .localSet x => withLocal ctx x (fun t => [t]) (fun _ => []) .localSet
  | .localTee x => withLocal ctx x (fun t => [t]) (fun t => [t]) .localTee
  | .globalGet x => globalGet ctx x
  | .globalSet x => globalSet ctx x
  | .load op m =>
      onMemory ctx [.i32] [op.result] (decide (m.align.toNat ≤ op.maxAlign)) (.load op m)
  | .store op m =>
      onMemory ctx [op.operand, .i32] [] (decide (m.align.toNat ≤ op.maxAlign)) (.store op m)
  | .memorySize => onMemory ctx [] [.i32] true .memorySize
  | .memoryGrow => onMemory ctx [.i32] [.i32] true .memoryGrow
  | .i32Const n => fixed [] [.i32] (.i32Const n)
  | .i64Const n => fixed [] [.i64] (.i64Const n)
  | .f32Const z => fixed [] [.f32] (.f32Const z)
  | .f64Const z => fixed [] [.f64] (.f64Const z)
  | .num op => fixed op.params [op.result] (.num op)
  | .sat op => fixed [op.operand] [op.result] (.sat op)
  | .reinterpret op => do
      popTypes [op.operand]
      pushTypes [op.result]

/-- The assembler at the start of a function, with the block of the function open. -/
def start (base : ℕ) : Asm := {
  base := base
  entries := []
  ends := fun _ => none
  elses := fun _ => none
  blocks := [⟨.block, ctx.returnTy, ctx.returnTy, 0, false, 0, base⟩]
  opds := []
  highwater := 0
  brTableResult := none
  nextId := 1 }

/-! ### What popping operands does -/

theorem top_eq_ok {t t' : Asm} {b : Block} :
    top t = .ok b t' ↔ (∃ bs, t.blocks = b :: bs) ∧ t = t' := by
  unfold top
  rw [bind_of_ok (get_apply t), okOr_eq_ok, List.head?_eq_some_iff]

/-- An operand that is popped is the topmost one, or an unknown one out of an
unreachable block. -/
theorem popOpd_eq_ok {t t' : Asm} {o : OperandType} (h : popOpd t = .ok o t') :
    ∃ b bs, t.blocks = b :: bs ∧
      (t.opds.length - b.height = 0 ∧ b.unreachable = true ∧ o = .unknown ∧ t' = t ∨
        t.opds.length - b.height ≠ 0 ∧
          ∃ opds, t.opds = o :: opds ∧ t' = { t with opds := opds }) := by
  unfold popOpd at h
  obtain ⟨b, t₁, htop, h⟩ := bind_eq_ok.1 h
  obtain ⟨⟨bs, hb⟩, rfl⟩ := top_eq_ok.1 htop
  rw [bind_of_ok (get_apply t)] at h
  refine ⟨b, bs, hb, ?_⟩
  by_cases hzero : t.opds.length - b.height = 0
  · by_cases hun : b.unreachable = true
    · rw [if_pos ⟨hzero, hun⟩, pure_eq_ok] at h
      exact Or.inl ⟨hzero, hun, h.1.symm, h.2.symm⟩
    · have hnot : ¬(t.opds.length - b.height = 0 ∧ b.unreachable = true) := fun hc => hun hc.2
      rw [if_neg hnot, if_pos hzero] at h
      cases h
  · have hnot : ¬(t.opds.length - b.height = 0 ∧ b.unreachable = true) := fun hc => hzero hc.1
    rw [if_neg hnot, if_neg hzero] at h
    cases hopds : t.opds with
    | nil => rw [hopds] at h; cases h
    | cons o' opds =>
        rw [hopds] at h
        cases h
        rw [hopds] at hzero
        exact Or.inr ⟨hzero, opds, rfl, rfl⟩

theorem popExpect_eq_ok {t t' : Asm} {expect o : OperandType}
    (h : popExpect expect t = .ok o t') :
    ∃ actual, popOpd t = .ok actual t' ∧
      (actual = .unknown ∧ o = expect ∨ actual ≠ .unknown ∧ o = actual ∧
        (expect = .unknown ∨ expect = actual)) := by
  unfold popExpect at h
  obtain ⟨actual, t₁, hpop, h⟩ := bind_eq_ok.1 h
  by_cases h1 : actual = .unknown
  · rw [if_pos h1, pure_eq_ok] at h
    obtain ⟨rfl, rfl⟩ := h
    exact ⟨actual, hpop, Or.inl ⟨h1, rfl⟩⟩
  · rw [if_neg h1] at h
    by_cases h2 : expect = .unknown
    · rw [if_pos h2, pure_eq_ok] at h
      obtain ⟨rfl, rfl⟩ := h
      exact ⟨actual, hpop, Or.inr ⟨h1, rfl, Or.inl h2⟩⟩
    · rw [if_neg h2] at h
      by_cases h3 : actual = expect
      · rw [if_neg (not_not_intro h3), pure_eq_ok] at h
        obtain ⟨rfl, rfl⟩ := h
        exact ⟨actual, hpop, Or.inr ⟨h1, rfl, Or.inr h3.symm⟩⟩
      · rw [if_pos h3] at h
        cases h

/-- Popping changes the operands only. -/
theorem popOpd_frame {t t' : Asm} {o : OperandType} (h : popOpd t = .ok o t') :
    ∃ opds, t' = { t with opds := opds } := by
  obtain ⟨b, bs, -, ⟨-, -, -, rfl⟩ | ⟨-, opds, -, rfl⟩⟩ := popOpd_eq_ok h
  · exact ⟨t'.opds, rfl⟩
  · exact ⟨opds, rfl⟩

theorem popTypes_frame {t t' : Asm} {ts : List ValType} {u : Unit}
    (h : popTypes ts t = .ok u t') : ∃ opds, t' = { t with opds := opds } := by
  induction ts generalizing t with
  | nil =>
      rw [popTypes, pure_eq_ok] at h
      exact ⟨t.opds, h.2.symm⟩
  | cons ty ts ih =>
      rw [popTypes] at h
      obtain ⟨o, t₁, hpop, h⟩ := bind_eq_ok.1 h
      obtain ⟨actual, hpop, -⟩ := popExpect_eq_ok hpop
      obtain ⟨opds, rfl⟩ := popOpd_frame hpop
      obtain ⟨opds', rfl⟩ := ih h
      exact ⟨opds', rfl⟩

theorem popBlock_eq_ok {t t' : Asm} {b : Block} (h : popBlock t = .ok b t') :
    ∃ bs opds, t.blocks = b :: bs ∧ popTypes b.out.toList t = .ok () { t with opds := opds } ∧
      opds.length = b.height ∧ t' = { t with opds := opds, blocks := bs } := by
  unfold popBlock at h
  obtain ⟨b', t₁, htop, h⟩ := bind_eq_ok.1 h
  obtain ⟨⟨bs, hb⟩, rfl⟩ := top_eq_ok.1 htop
  obtain ⟨_, t₂, hpop, h⟩ := bind_eq_ok.1 h
  obtain ⟨opds, rfl⟩ := popTypes_frame hpop
  rw [bind_of_ok (get_apply _)] at h
  by_cases hlen : opds.length ≠ b'.height
  · rw [if_pos hlen] at h
    cases h
  · rw [if_neg hlen] at h
    simp only [bind_apply, set_apply, pure_apply, hb, List.tail_cons] at h
    cases h
    exact ⟨bs, opds, hb, hpop, not_not.1 hlen, rfl⟩

end Asm

end SpaceWasm
