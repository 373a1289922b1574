import SpaceWasm.CodeBuffer
import SpaceWasm.Label

/-!
# The encoding of IR instructions

`encode` is the word sequence of an instruction, in the form in which the
compiler writes it, and the decoder gives the instruction back. A `br_table`
stands for its head here; the labels that follow it are words of their own.
-/

namespace SpaceWasm

open Fallible TextBuilder

namespace IrInstr

/-- An 8-bit index inline, or `0xFF` and a 16-bit one. -/
def encodeIndex (op : U8) (idx : ℕ) : List U16 :=
  if idx < 0xFF then [opWord op (BitVec.ofNat 8 idx)]
  else [opWord op 0xFF, BitVec.ofNat 16 idx]

def encode : IrInstr → List U16
  | malformedIr => []
  | unreachable => [opWord Opcode.unreachable 0]
  | if_ lt => opWord Opcode.if_ 0 :: words32 lt
  | br lt => opWord Opcode.br 0 :: words32 lt
  | brIf lt => opWord Opcode.brIf 0 :: words32 lt
  | brTable n => encodeIndex Opcode.brTable n.toNat
  | return_ size => [opWord Opcode.return_ size]
  | call x => [opWord Opcode.call 0, x]
  | callHost m x => [opWord Opcode.callHost m, x]
  | callExtern m x => [opWord Opcode.callExtern m, x]
  | callIndirect x => [opWord Opcode.callIndirect 0, BitVec.ofNat 16 x]
  | drop ty => [opWord Opcode.drop ty.tag]
  | select ty => [opWord Opcode.select ty.tag]
  | localGet l => [opWord Opcode.localGet l.ty.tag, l.frameOffset]
  | localSet l => [opWord Opcode.localSet l.ty.tag, l.frameOffset]
  | localTee l => [opWord Opcode.localTee l.ty.tag, l.frameOffset]
  | globalGet idx => encodeIndex Opcode.globalGet idx.toNat
  | globalSet idx => encodeIndex Opcode.globalSet idx.toNat
  | globalGetHost m x => [opWord Opcode.globalGetHost m, x]
  | globalSetHost m x => [opWord Opcode.globalSetHost m, x]
  | globalGetExtern m x => [opWord Opcode.globalGetExtern m, x]
  | globalSetExtern m x => [opWord Opcode.globalSetExtern m, x]
  | load op m => opWord op.opcode (m.align.setWidth 8) :: words32 m.offset
  | store op m => opWord op.opcode (m.align.setWidth 8) :: words32 m.offset
  | memorySize => [opWord Opcode.memorySize 0]
  | memoryGrow => [opWord Opcode.memoryGrow 0]
  | i32Const n =>
      if n.toNat < 0xFF then [opWord Opcode.i32Const (n.setWidth 8)]
      else opWord Opcode.i32Const 0xFF :: words32 n
  | i64Const n =>
      if n.toNat < 0xFF then [opWord Opcode.i64Const (n.setWidth 8)]
      else opWord Opcode.i64Const 0xFF :: words64 n
  | f32Const z => opWord Opcode.f32Const 0 :: words32 z
  | f64Const z => opWord Opcode.f64Const 0 :: words64 z
  | num op => [opWord op.opcode 0]
  | sat op => [opWord Opcode.extendedFc op.sub]

/-- The instructions whose operands fit their fields. -/
def Encodable : IrInstr → Prop
  | malformedIr => False
  | brTable n => n.toNat < 2 ^ 16
  | callIndirect x => x < 2 ^ 16
  | load _ m => m.align.toNat < 0xFF
  | store _ m => m.align.toNat < 0xFF
  | _ => True

end IrInstr

/-- The code holds a word sequence at an address. -/
def Holds (code : List TextPage) : ℕ → List U16 → Prop
  | _, [] => True
  | a, w :: ws => IrReader.read code (addrOf a) = .ok w (addrOf (a + 1)) ∧ Holds code (a + 1) ws

namespace Holds

variable {code : List TextPage}

theorem append {a : ℕ} {ws us : List U16} :
    Holds code a (ws ++ us) ↔ Holds code a ws ∧ Holds code (a + ws.length) us := by
  induction ws generalizing a with
  | nil => simp [Holds]
  | cons w ws ih =>
      rw [List.cons_append, Holds, Holds, ih, List.length_cons, and_assoc]
      rw [Nat.add_assoc a 1, Nat.add_comm 1]

/-- Words that have been pushed are held. -/
theorem of_word {c : CodeBuilder} {a : ℕ} {ws : List U16} (hsize : a + ws.length ≤ c.size)
    (h : ∀ i x, ws[i]? = some x → c.word (a + i) = x) : Holds c.pages a ws := by
  induction ws generalizing a with
  | nil => trivial
  | cons w ws ih =>
      rw [List.length_cons] at hsize
      constructor
      · have hw : c.word a = w := h 0 w rfl
        rw [IrReader.read_pages (by omega), hw]
      · refine ih (by omega) fun i x hx => ?_
        have := h (i + 1) x (by simpa using hx)
        rwa [Nat.add_assoc, Nat.add_comm 1]

end Holds

namespace IrReader

variable {code : List TextPage}

theorem readU32_words32 {a : ℕ} {v : U32} (h : Holds code a (words32 v)) :
    readU32 code (addrOf a) = .ok v (addrOf (a + 2)) := by
  obtain ⟨hlo, hhi, -⟩ := h
  have hv : join32 (v.setWidth 16) ((v >>> 16).setWidth 16) = v := join32_words v
  unfold readU32
  rw [bind_of_ok hlo, bind_of_ok hhi, pure_apply]
  rw [join32] at hv
  rw [hv]

theorem readU64_words64 {a : ℕ} {v : U64} (h : Holds code a (words64 v)) :
    readU64 code (addrOf a) = .ok v (addrOf (a + 4)) := by
  obtain ⟨h1, h2, h3, h4, -⟩ := h
  unfold readU64
  rw [bind_of_ok h1, bind_of_ok h2, bind_of_ok h3, bind_of_ok h4, pure_apply, join64_words]

/-- The opcodes that `decodeRest` names one by one. -/
def named : List U8 :=
  [Opcode.unreachable, Opcode.if_, Opcode.br, Opcode.brIf, Opcode.brTable, Opcode.return_,
   Opcode.call, Opcode.callHost, Opcode.callExtern, Opcode.callIndirect, Opcode.drop,
   Opcode.select, Opcode.localGet, Opcode.localSet, Opcode.localTee, Opcode.globalGet,
   Opcode.globalSet, Opcode.globalGetHost, Opcode.globalSetHost, Opcode.globalGetExtern,
   Opcode.globalSetExtern, Opcode.memorySize, Opcode.memoryGrow, Opcode.i32Const,
   Opcode.i64Const, Opcode.f32Const, Opcode.f64Const, Opcode.extendedFc]

/-- An opcode of the tables of loads, stores and numeric instructions. -/
theorem decodeRest_of_not_named {op imm : U8} (h : op ∉ named) :
    decodeRest code op imm =
      match LoadOp.ofOpcode op with
      | some i => do
          let offset ← readU32 code
          pure (.load i ⟨imm.setWidth 32, offset⟩)
      | none =>
        match StoreOp.ofOpcode op with
        | some i => do
            let offset ← readU32 code
            pure (.store i ⟨imm.setWidth 32, offset⟩)
        | none =>
          match NumOp.ofOpcode op with
          | some i => pure (.num i)
          | none => pure .malformedIr := by
  simp only [named, List.mem_cons, List.not_mem_nil, or_false, not_or] at h
  have hrest := decodeRest.eq_def code op imm
  simp only [h, if_false] at hrest
  exact hrest

theorem load_not_named (op : LoadOp) : op.opcode ∉ named := by
  cases op <;> decide

theorem store_not_named (op : StoreOp) : op.opcode ∉ named := by
  cases op <;> decide

theorem num_not_named (op : NumOp) : op.opcode ∉ named := by
  cases op <;> decide

theorem load_ofOpcode_store (op : StoreOp) : LoadOp.ofOpcode op.opcode = none := by
  cases op <;> decide

theorem load_ofOpcode_num (op : NumOp) : LoadOp.ofOpcode op.opcode = none := by
  cases op <;> decide

theorem store_ofOpcode_num (op : NumOp) : StoreOp.ofOpcode op.opcode = none := by
  cases op <;> decide

theorem decode_eq {a : ℕ} {op imm : U8} {ws : List U16} (h : Holds code a (opWord op imm :: ws)) :
    decode code (addrOf a) = decodeRest code op imm (addrOf (a + 1)) := by
  unfold decode
  rw [bind_of_ok h.1, opWord_opcode, opWord_imm]

/-- The words of an index: the immediate, and how the decoder completes it. -/
theorem decode_index {a idx : ℕ} {op : U8} (hidx : idx < 2 ^ 16)
    (h : Holds code a (IrInstr.encodeIndex op idx)) :
    ∃ imm, decode code (addrOf a) = decodeRest code op imm (addrOf (a + 1)) ∧
      readIndex code imm (addrOf (a + 1)) =
        .ok (BitVec.ofNat 16 idx) (addrOf (a + (IrInstr.encodeIndex op idx).length)) := by
  unfold IrInstr.encodeIndex at h ⊢
  by_cases hsmall : idx < 0xFF
  · rw [if_pos hsmall] at h ⊢
    refine ⟨BitVec.ofNat 8 idx, decode_eq h, ?_⟩
    have hne : BitVec.ofNat 8 idx ≠ 0xFF := by
      intro heq
      have hnat : (BitVec.ofNat 8 idx).toNat = 255 := congrArg BitVec.toNat heq
      rw [BitVec.toNat_ofNat] at hnat
      omega
    have hset : (BitVec.ofNat 8 idx).setWidth 16 = BitVec.ofNat 16 idx := by
      apply BitVec.eq_of_toNat_eq
      simp only [BitVec.toNat_setWidth, BitVec.toNat_ofNat]
      omega
    rw [readIndex, if_neg hne, hset, pure_apply, List.length_singleton]
  · rw [if_neg hsmall] at h ⊢
    refine ⟨0xFF, decode_eq h, ?_⟩
    rw [readIndex, if_pos rfl]
    exact h.2.1

theorem map_of_ok {α β : Type} {x : FetchM α} {f : α → β} {s t : JumpTarget} {a : α}
    (h : x s = .ok a t) : (f <$> x) s = .ok (f a) t := by
  rw [map_eq_pure_bind, bind_of_ok h, pure_apply]

theorem setWidth_ne_ff {w : ℕ} {n : BitVec w} (h : n.toNat < 0xFF) : n.setWidth 8 ≠ 0xFF := by
  intro heq
  have hnat : (n.setWidth 8).toNat = 255 := congrArg BitVec.toNat heq
  rw [BitVec.toNat_setWidth] at hnat
  omega

theorem setWidth_setWidth_of_lt {w : ℕ} {n : BitVec w} (h : n.toNat < 0xFF) :
    (n.setWidth 8).setWidth w = n := by
  apply BitVec.eq_of_toNat_eq
  have := n.isLt
  rw [BitVec.toNat_setWidth, BitVec.toNat_setWidth, Nat.mod_eq_of_lt (by omega : n.toNat < 2 ^ 8),
    Nat.mod_eq_of_lt this]

theorem decodeRest_extendedFc (sub : U8) :
    decodeRest code Opcode.extendedFc sub =
      match SatOp.ofSub sub with
      | some i => pure (.sat i)
      | none => pure .malformedIr := rfl

/-- The decoder undoes the encoding, and stops at the word after it. -/
theorem decode_encode {i : IrInstr} {a : ℕ} (hi : i.Encodable) (h : Holds code a i.encode) :
    decode code (addrOf a) = .ok i (addrOf (a + i.encode.length)) := by
  cases i with
  | malformedIr => exact hi.elim
  | unreachable => exact decode_eq h
  | if_ lt => exact (decode_eq h).trans (map_of_ok (readU32_words32 h.2))
  | br lt => exact (decode_eq h).trans (map_of_ok (readU32_words32 h.2))
  | brIf lt => exact (decode_eq h).trans (map_of_ok (readU32_words32 h.2))
  | brTable n =>
      obtain ⟨imm, hdec, hread⟩ := decode_index hi h
      have hn : (BitVec.ofNat 16 n.toNat).setWidth 32 = n := by
        apply BitVec.eq_of_toNat_eq
        have : n.toNat < 2 ^ 16 := hi
        simp only [BitVec.toNat_setWidth, BitVec.toNat_ofNat]
        omega
      have hrest : decodeRest code Opcode.brTable imm = (do
          let n ← readIndex code imm
          pure (.brTable (n.setWidth 32))) := rfl
      rw [hdec, hrest, bind_of_ok hread, pure_apply, hn]
      rfl
  | return_ size => exact decode_eq h
  | call x => exact (decode_eq h).trans (map_of_ok h.2.1)
  | callHost m x => exact (decode_eq h).trans (map_of_ok h.2.1)
  | callExtern m x => exact (decode_eq h).trans (map_of_ok h.2.1)
  | callIndirect x =>
      have hx : (BitVec.ofNat 16 x).toNat = x := by
        rw [BitVec.toNat_ofNat, Nat.mod_eq_of_lt hi]
      have hrest : decodeRest code Opcode.callIndirect 0 = (do
          let n ← IrReader.read code
          pure (.callIndirect n.toNat)) := rfl
      rw [decode_eq h, hrest, bind_of_ok h.2.1, pure_apply, hx]
      rfl
  | drop ty =>
      have hrest : decodeRest code Opcode.drop ty.tag = pure (withValType ty.tag .drop) := rfl
      rw [decode_eq h, hrest, withValType, ValType.fromRepr_tag]
      rfl
  | select ty =>
      have hrest : decodeRest code Opcode.select ty.tag = pure (withValType ty.tag .select) := rfl
      rw [decode_eq h, hrest, withValType, ValType.fromRepr_tag]
      rfl
  | localGet l =>
      have hrest : decodeRest code Opcode.localGet l.ty.tag = (do
          let frameOffset ← IrReader.read code
          pure (withValType l.ty.tag fun ty => .localGet ⟨frameOffset, ty⟩)) := rfl
      rw [decode_eq h, hrest, bind_of_ok h.2.1, withValType, ValType.fromRepr_tag]
      rfl
  | localSet l =>
      have hrest : decodeRest code Opcode.localSet l.ty.tag = (do
          let frameOffset ← IrReader.read code
          pure (withValType l.ty.tag fun ty => .localSet ⟨frameOffset, ty⟩)) := rfl
      rw [decode_eq h, hrest, bind_of_ok h.2.1, withValType, ValType.fromRepr_tag]
      rfl
  | localTee l =>
      have hrest : decodeRest code Opcode.localTee l.ty.tag = (do
          let frameOffset ← IrReader.read code
          pure (withValType l.ty.tag fun ty => .localTee ⟨frameOffset, ty⟩)) := rfl
      rw [decode_eq h, hrest, bind_of_ok h.2.1, withValType, ValType.fromRepr_tag]
      rfl
  | globalGet idx =>
      obtain ⟨imm, hdec, hread⟩ := decode_index idx.isLt h
      have hmap := map_of_ok (f := IrInstr.globalGet) hread
      rw [BitVec.ofNat_toNat, BitVec.setWidth_eq] at hmap
      exact hdec.trans hmap
  | globalSet idx =>
      obtain ⟨imm, hdec, hread⟩ := decode_index idx.isLt h
      have hmap := map_of_ok (f := IrInstr.globalSet) hread
      rw [BitVec.ofNat_toNat, BitVec.setWidth_eq] at hmap
      exact hdec.trans hmap
  | globalGetHost m x => exact (decode_eq h).trans (map_of_ok h.2.1)
  | globalSetHost m x => exact (decode_eq h).trans (map_of_ok h.2.1)
  | globalGetExtern m x => exact (decode_eq h).trans (map_of_ok h.2.1)
  | globalSetExtern m x => exact (decode_eq h).trans (map_of_ok h.2.1)
  | load op m =>
      have halign : (m.align.setWidth 8).setWidth 32 = m.align := setWidth_setWidth_of_lt hi
      rw [decode_eq h, decodeRest_of_not_named (load_not_named op), LoadOp.ofOpcode_opcode]
      simp only
      rw [bind_of_ok (readU32_words32 h.2), pure_apply, halign]
      rfl
  | store op m =>
      have halign : (m.align.setWidth 8).setWidth 32 = m.align := setWidth_setWidth_of_lt hi
      rw [decode_eq h, decodeRest_of_not_named (store_not_named op), load_ofOpcode_store,
        StoreOp.ofOpcode_opcode]
      simp only
      rw [bind_of_ok (readU32_words32 h.2), pure_apply, halign]
      rfl
  | memorySize => exact decode_eq h
  | memoryGrow => exact decode_eq h
  | i32Const n =>
      have hrest : ∀ imm, decodeRest code Opcode.i32Const imm =
          IrInstr.i32Const <$> if imm = 0xFF then readU32 code else pure (imm.setWidth 32) :=
        fun imm => rfl
      rw [IrInstr.encode] at h ⊢
      by_cases hsmall : n.toNat < 0xFF
      · rw [if_pos hsmall] at h ⊢
        rw [decode_eq h, hrest, if_neg (setWidth_ne_ff hsmall), setWidth_setWidth_of_lt hsmall]
        rfl
      · rw [if_neg hsmall] at h ⊢
        rw [decode_eq h, hrest, if_pos rfl]
        exact map_of_ok (readU32_words32 h.2)
  | i64Const n =>
      have hrest : ∀ imm, decodeRest code Opcode.i64Const imm =
          IrInstr.i64Const <$> if imm = 0xFF then readU64 code else pure (imm.setWidth 64) :=
        fun imm => rfl
      rw [IrInstr.encode] at h ⊢
      by_cases hsmall : n.toNat < 0xFF
      · rw [if_pos hsmall] at h ⊢
        rw [decode_eq h, hrest, if_neg (setWidth_ne_ff hsmall), setWidth_setWidth_of_lt hsmall]
        rfl
      · rw [if_neg hsmall] at h ⊢
        rw [decode_eq h, hrest, if_pos rfl]
        exact map_of_ok (readU64_words64 h.2)
  | f32Const z => exact (decode_eq h).trans (map_of_ok (readU32_words32 h.2))
  | f64Const z => exact (decode_eq h).trans (map_of_ok (readU64_words64 h.2))
  | num op =>
      rw [decode_eq h, decodeRest_of_not_named (num_not_named op), load_ofOpcode_num,
        store_ofOpcode_num, NumOp.ofOpcode_opcode]
      rfl
  | sat op =>
      rw [decode_eq h, decodeRest_extendedFc, SatOp.ofSub_sub]
      rfl

end IrReader

end SpaceWasm
