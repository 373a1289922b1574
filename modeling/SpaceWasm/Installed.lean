import Mathlib.Data.List.GetD
import SpaceWasm.Interpreter
import SpaceWasm.Listing

/-!
# Stepping through a listing

The decoder reads an installed listing back: at the address of each instruction
it gives this instruction with its targets resolved, and stops at the address of
the next one. A `br_table` is followed by its labels, of which the closure picks
the one of the selector.
-/

namespace SpaceWasm

open Fallible

/-! ### Stepping the decoder -/

namespace IrReader

variable (code : List TextPage)

/-- `visit_instruction`, with a visitor that asks a `br_table` for the label of
the selector `v`. -/
def visitInstruction (v : U32) : FetchM (IrInstr × Option LabelTarget) := do
  let i ← decode code
  match i with
  | .brTable n => do
      let l ← brTableCase code n v
      pure (i, some l)
  | i => pure (i, none)

/-- One instruction for each selector. -/
def visitInstructions : List U32 → FetchM (List (IrInstr × Option LabelTarget))
  | [] => pure []
  | v :: vs => do
      let i ← visitInstruction code v
      let is ← visitInstructions vs
      pure (i :: is)

variable {code}

theorem visitInstructions_append {vs ws : List U32} {is js : List (IrInstr × Option LabelTarget)}
    {s t u : JumpTarget} (h : visitInstructions code vs s = .ok is t)
    (h' : visitInstructions code ws t = .ok js u) :
    visitInstructions code (vs ++ ws) s = .ok (is ++ js) u := by
  induction vs generalizing s is with
  | nil =>
      obtain ⟨rfl, rfl⟩ := pure_eq_ok.1 h
      exact h'
  | cons v vs ih =>
      obtain ⟨i, s₁, hi, h⟩ := bind_eq_ok.1 h
      obtain ⟨is', s₂, his, h⟩ := bind_eq_ok.1 h
      obtain ⟨rfl, rfl⟩ := pure_eq_ok.1 h
      rw [List.cons_append, visitInstructions, bind_of_ok hi, bind_of_ok (ih his), pure_apply,
        List.cons_append]

end IrReader

/-- The words between a `br_table` and the label of the selector `v`, as the
interpreter computes them. -/
def brTableOffset (n v : U32) : JumpOffset :=
  (if 0xFF ≤ n.toNat then 2 else 1) + 2 * (if v < n then v else n)

namespace Interpreter

/-- A `br_table` branches relative to the operand of the label it picks. -/
theorem brTable_eq {η : Type} (env : ExecEnv η) (n : U32) (pc : JumpTarget) :
    brTable env n pc = (do
      dropSp 1
      let e ← get
      let v ← readWord e.sp
      match IrReader.brTableCase env.code n v pc with
      | .ok label pc => do
          brImpl (brTableOffset n v) label
          pure pc
      | _ => panic) := by
  unfold brTable
  congr 1
  funext _
  congr 1
  funext e
  congr 1
  funext v
  cases IrReader.brTableCase env.code n v pc with
  | ok label pc' =>
      simp only [brTableOffset]
      by_cases h : v < n
      · rw [if_pos h, if_pos h]
      · rw [if_neg h, if_neg h]
  | _ => rfl

end Interpreter

/-! ### The labels of a `br_table` -/

theorem words32_length (v : U32) : (words32 v).length = 2 := rfl

theorem flatMap_words32_length (vs : List LabelTarget) :
    (vs.flatMap words32).length = 2 * vs.length := by
  induction vs with
  | nil => rfl
  | cons v vs ih =>
      rw [List.flatMap_cons, List.length_append, ih, words32_length, List.length_cons]
      omega

namespace IrReader

variable {code : List TextPage}

theorem dropLabels_of_holds {a : ℕ} {vs : List LabelTarget}
    (h : Holds code a (vs.flatMap words32)) :
    dropLabels code vs.length (addrOf a) = .ok () (addrOf (a + 2 * vs.length)) := by
  induction vs generalizing a with
  | nil => rfl
  | cons v vs ih =>
      rw [List.flatMap_cons, Holds.append] at h
      rw [dropLabels, List.length_cons, iterate_succ, bind_assoc, bind_of_ok (readU32_words32 h.1)]
      have hrest := ih h.2
      rw [words32_length, dropLabels] at hrest
      rw [show a + 2 * (vs.length + 1) = a + 2 + 2 * vs.length by omega]
      exact hrest

theorem readU32_of_holds {a k : ℕ} {vs : List LabelTarget} {v : LabelTarget}
    (h : Holds code a (vs.flatMap words32)) (hv : vs[k]? = some v) :
    readU32 code (addrOf (a + 2 * k)) = .ok v (addrOf (a + 2 * (k + 1))) := by
  obtain ⟨hk, rfl⟩ := List.getElem?_eq_some_iff.1 hv
  rw [← List.take_append_drop k vs, List.flatMap_append, Holds.append, List.drop_eq_getElem_cons hk,
    List.flatMap_cons, Holds.append, flatMap_words32_length, List.length_take,
    Nat.min_eq_left (Nat.le_of_lt hk)] at h
  have hread := readU32_words32 h.2.1
  rw [hread]
  rfl

theorem dropLabels_drop {a k : ℕ} {vs : List LabelTarget} (h : Holds code a (vs.flatMap words32))
    (hk : k ≤ vs.length) (n : ℕ) (hn : k + n ≤ vs.length) :
    dropLabels code n (addrOf (a + 2 * k)) = .ok () (addrOf (a + 2 * (k + n))) := by
  rw [← List.take_append_drop k vs, List.flatMap_append, Holds.append, flatMap_words32_length,
    List.length_take, Nat.min_eq_left hk, ← List.take_append_drop n (vs.drop k),
    List.flatMap_append, Holds.append] at h
  have hdrop := dropLabels_of_holds h.2.1
  rw [List.length_take, List.length_drop, Nat.min_eq_left (by omega)] at hdrop
  rw [hdrop, Nat.mul_add, Nat.add_assoc]

/-- The closure picks the label of the selector, the last one for a selector out
of range, and reads all of them. -/
theorem brTableCase_of_holds {a : ℕ} {vs : List LabelTarget} {n v : U32} {l : LabelTarget}
    (h : Holds code a (vs.flatMap words32)) (hlen : vs.length = n.toNat + 1)
    (hl : vs[min v.toNat n.toNat]? = some l) :
    brTableCase code n v (addrOf a) = .ok l (addrOf (a + 2 * (n.toNat + 1))) := by
  unfold brTableCase
  by_cases hlt : v < n
  · have hv : v.toNat < n.toNat := BitVec.lt_def.1 hlt
    rw [Nat.min_eq_left (Nat.le_of_lt hv)] at hl
    have hdrop := dropLabels_drop h (Nat.zero_le _) v.toNat (by omega)
    have hdrop' := dropLabels_drop h (k := v.toNat + 1) (by omega) (n.toNat - (v.toNat + 1))
      (by omega)
    rw [Nat.mul_zero, Nat.add_zero, Nat.zero_add] at hdrop
    rw [Nat.add_sub_cancel' hv] at hdrop'
    have hlast : ∃ w, vs[n.toNat]? = some w :=
      ⟨_, List.getElem?_eq_getElem (by omega : n.toNat < vs.length)⟩
    obtain ⟨w, hw⟩ := hlast
    rw [if_pos hlt, bind_of_ok hdrop, bind_of_ok (readU32_of_holds h hl), bind_of_ok hdrop',
      bind_of_ok (readU32_of_holds h hw), pure_apply]
  · have hv : n.toNat ≤ v.toNat := Nat.le_of_not_lt fun hc => hlt (BitVec.lt_def.2 hc)
    rw [Nat.min_eq_right hv] at hl
    have hdrop := dropLabels_drop h (Nat.zero_le _) n.toNat (by omega)
    rw [Nat.mul_zero, Nat.add_zero, Nat.zero_add] at hdrop
    rw [if_neg hlt, bind_of_ok hdrop, readU32_of_holds h hl]

end IrReader

/-! ### Installed listings -/

theorem join32_low (lo hi : U16) : (join32 lo hi).setWidth 16 = lo := by
  apply BitVec.eq_of_getLsbD_eq
  intro i hi'
  simp [join32, hi']

theorem join32_high (lo hi : U16) : (join32 lo hi >>> 16).setWidth 16 = hi := by
  apply BitVec.eq_of_getLsbD_eq
  intro i hi'
  have h32 : 16 + i < 32 := by omega
  simp [join32, hi', h32]

theorem words32_labelAt (w : ℕ → U16) (a : ℕ) : words32 (labelAt w a) = [w a, w (a + 1)] := by
  rw [words32, labelAt, join32_low, join32_high]

/-- The branch operands in the words from `a` on. -/
def labelsAt (w : ℕ → U16) : ℕ → ℕ → List LabelTarget
  | _, 0 => []
  | a, n + 1 => labelAt w a :: labelsAt w (a + 2) n

theorem labelsAt_length (w : ℕ → U16) (a n : ℕ) : (labelsAt w a n).length = n := by
  induction n generalizing a with
  | zero => rfl
  | succ n ih => rw [labelsAt, List.length_cons, ih]

theorem labelsAt_getElem? {w : ℕ → U16} {a n k : ℕ} (hk : k < n) :
    (labelsAt w a n)[k]? = some (labelAt w (a + 2 * k)) := by
  induction n generalizing a k with
  | zero => exact absurd hk (Nat.not_lt_zero k)
  | succ n ih =>
      cases k with
      | zero => rfl
      | succ k =>
          rw [labelsAt, List.getElem?_cons_succ, ih (Nat.lt_of_succ_lt_succ hk)]
          rw [show a + 2 + 2 * k = a + 2 * (k + 1) by omega]

theorem holds_labelsAt {c : CodeBuilder} {a n : ℕ} (h : a + 2 * n ≤ c.size) :
    Holds c.pages a ((labelsAt c.word a n).flatMap words32) := by
  induction n generalizing a with
  | zero => trivial
  | succ n ih =>
      rw [labelsAt, List.flatMap_cons, Holds.append, words32_labelAt]
      refine ⟨⟨?_, ?_, trivial⟩, ih (by simp only [List.length_cons, List.length_nil]; omega)⟩
      · exact IrReader.read_pages (by omega)
      · exact IrReader.read_pages (by omega)

namespace Listing

variable (L : Listing)

/-- The offset from the operand at the address `a` to its target. -/
def offset (a : ℕ) (d : Dest) : JumpOffset :=
  match L.resolve d with
  | some target => if target = JumpTarget.sentinel then 0 else target - addrOf a
  | none => 0

/-- The operand of a label at the address `a`. -/
def operand (a : ℕ) (l : Label) : LabelTarget := l.pack (L.offset a l.dest)

/-- What `visit_instruction` gives at an instruction. -/
def visited (e : Entry) (v : U32) : IrInstr × Option LabelTarget :=
  match e.instr with
  | .plain i => (i, none)
  | .if_ l => (.if_ (L.operand (e.addr + 1) l), none)
  | .br l => (.br (L.operand (e.addr + 1) l), none)
  | .brIf l => (.brIf (L.operand (e.addr + 1) l), none)
  | .brTable n ls =>
      (.brTable (BitVec.ofNat 32 n), ls[min v.toNat n]?.map
        (L.operand (e.addr + e.instr.head.length + 2 * min v.toNat n)))

/-- The operand `x` at the address `a` has the arity and the depth of `l`; it is a
return without an offset, or a jump to the target of `l`. -/
structure Lands (a : ℕ) (l : Label) (x : LabelTarget) : Prop where
  arity : x.arity = some (LabelTarget.arityOf l.result)
  depth : x.depth.toNat = l.depth
  sentinel : x.isSentinel = true ↔ l.dest = .ret
  jump : l.dest ≠ .ret → L.resolve l.dest = some (addrOf a + x.jump)

/-- The code holds the instruction, with its targets resolved. -/
structure Holding (code : List TextPage) (e : Entry) : Prop where
  complete : e.instr.Complete
  encodable : e.instr.Encodable
  words : ∃ xs : List LabelTarget, Holds code e.addr (e.instr.head ++ xs.flatMap words32) ∧
    xs.length = e.instr.labels.length ∧
    ∀ k l, e.instr.labels[k]? = some l →
      xs[k]? = some (L.operand (e.addr + e.instr.head.length + 2 * k) l) ∧
      L.Lands (e.addr + e.instr.head.length + 2 * k) l
        (L.operand (e.addr + e.instr.head.length + 2 * k) l)

/-- The listing lies in the code. -/
structure Installed (code : List TextPage) : Prop where
  listed : Listed L.base L.entries
  holding : ∀ e ∈ L.entries, L.Holding code e

variable {L}

theorem operand_lands {a : ℕ} {l : Label} {target : JumpTarget} {o : JumpOffset}
    (ho : JumpOffset.new (addrOf a) target = .ok o) (hres : L.resolve l.dest = some target)
    (ha : a < 2 ^ 32) (hdepth : l.depth < 256)
    (htarget : l.dest ≠ .ret → ∃ b, target = addrOf b ∧ b < 2 ^ 32 - 1 ∧ b ≠ a) :
    L.operand a l = l.pack o ∧ L.Lands a l (l.pack o) := by
  have hfits := JumpOffset.new_fits ho
  have hoffset : L.offset a l.dest = o := by
    rw [offset, hres]
    by_cases hs : target = JumpTarget.sentinel
    · rw [hs, JumpOffset.new_sentinel] at ho
      cases ho
      exact if_pos hs
    · exact (if_neg hs).trans ((JumpOffset.new_eq_ok hs).1 ho).1.symm
  have hsub : l.dest ≠ .ret → addrOf a + o = target ∧ o ≠ 0 := by
    intro hd
    obtain ⟨b, rfl, hb, hne⟩ := htarget hd
    have ho' := ((JumpOffset.new_eq_ok (addrOf_ne_sentinel hb)).1 ho).1
    have hadd : addrOf a + o = addrOf b := by rw [ho', BitVec.add_comm, BitVec.sub_add_cancel]
    refine ⟨hadd, fun hzero => hne ?_⟩
    rw [hzero] at hadd
    exact (addrOf_inj (by omega) ha).1 (by simpa using hadd.symm)
  refine ⟨by rw [operand, hoffset], ?_, ?_, ?_, fun hd => ?_⟩
  · exact LabelTarget.arity_new _ _ _
  · rw [Label.pack, LabelTarget.depth_new, BitVec.toNat_ofNat, Nat.mod_eq_of_lt hdepth]
  · rw [Label.pack, LabelTarget.isSentinel_new hfits, decide_eq_true_iff]
    constructor
    · intro hzero
      by_contra hd
      exact (hsub hd).2 hzero
    · intro hd
      rw [hd] at hres
      cases hres
      rw [JumpOffset.new_sentinel] at ho
      cases ho
      rfl
  · rw [Label.pack, LabelTarget.jump_new hfits, (hsub hd).1]
    exact hres

end Listing

/-! ### What the compiler has installed -/

theorem flatMap_cells_getElem? {ls : List Label} {k : ℕ} {l : Label} (h : ls[k]? = some l) :
    (ls.flatMap Label.cells)[2 * k]? = some (Cell.lo l) := by
  induction ls generalizing k with
  | nil => cases h
  | cons l' ls ih =>
      cases k with
      | zero =>
          cases h
          rfl
      | succ k =>
          have htwo : l'.cells.length ≤ 2 * (k + 1) := Nat.le_mul_of_pos_right 2 (Nat.succ_pos k)
          rw [List.flatMap_cons, List.getElem?_append_right htwo]
          exact ih h

theorem AsmInstr.label_cell {i : AsmInstr} {k : ℕ} {l : Label} (h : i.labels[k]? = some l) :
    i.cells[i.head.length + 2 * k]? = some (Cell.lo l) := by
  rw [cells, List.getElem?_append_right (by simp), List.length_map, Nat.add_sub_cancel_left]
  exact flatMap_cells_getElem? h

theorem AsmInstr.cells_length (i : AsmInstr) :
    i.cells.length = i.head.length + 2 * i.labels.length := by
  rw [cells, List.length_append, List.length_map]
  congr 1
  induction i.labels with
  | nil => rfl
  | cons l ls ih =>
      rw [List.flatMap_cons, List.length_append, ih, List.length_cons]
      simp only [Label.cells, List.length_cons, List.length_nil]
      omega

theorem AsmInstr.Encodable.label {i : AsmInstr} (h : i.Encodable) {l : Label}
    (hl : l ∈ i.labels) : l.depth < 256 := by
  cases i with
  | plain i => cases hl
  | if_ l' => rw [List.mem_singleton.1 hl]; exact h
  | br l' => rw [List.mem_singleton.1 hl]; exact h
  | brIf l' => rw [List.mem_singleton.1 hl]; exact h
  | brTable n ls => exact h.2 l hl

/-- Words that later code keeps. -/
structure CodeBuilder.Extends (c c' : CodeBuilder) : Prop where
  size : c.size ≤ c'.size
  word : ∀ i < c.size, c'.word i = c.word i

variable {job : Job} {L : Listing} {c c' : CodeBuilder} {nextId : ℕ}

/-- Every target is known once no block is open. -/
theorem IdsOk.resolved (h : IdsOk L [] nextId []) {i : ℕ} {l : Label}
    (hl : (image L.entries ++ [])[i]? = some (Cell.lo l)) :
    ∃ target, L.resolve l.dest = some target := by
  have hok := h.labels i l hl
  cases hd : l.dest with
  | ret => exact ⟨_, rfl⟩
  | back a => exact ⟨_, rfl⟩
  | end_ id =>
      rw [hd] at hok
      cases hends : L.ends id with
      | none =>
          obtain ⟨k, hk, -⟩ := hok.2 hends
          cases hk
      | some a => exact ⟨addrOf a, by rw [Listing.resolve, hends]; rfl⟩
  | else_ id =>
      rw [hd] at hok
      cases helses : L.elses id with
      | none => cases hok.2 helses
      | some a => exact ⟨addrOf a, by rw [Listing.resolve, helses]; rfl⟩

/-- A target other than a return is an address of the listing, and not the one of
the operand. -/
theorem Listing.Placed.target (h : L.Placed) {e : Entry} (he : e ∈ L.entries) {l : Label} {k : ℕ}
    (hl : e.instr.labels[k]? = some l) {target : JumpTarget}
    (hres : L.resolve l.dest = some target) (hd : l.dest ≠ .ret) :
    ∃ b, target = addrOf b ∧ b ≤ L.here ∧ b ≠ e.addr + e.instr.head.length + 2 * k := by
  have hplaced := h.labels e he l (List.mem_of_getElem? hl)
  have hnext : e.addr + e.instr.head.length + 2 * k < e.next := by
    obtain ⟨hk, -⟩ := List.getElem?_eq_some_iff.1 hl
    rw [Entry.next, AsmInstr.cells_length]
    omega
  have hhead : 0 < e.instr.head.length := by
    cases hi : e.instr with
    | plain i => rw [hi] at hl; cases hl
    | if_ l => exact Nat.one_pos
    | br l => exact Nat.one_pos
    | brIf l => exact Nat.one_pos
    | brTable n ls =>
        rw [AsmInstr.head, IrInstr.encodeIndex]
        split
        · exact Nat.one_pos
        · exact Nat.two_pos
  have hle := (h.listed.next_le he).2
  cases hdest : l.dest with
  | ret => exact absurd hdest hd
  | back a =>
      rw [hdest] at hplaced hres
      cases hres
      refine ⟨a, rfl, ?_, ?_⟩
      · exact Nat.le_trans hplaced (Nat.le_trans (by rw [Entry.next]; omega) hle)
      · simp only [LabelPlaced] at hplaced
        omega
  | end_ id =>
      rw [hdest] at hplaced hres
      obtain ⟨b, hb, rfl⟩ := Option.map_eq_some_iff.1 hres
      have := hplaced b hb
      exact ⟨b, rfl, h.ends_le id b hb, by omega⟩
  | else_ id =>
      rw [hdest] at hplaced hres
      obtain ⟨b, hb, rfl⟩ := Option.map_eq_some_iff.1 hres
      have := hplaced b hb
      exact ⟨b, rfl, h.elses_le id b hb, by omega⟩

/-- The operand of a label in the code. -/
theorem CodeRel.lands (h : CodeRel job L [] c) (hids : IdsOk L [] nextId []) (hp : L.Placed)
    {e : Entry} (he : e ∈ L.entries) (hencodable : e.instr.Encodable) {k : ℕ} {l : Label}
    (hl : e.instr.labels[k]? = some l) :
    e.addr + e.instr.head.length + 2 * k + 1 < c.size ∧
      labelAt c.word (e.addr + e.instr.head.length + 2 * k) =
        L.operand (e.addr + e.instr.head.length + 2 * k) l ∧
      L.Lands (e.addr + e.instr.head.length + 2 * k) l
        (L.operand (e.addr + e.instr.head.length + 2 * k) l) := by
  obtain ⟨j, hj, hjx⟩ := hp.listed.getElem? he (AsmInstr.label_cell hl)
  rw [← List.append_nil (image L.entries)] at hjx
  obtain ⟨target, hres⟩ := hids.resolved hjx
  obtain ⟨o, ho, hlabel⟩ := h.jumps j l target hjx hres
  have hlt := h.lo_lt_size hjx
  have hc := c.size_lt
  rw [← hj, ← Nat.add_assoc] at ho hlabel hlt
  have hdepth := hencodable.label (List.mem_of_getElem? hl)
  obtain ⟨hop, hlands⟩ := L.operand_lands ho hres (by omega) hdepth fun hd => by
    obtain ⟨b, hb, hbound, hne⟩ := hp.target he hl hres hd
    have := h.size
    rw [List.length_nil] at this
    exact ⟨b, hb, by omega, hne⟩
  exact ⟨hlt, by rw [hop, hlabel], hop ▸ hlands⟩

/-- An instruction of the listing lies in the code. -/
theorem CodeRel.holding (h : CodeRel job L [] c) (hids : IdsOk L [] nextId []) (hp : L.Placed)
    (hext : c.Extends c') {e : Entry} (he : e ∈ L.entries) (hcomplete : e.instr.Complete)
    (hencodable : e.instr.Encodable) : L.Holding c'.pages e := by
  have hsize : L.here ≤ c'.size := by
    have := h.size
    rw [List.length_nil, Nat.add_zero] at this
    rw [← this]
    exact hext.size
  have hnext := (hp.listed.next_le he).2
  rw [Entry.next, AsmInstr.cells_length] at hnext
  refine ⟨hcomplete, hencodable,
    labelsAt c'.word (e.addr + e.instr.head.length) e.instr.labels.length, ?_, ?_, ?_⟩
  · rw [Holds.append]
    constructor
    · refine Holds.of_word (by rw [Listing.here] at hsize; omega) fun i x hx => ?_
      have hi : e.instr.cells[i]? = some (Cell.word x) := by
        obtain ⟨hlt, -⟩ := List.getElem?_eq_some_iff.1 hx
        rw [AsmInstr.cells, List.getElem?_append_left (by simpa using hlt), List.getElem?_map, hx]
        rfl
      obtain ⟨j, hj, hjx⟩ := hp.listed.getElem? he hi
      rw [← List.append_nil (image L.entries)] at hjx
      rw [hj, hext.word _ (h.lt_size hjx), h.words j x hjx]
    · refine holds_labelsAt ?_
      rw [Listing.here] at hsize
      omega
  · exact labelsAt_length _ _ _
  · intro k l hl
    obtain ⟨hlt, hlabel, hlands⟩ := h.lands hids hp he hencodable hl
    obtain ⟨hk, -⟩ := List.getElem?_eq_some_iff.1 hl
    refine ⟨?_, hlands⟩
    rw [labelsAt_getElem? hk, ← hlabel, labelAt, labelAt, hext.word _ (by omega),
      hext.word _ hlt]

/-! ### Reading a listing back -/

namespace Listing

variable {code : List TextPage} {e : Entry}

/-- The only label of a branch. -/
theorem Holding.decode_label (h : L.Holding code e) {w : U16} {l : Label}
    {f : LabelTarget → IrInstr}
    (hhead : e.instr.head = [w]) (hlabels : e.instr.labels = [l])
    (hencode : ∀ x, (f x).encode = w :: words32 x) (hf : ∀ x, (f x).Encodable) :
    IrReader.decode code (addrOf e.addr) =
      .ok (f (L.operand (e.addr + 1) l)) (addrOf e.next) := by
  obtain ⟨xs, hwords, hlen, hxs⟩ := h.words
  have hx := (hxs 0 l (by rw [hlabels]; rfl)).1
  rw [hhead, List.length_singleton, Nat.mul_zero, Nat.add_zero] at hx
  rw [hlabels] at hlen
  obtain ⟨x, rfl⟩ := List.length_eq_one_iff.1 hlen
  cases hx
  rw [hhead, List.flatMap_singleton, List.singleton_append, ← hencode] at hwords
  rw [IrReader.decode_encode (hf _) hwords, hencode, Entry.next, AsmInstr.cells_length, hhead,
    hlabels]
  rfl

theorem visitInstruction_of_decode {v : U32} {i : IrInstr} {s t : JumpTarget}
    (h : IrReader.decode code s = .ok i t) (hi : ∀ n, i ≠ .brTable n) :
    IrReader.visitInstruction code v s = .ok (i, none) t := by
  unfold IrReader.visitInstruction
  rw [bind_of_ok h]
  cases i with
  | brTable n => exact absurd rfl (hi n)
  | _ => rfl

theorem Straight.ne_brTable {i : IrInstr} (h : i.Straight) (n : U32) : i ≠ .brTable n := by
  rintro rfl
  exact h

theorem Holding.decode_plain (h : L.Holding code e) {i : IrInstr} (hi : e.instr = .plain i) :
    IrReader.decode code (addrOf e.addr) = .ok i (addrOf e.next) := by
  obtain ⟨xs, hwords, hlen, -⟩ := h.words
  have hencodable := h.encodable
  rw [hi] at hwords hlen hencodable
  obtain rfl := List.length_eq_zero_iff.1 hlen
  rw [AsmInstr.head, List.flatMap_nil, List.append_nil] at hwords
  rw [IrReader.decode_encode hencodable hwords, Entry.next, AsmInstr.cells_length, hi]
  rfl

theorem Holding.decode_brTable (h : L.Holding code e) {n : ℕ} {ls : List Label}
    (hi : e.instr = .brTable n ls) :
    IrReader.decode code (addrOf e.addr) =
      .ok (.brTable (BitVec.ofNat 32 n)) (addrOf (e.addr + e.instr.head.length)) ∧ n < 2 ^ 16 := by
  obtain ⟨xs, hwords, -⟩ := h.words
  have hencodable := h.encodable
  rw [hi] at hwords hencodable
  have hlt : n < 2 ^ 16 := hencodable.1
  have hn : (BitVec.ofNat 32 n).toNat = n := by
    rw [BitVec.toNat_ofNat, Nat.mod_eq_of_lt (Nat.lt_of_lt_of_le hlt (by decide))]
  have hhead : (AsmInstr.brTable n ls).head = (IrInstr.brTable (BitVec.ofNat 32 n)).encode := by
    rw [AsmInstr.head, IrInstr.encode, hn]
  rw [Holds.append, hhead] at hwords
  rw [IrReader.decode_encode (i := .brTable (BitVec.ofNat 32 n))
    (by rw [IrInstr.Encodable, hn]; exact hlt) hwords.1, hi, hhead]
  exact ⟨rfl, hlt⟩

/-- The closure of a `br_table` picks the operand of the label of the selector. -/
theorem Holding.brTableCase (h : L.Holding code e) {n : ℕ} {ls : List Label}
    (hi : e.instr = .brTable n ls) (v : U32) :
    ∃ l, ls[min v.toNat n]? = some l ∧
      IrReader.brTableCase code (BitVec.ofNat 32 n) v (addrOf (e.addr + e.instr.head.length)) =
        .ok (L.operand (e.addr + e.instr.head.length + 2 * min v.toNat n) l) (addrOf e.next) := by
  obtain ⟨xs, hwords, hlen, hxs⟩ := h.words
  have hcomplete := h.complete
  have hlt := (h.decode_brTable hi).2
  have hn : (BitVec.ofNat 32 n).toNat = n := by
    rw [BitVec.toNat_ofNat, Nat.mod_eq_of_lt (Nat.lt_of_lt_of_le hlt (by decide))]
  rw [hi] at hwords hlen hcomplete hxs
  have hcount : ls.length = n + 1 := hcomplete
  have hmin : min v.toNat n < ls.length := by
    rw [hcount]
    exact Nat.lt_succ_of_le (Nat.min_le_right _ _)
  obtain ⟨hx, -⟩ := hxs (min v.toNat n) _ (List.getElem?_eq_getElem hmin)
  rw [Holds.append] at hwords
  refine ⟨_, List.getElem?_eq_getElem hmin, ?_⟩
  rw [hi, IrReader.brTableCase_of_holds (n := BitVec.ofNat 32 n) (v := v) hwords.2
    (by rw [hlen, hn]; exact hcount) (by rw [hn]; exact hx), Entry.next, AsmInstr.cells_length, hi,
    hn]
  simp only [AsmInstr.labels, hcount, Nat.add_assoc]

/-- Stepping over an instruction of a listing. -/
theorem Holding.visit (h : L.Holding code e) (v : U32) :
    IrReader.visitInstruction code v (addrOf e.addr) = .ok (L.visited e v) (addrOf e.next) := by
  cases hi : e.instr with
  | plain i =>
      have hcomplete := h.complete
      rw [hi] at hcomplete
      rw [visited, hi]
      exact visitInstruction_of_decode (h.decode_plain hi) (Straight.ne_brTable hcomplete)
  | if_ l =>
      rw [visited, hi]
      exact visitInstruction_of_decode (h.decode_label (f := .if_) (by rw [hi]; rfl)
        (by rw [hi]; rfl) (fun _ => rfl) fun _ => trivial) fun _ h => by cases h
  | br l =>
      rw [visited, hi]
      exact visitInstruction_of_decode (h.decode_label (f := .br) (by rw [hi]; rfl)
        (by rw [hi]; rfl) (fun _ => rfl) fun _ => trivial) fun _ h => by cases h
  | brIf l =>
      rw [visited, hi]
      exact visitInstruction_of_decode (h.decode_label (f := .brIf) (by rw [hi]; rfl)
        (by rw [hi]; rfl) (fun _ => rfl) fun _ => trivial) fun _ h => by cases h
  | brTable n ls =>
      obtain ⟨l, hl, hcase⟩ := h.brTableCase hi v
      unfold IrReader.visitInstruction
      rw [bind_of_ok (h.decode_brTable hi).1]
      simp only
      rw [bind_of_ok hcase, pure_apply, visited, hi]
      simp only
      rw [hl, Option.map_some]

/-- Stepping through a whole listing, with a selector for each instruction. -/
theorem Installed.visits (h : L.Installed code) (vs : List U32)
    (hlen : vs.length = L.entries.length) :
    IrReader.visitInstructions code vs (addrOf L.base) =
      .ok (List.zipWith L.visited L.entries.reverse vs) (addrOf L.here) := by
  have hall : ∀ (es : List Entry) (vs : List U32), vs.length = es.length →
      Listed L.base es → (∀ e ∈ es, L.Holding code e) →
      IrReader.visitInstructions code vs (addrOf L.base) =
        .ok (List.zipWith L.visited es.reverse vs) (addrOf (L.base + (image es).length)) := by
    intro es
    induction es with
    | nil =>
        intro vs hlen _ _
        obtain rfl := List.length_eq_zero_iff.1 hlen
        rfl
    | cons e es ih =>
        intro vs hlen hlisted hholding
        rcases List.eq_nil_or_concat vs with rfl | ⟨us, v, rfl⟩
        · cases hlen
        · rw [List.concat_eq_append, List.length_append, List.length_cons] at hlen
          have hus : us.length = es.length := Nat.succ_injective hlen
          have hinit := ih us hus hlisted.2 fun e he => hholding e (List.mem_cons_of_mem _ he)
          have hlast := (hholding e List.mem_cons_self).visit v
          rw [hlisted.1] at hlast
          have hone : IrReader.visitInstructions code [v] (addrOf (L.base + (image es).length)) =
              .ok [L.visited e v] (addrOf e.next) := by
            rw [IrReader.visitInstructions, bind_of_ok hlast]
            rfl
          rw [List.concat_eq_append, IrReader.visitInstructions_append hinit hone,
            List.reverse_cons, List.zipWith_append (by rw [List.length_reverse, hus])]
          rw [Entry.next, hlisted.1, image, List.length_append, Nat.add_assoc]
          rfl
  exact hall L.entries vs hlen h.listed h.holding

/-- The offset the interpreter adds for the label of a selector. -/
theorem addrOf_brTableOffset {n : ℕ} (hn : n < 2 ^ 16) (ls : List Label) (a : ℕ) (v : U32) :
    addrOf a + brTableOffset (BitVec.ofNat 32 n) v =
      addrOf (a + (AsmInstr.brTable n ls).head.length + 2 * min v.toNat n) := by
  have hv := v.isLt
  have hnat : (BitVec.ofNat 32 n).toNat = n := by
    rw [BitVec.toNat_ofNat, Nat.mod_eq_of_lt (by omega)]
  have hop : (if 0xFF ≤ n then 2 else 1 : U32) =
      BitVec.ofNat 32 (AsmInstr.brTable n ls).head.length := by
    rw [AsmInstr.head, IrInstr.encodeIndex]
    by_cases h : n < 0xFF
    · rw [if_pos h, if_neg (by omega)]
      rfl
    · rw [if_neg h, if_pos (by omega)]
      rfl
  have hpick : (if v < BitVec.ofNat 32 n then v else BitVec.ofNat 32 n) =
      BitVec.ofNat 32 (min v.toNat n) := by
    by_cases h : v < BitVec.ofNat 32 n
    · have hlt := BitVec.lt_def.1 h
      rw [hnat] at hlt
      rw [if_pos h, Nat.min_eq_left (Nat.le_of_lt hlt), BitVec.ofNat_toNat, BitVec.setWidth_eq]
    · have hle : n ≤ v.toNat := by
        rw [BitVec.lt_def, hnat] at h
        exact Nat.le_of_not_lt h
      rw [if_neg h, Nat.min_eq_right hle]
  rw [brTableOffset, hnat, hop, hpick, addrOf, addrOf, BitVec.ofNat_add, BitVec.ofNat_add,
    BitVec.ofNat_mul, BitVec.add_assoc]
  rfl

end Listing

end SpaceWasm
