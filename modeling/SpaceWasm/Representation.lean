import Mathlib.Data.List.Forall2
import SpaceWasm.Backpatch
import SpaceWasm.Compiler
import SpaceWasm.Imports

/-!
# The code buffer represents a listing

How the state of the compiler represents a state of the symbolic assembler. The
words of a listing are in the code buffer from its base on; an operand whose
target is known jumps to it, and the operands that wait for the end of an open
block form the chain of its control frame.

`p` is the part of an instruction that has been written before the instruction
itself is in the listing.
-/

namespace SpaceWasm

open Fallible TextBuilder

/-- The compilation of one function body: what it refers to, and the code before
it. -/
structure Job where
  store : Store
  module : Module
  func : Func
  code : CodeBuilder

/-- A label operand that waits for the block `id`: a branch to its end, or the
false branch of the `if` it is. -/
def Awaits (kind : BlockKind) (id : ℕ) (d : Dest) : Prop :=
  d = .end_ id ∨ kind = .if_ ∧ d = .else_ id

/-! ### The relation -/

/-- The words of the listing are in the code. -/
structure CodeRel (job : Job) (L : Listing) (p : List Cell) (c : CodeBuilder) : Prop where
  base : L.base = job.code.size
  size : c.size = L.here + p.length
  options : c.options = job.code.options
  below : ∀ i < L.base, c.word i = job.code.word i
  words : ∀ (i : ℕ) w, (image L.entries ++ p)[i]? = some (Cell.word w) → c.word (L.base + i) = w
  pairs : ∀ (i : ℕ) (l : Label), (image L.entries ++ p)[i]? = some (Cell.lo l) →
    (image L.entries ++ p)[i + 1]? = some (Cell.hi l)
  jumps : ∀ (i : ℕ) (l : Label) target, (image L.entries ++ p)[i]? = some (Cell.lo l) →
    L.resolve l.dest = some target → Jumps c.word (L.base + i) l target

/-- The target of a control frame: the start of the loop, or the chain of the
operands that wait for the block. The false branch of an `if` is its tail. -/
structure ChainRel (L : Listing) (p : List Cell) (w : ℕ → U16) (kind : BlockKind) (id start : ℕ)
    (target : JumpTarget) : Prop where
  loop : kind = .loop → target = addrOf start ∧ start ≤ L.here
  chain : kind ≠ .loop → ∃ sites, Chained w target sites ∧
    (∀ s, s ∈ sites ↔ ∃ i, s.addr = L.base + i ∧
      (image L.entries ++ p)[i]? = some (Cell.lo s.label) ∧ Awaits kind id s.label.dest) ∧
    (kind = .if_ → ∃ init tail, sites = init ++ [tail] ∧ tail.label.dest = .else_ id ∧
      ∀ s ∈ init, s.label.dest = .end_ id)

/-- The identity and the kind of a block. -/
def Block.tag (b : Block) : ℕ × BlockKind := (b.id, b.kind)

/-- A label whose target is not known waits for an open block. -/
def LabelOk (L : Listing) (nextId : ℕ) (opens : List (ℕ × BlockKind)) : Dest → Prop
  | .ret => True
  | .back _ => True
  | .end_ id => id < nextId ∧ (L.ends id = none → ∃ k, (id, k) ∈ opens ∧ k ≠ .loop)
  | .else_ id => id < nextId ∧ (L.elses id = none → (id, .if_) ∈ opens)

/-- The identities of the blocks: those of open blocks are distinct and unbound. -/
structure IdsOk (L : Listing) (p : List Cell) (nextId : ℕ) (opens : List (ℕ × BlockKind)) :
    Prop where
  lt : ∀ o ∈ opens, o.1 < nextId
  nodup : (opens.map Prod.fst).Nodup
  ends_none : ∀ o ∈ opens, L.ends o.1 = none
  elses_none : ∀ o ∈ opens, o.2 = .if_ → L.elses o.1 = none
  fresh : ∀ id, nextId ≤ id → L.ends id = none ∧ L.elses id = none
  labels : ∀ (i : ℕ) (l : Label), (image L.entries ++ p)[i]? = some (Cell.lo l) →
    LabelOk L nextId opens l.dest

/-- The operands of an instruction fit their fields. -/
def AsmInstr.Encodable : AsmInstr → Prop
  | plain i => i.Encodable
  | if_ l => l.depth < 256
  | br l => l.depth < 256
  | brIf l => l.depth < 256
  | brTable n ls => n < 2 ^ 16 ∧ ∀ l ∈ ls, l.depth < 256

/-- All that concerns the code buffer. -/
structure CodeInv (job : Job) (L : Listing) (p : List Cell) (nextId : ℕ) (bs : List Block)
    (fs : List ControlFrame) (c : CodeBuilder) : Prop where
  code : CodeRel job L p c
  ids : IdsOk L p nextId (bs.map Block.tag)
  chains : List.Forall₂
    (fun b f => ChainRel L p c.word b.kind b.id b.start f.target) bs fs
  encodable : ∀ e ∈ L.entries, e.instr.Encodable

/-- The operands of the open blocks lie on top of each other, and the outermost
block is the one of the function. -/
def BlocksOk : List Block → ℕ → Prop
  | [], _ => True
  | b :: bs, n => b.height ≤ n ∧ (bs = [] → b.kind = .block) ∧ BlocksOk bs b.height

/-- A control frame and a block check the same types. -/
structure SameTypes (b : Block) (f : ControlFrame) : Prop where
  kind : f.kind = b.kind
  label : f.label = b.label
  out : f.out = b.out
  height : f.height = b.height
  unreachable : f.unreachable = b.unreachable

variable {F D : ℕ}

/-- All that concerns the operand types. -/
structure CheckInv (job : Job) (bs : List Block) (fs : List ControlFrame) (s : TextBuilder F D)
    (t : Asm) : Prop where
  store : s.store = job.store
  module : s.module = job.module
  func : s.func = job.func
  opds : s.valueStack.toList = t.opds
  highwater : s.stackHighwater = t.highwater
  brTableResult : s.brTableResult = t.brTableResult
  types : List.Forall₂ SameTypes bs fs
  blocks : BlocksOk bs t.opds.length

/-- The compiler state represents the assembler state, with `n` open blocks. -/
structure Rep (job : Job) (n : ℕ) (p : List Cell) (s : TextBuilder F D) (t : Asm) : Prop where
  check : CheckInv job t.blocks s.controlFrames.toList s t
  code : CodeInv job t.toListing p t.nextId t.blocks s.controlFrames.toList s.code
  depth : t.blocks.length = n

/-- The code before the function has not changed. -/
structure Job.Intact (job : Job) (c : CodeBuilder) : Prop where
  size : job.code.size ≤ c.size
  word : ∀ i < job.code.size, c.word i = job.code.word i
  options : c.options = job.code.options

theorem CodeRel.intact {job : Job} {L : Listing} {p : List Cell} {c : CodeBuilder}
    (h : CodeRel job L p c) : job.Intact c := by
  refine ⟨?_, ?_, h.options⟩
  · rw [h.size, Listing.here, h.base]
    omega
  · intro i hi
    rw [← h.base] at hi
    exact h.below i hi

theorem Rep.intact {job : Job} {n : ℕ} {p : List Cell} {s : TextBuilder F D} {t : Asm}
    (h : Rep job n p s t) : job.Intact s.code := h.code.code.intact

/-- A change of the operands of the listing keeps the code before the function. -/
theorem Patched.intact {job : Job} {c c' : CodeBuilder} {sites : List Site}
    (h : Patched sites c c') (hc : job.Intact c) (hsites : ∀ s ∈ sites, job.code.size ≤ s.addr) :
    job.Intact c' := by
  refine ⟨?_, ?_, ?_⟩
  · rw [h.shape.size]
    exact hc.size
  · intro i hi
    rw [h.word i ?_, hc.word i hi]
    intro s hs
    have := hsites s hs
    omega
  · rw [h.shape.options, hc.options]

/-! ### Writing words -/

/-- Words have been appended to the code. -/
structure Appended (ws : List U16) (c c' : CodeBuilder) : Prop where
  size : c'.size = c.size + ws.length
  options : c'.options = c.options
  old : ∀ i < c.size, c'.word i = c.word i
  new : ∀ (i : ℕ) w, ws[i]? = some w → c'.word (c.size + i) = w

theorem Appended.trans {ws us : List U16} {c c' c'' : CodeBuilder} (h : Appended ws c c')
    (h' : Appended us c' c'') : Appended (ws ++ us) c c'' := by
  refine ⟨?_, ?_, ?_, ?_⟩
  · rw [h'.size, h.size, List.length_append, Nat.add_assoc]
  · rw [h'.options, h.options]
  · intro i hi
    rw [h'.old i (by rw [h.size]; omega), h.old i hi]
  · intro i w hw
    by_cases hi : i < ws.length
    · rw [List.getElem?_append_left hi] at hw
      rw [h'.old (c.size + i) (by rw [h.size]; omega), h.new i w hw]
    · rw [List.getElem?_append_right (by omega)] at hw
      have := h'.new (i - ws.length) w hw
      rwa [h.size, Nat.add_assoc, Nat.add_sub_cancel' (by omega)] at this

theorem Appended.of_pushed {w : U16} {c c' : CodeBuilder}
    (h : CodeBuilder.Pushed w c (.ok () c')) : Appended [w] c c' := by
  obtain ⟨hsize, hword, hopt⟩ := h
  refine ⟨hsize, hopt, ?_, ?_⟩
  · intro i hi
    rw [hword, Function.update_of_ne (by omega)]
  · intro i x hx
    obtain ⟨rfl, rfl⟩ : i = 0 ∧ w = x := by
      cases i with
      | zero => simpa using hx
      | succ i => simp at hx
    rw [hword, Nat.add_zero, Function.update_self]

/-- The operand that two appended words are. -/
theorem Appended.labelAt {v : LabelTarget} {c c' : CodeBuilder}
    (h : Appended (words32 v) c c') : labelAt c'.word c.size = v := by
  have hlo := h.new 0 _ rfl
  have hhi := h.new 1 _ rfl
  rw [Nat.add_zero] at hlo
  rw [SpaceWasm.labelAt, hlo, hhi, join32_words]

/-- The cell at a place of a listing with more cells at its end. -/
theorem getElem?_append_cells {im p cells : List Cell} {i : ℕ} {x : Cell}
    (h : (im ++ (p ++ cells))[i]? = some x) :
    (im ++ p)[i]? = some x ∨
      ∃ j, i = (im ++ p).length + j ∧ cells[j]? = some x := by
  rw [← List.append_assoc] at h
  by_cases hi : i < (im ++ p).length
  · rw [List.getElem?_append_left hi] at h
    exact Or.inl h
  · rw [List.getElem?_append_right (by omega)] at h
    exact Or.inr ⟨i - (im ++ p).length, by omega, h⟩

theorem getElem?_append_of_some {im p cells : List Cell} {i : ℕ} {x : Cell}
    (h : (im ++ p)[i]? = some x) : (im ++ (p ++ cells))[i]? = some x := by
  obtain ⟨hi, -⟩ := List.getElem?_eq_some_iff.1 h
  rw [← List.append_assoc, List.getElem?_append_left hi, h]

theorem getElem?_append_new {im p cells : List Cell} {j : ℕ} {x : Cell}
    (h : cells[j]? = some x) : (im ++ (p ++ cells))[(im ++ p).length + j]? = some x := by
  rw [← List.append_assoc, List.getElem?_append_right (by omega), Nat.add_sub_cancel_left, h]

section Writing

variable {job : Job} {L : Listing} {p : List Cell} {c c' : CodeBuilder}

theorem CodeRel.size_eq (h : CodeRel job L p c) :
    c.size = L.base + (image L.entries ++ p).length := by
  rw [h.size, Listing.here, List.length_append, Nat.add_assoc]

theorem CodeRel.lt_size (h : CodeRel job L p c) {i : ℕ} {x : Cell}
    (hi : (image L.entries ++ p)[i]? = some x) : L.base + i < c.size := by
  obtain ⟨hlt, -⟩ := List.getElem?_eq_some_iff.1 hi
  rw [h.size_eq]
  omega

/-- Both words of an operand have been written. -/
theorem CodeRel.lo_lt_size (h : CodeRel job L p c) {i : ℕ} {l : Label}
    (hi : (image L.entries ++ p)[i]? = some (Cell.lo l)) : L.base + i + 1 < c.size :=
  h.lt_size (h.pairs i l hi)

theorem CodeRel.append (h : CodeRel job L p c) {ws : List U16} {cells : List Cell}
    (hx : Appended ws c c') (hlen : cells.length = ws.length)
    (hwords : ∀ (i : ℕ) w, cells[i]? = some (Cell.word w) → ws[i]? = some w)
    (hpairs : ∀ (i : ℕ) (l : Label), cells[i]? = some (Cell.lo l) →
      cells[i + 1]? = some (Cell.hi l))
    (hjumps : ∀ (i : ℕ) (l : Label) target, cells[i]? = some (Cell.lo l) →
      L.resolve l.dest = some target →
      Jumps c'.word (c.size + i) l target) : CodeRel job L (p ++ cells) c' := by
  have hsize := h.size_eq
  refine ⟨h.base, ?_, ?_, ?_, ?_, ?_, ?_⟩
  · rw [hx.size, h.size, List.length_append, hlen, Nat.add_assoc]
  · rw [hx.options, h.options]
  · intro i hi
    rw [hx.old i (by omega), h.below i hi]
  · intro i w hw
    rcases getElem?_append_cells hw with hold | ⟨j, rfl, hj⟩
    · rw [hx.old _ (h.lt_size hold), h.words i w hold]
    · rw [← Nat.add_assoc, ← hsize]
      exact hx.new j w (hwords j w hj)
  · intro i l hl
    rcases getElem?_append_cells hl with hold | ⟨j, rfl, hj⟩
    · exact getElem?_append_of_some (h.pairs i l hold)
    · exact getElem?_append_new (hpairs j l hj)
  · intro i l target hl ht
    rcases getElem?_append_cells hl with hold | ⟨j, rfl, hj⟩
    · refine (h.jumps i l target hold ht).congr (hx.old _ (h.lt_size hold)) ?_
      exact hx.old _ (h.lo_lt_size hold)
    · rw [← Nat.add_assoc, ← hsize]
      exact hjumps j l target hj ht

/-- A chain whose block no new operand waits for. -/
theorem ChainRel.append {kind : BlockKind} {id start : ℕ} {target : JumpTarget}
    (h : ChainRel L p c.word kind id start target) (hrel : CodeRel job L p c) {ws : List U16}
    {cells : List Cell} (hx : Appended ws c c')
    (hnone : ∀ (i : ℕ) (l : Label), cells[i]? = some (Cell.lo l) → ¬Awaits kind id l.dest) :
    ChainRel L (p ++ cells) c'.word kind id start target := by
  refine ⟨h.loop, fun hk => ?_⟩
  obtain ⟨sites, hchain, hmem, hif⟩ := h.chain hk
  refine ⟨sites, hchain.congr fun s hs => ?_, fun s => ?_, hif⟩
  · obtain ⟨i, hi, hcell, -⟩ := (hmem s).1 hs
    rw [hi]
    exact ⟨hx.old _ (hrel.lt_size hcell), hx.old _ (hrel.lo_lt_size hcell)⟩
  · rw [hmem s]
    constructor
    · rintro ⟨i, hi, hcell, ha⟩
      exact ⟨i, hi, getElem?_append_of_some hcell, ha⟩
    · rintro ⟨i, hi, hcell, ha⟩
      rcases getElem?_append_cells hcell with hold | ⟨j, rfl, hj⟩
      · exact ⟨i, hi, hold, ha⟩
      · exact absurd ha (hnone j _ hj)

theorem IdsOk.append {nextId : ℕ} {opens : List (ℕ × BlockKind)} (h : IdsOk L p nextId opens)
    {cells : List Cell}
    (hlabels : ∀ (i : ℕ) (l : Label), cells[i]? = some (Cell.lo l) →
      LabelOk L nextId opens l.dest) :
    IdsOk L (p ++ cells) nextId opens := by
  refine ⟨h.lt, h.nodup, h.ends_none, h.elses_none, h.fresh, fun i l hl => ?_⟩
  rcases getElem?_append_cells hl with hold | ⟨j, rfl, hj⟩
  · exact h.labels i l hold
  · exact hlabels j l hj

/-- Appending plain words. -/
theorem CodeInv.append_words {nextId : ℕ} {bs : List Block} {fs : List ControlFrame}
    (h : CodeInv job L p nextId bs fs c) {ws : List U16} (hx : Appended ws c c') :
    CodeInv job L (p ++ ws.map Cell.word) nextId bs fs c' := by
  have hno : ∀ (i : ℕ) (l : Label), (ws.map Cell.word)[i]? ≠ some (Cell.lo l) := by
    intro i l hl
    rw [List.getElem?_map] at hl
    cases hw : ws[i]? <;> rw [hw] at hl <;> cases hl
  refine ⟨?_, ?_, ?_, h.encodable⟩
  · refine h.code.append hx (by simp) (fun i w hw => ?_) (fun i l hl => absurd hl (hno i l))
      (fun i l _ hl => absurd hl (hno i l))
    rw [List.getElem?_map] at hw
    cases hi : ws[i]? <;> rw [hi] at hw <;> cases hw
    rfl
  · exact h.ids.append fun i l hl => absurd hl (hno i l)
  · exact h.chains.imp fun b f hb => hb.append h.code hx fun i l hl => absurd hl (hno i l)

/-- Appending an operand whose target is known. -/
theorem CodeInv.append_known {nextId : ℕ} {bs : List Block} {fs : List ControlFrame}
    (h : CodeInv job L p nextId bs fs c) {l : Label} {o : JumpOffset} {target : JumpTarget}
    (hx : Appended (words32 (l.pack o)) c c') (ho : JumpOffset.new (addrOf c.size) target = .ok o)
    (hl : l.dest = .ret ∧ target = JumpTarget.sentinel ∨
      ∃ a, l.dest = .back a ∧ target = addrOf a) :
    CodeInv job L (p ++ l.cells) nextId bs fs c' := by
  have hcell : ∀ (i : ℕ) l', l.cells[i]? = some (Cell.lo l') → i = 0 ∧ l' = l := by
    intro i l' hi
    rcases i with _ | _ | i
    · exact ⟨rfl, by simpa [Label.cells] using hi.symm⟩
    · simp [Label.cells] at hi
    · simp [Label.cells] at hi
  have hresolve : L.resolve l.dest = some target := by
    rcases hl with ⟨hd, ht⟩ | ⟨a, hd, ht⟩
    · rw [hd, ht]
      rfl
    · rw [hd, ht]
      rfl
  refine ⟨?_, ?_, ?_, h.encodable⟩
  · refine h.code.append hx (by simp [Label.cells, words32]) (fun i w hw => ?_)
      (fun i l' hi => ?_) (fun i l' target' hi ht => ?_)
    · rcases i with _ | _ | i <;> simp [Label.cells] at hw
    · obtain ⟨rfl, rfl⟩ := hcell i l' hi
      rfl
    · obtain ⟨rfl, rfl⟩ := hcell i l' hi
      rw [hresolve, Option.some.injEq] at ht
      subst ht
      exact ⟨o, ho, hx.labelAt⟩
  · refine h.ids.append fun i l' hi => ?_
    obtain ⟨rfl, rfl⟩ := hcell i l' hi
    rcases hl with ⟨hd, -⟩ | ⟨a, hd, -⟩
    · rw [hd]
      trivial
    · rw [hd]
      trivial
  · refine h.chains.imp fun b f hb => hb.append h.code hx fun i l' hi ha => ?_
    obtain ⟨rfl, rfl⟩ := hcell i l' hi
    rcases hl with ⟨hd, -⟩ | ⟨a, hd, -⟩ <;> rw [hd] at ha <;> simp [Awaits] at ha

end Writing

end SpaceWasm
