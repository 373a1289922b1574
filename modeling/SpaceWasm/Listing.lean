import SpaceWasm.CodeRefinement

/-!
# The shape of a listing

The instructions of a listing lie one after the other, a backward branch goes to
an address before it and a forward branch to one behind it, and a `br_table` has
one label more than its number. These hold of every listing that the assembler
makes.
-/

namespace SpaceWasm

/-- Every instruction lies where the words before it end. -/
def Listed (base : ℕ) : List Entry → Prop
  | [] => True
  | e :: es => e.addr = base + (image es).length ∧ Listed base es

/-- The words of a listed instruction within the words of the listing. -/
theorem Listed.image_eq {base : ℕ} {es : List Entry} (h : Listed base es) {e : Entry}
    (he : e ∈ es) : ∃ pre post, image es = pre ++ (e.instr.cells ++ post) ∧
      e.addr = base + pre.length := by
  induction es with
  | nil => cases he
  | cons e' es ih =>
      rcases List.mem_cons.1 he with rfl | he
      · exact ⟨image es, [], by rw [image, List.append_nil], h.1⟩
      · obtain ⟨pre, post, himage, haddr⟩ := ih h.2 he
        refine ⟨pre, post ++ e'.instr.cells, ?_, haddr⟩
        rw [image, himage, List.append_assoc, List.append_assoc]

theorem Listed.next_le {base : ℕ} {es : List Entry} (h : Listed base es) {e : Entry}
    (he : e ∈ es) : base ≤ e.addr ∧ e.next ≤ base + (image es).length := by
  obtain ⟨pre, post, himage, haddr⟩ := h.image_eq he
  rw [Entry.next, himage, haddr]
  simp only [List.length_append]
  omega

/-- The cells of a listed instruction. -/
theorem Listed.getElem? {base : ℕ} {es : List Entry} (h : Listed base es) {e : Entry}
    (he : e ∈ es) {i : ℕ} {x : Cell} (hx : e.instr.cells[i]? = some x) :
    ∃ j, e.addr + i = base + j ∧ (image es)[j]? = some x := by
  obtain ⟨pre, post, himage, haddr⟩ := h.image_eq he
  refine ⟨pre.length + i, by omega, ?_⟩
  obtain ⟨hi, -⟩ := List.getElem?_eq_some_iff.1 hx
  rw [himage, List.getElem?_append_right (by omega), Nat.add_sub_cancel_left,
    List.getElem?_append_left hi, hx]

namespace Listing

variable {L : Listing}

/-- Where the target of a label in an instruction can lie. -/
def LabelPlaced (L : Listing) (e : Entry) : Dest → Prop
  | .ret => True
  | .back a => a ≤ e.addr
  | .end_ id => ∀ a, L.ends id = some a → e.next ≤ a
  | .else_ id => ∀ a, L.elses id = some a → e.next ≤ a

/-- The target of a new label: a loop that has started, or a block that is open. -/
def NewDest (L : Listing) (bound : ℕ) : Dest → Prop
  | .ret => True
  | .back a => a ≤ bound
  | .end_ id => L.ends id = none
  | .else_ id => L.elses id = none

/-- The instructions and their targets are in place. -/
structure Placed (L : Listing) : Prop where
  listed : Listed L.base L.entries
  labels : ∀ e ∈ L.entries, ∀ l ∈ e.instr.labels, L.LabelPlaced e l.dest
  ends_le : ∀ id a, L.ends id = some a → a ≤ L.here
  elses_le : ∀ id a, L.elses id = some a → a ≤ L.here

theorem NewDest.placed {e : Entry} {d : Dest} (h : L.NewDest e.addr d) : L.LabelPlaced e d := by
  cases d with
  | ret => trivial
  | back a => exact h
  | end_ id =>
      intro a ha
      rw [show L.ends id = none from h] at ha
      cases ha
  | else_ id =>
      intro a ha
      rw [show L.elses id = none from h] at ha
      cases ha

/-- Emitting an instruction. -/
theorem Placed.push (h : L.Placed) {i : AsmInstr} (height : Option ℕ)
    (hi : ∀ l ∈ i.labels, L.NewDest L.here l.dest) :
    Placed { L with entries := ⟨L.here, i, height⟩ :: L.entries } := by
  have hle : L.here ≤ L.base + (image L.entries ++ i.cells).length := by
    rw [List.length_append, ← Nat.add_assoc]
    exact Nat.le_add_right _ _
  refine ⟨⟨rfl, h.listed⟩, fun e he l hl => ?_, fun id a ha => ?_, fun id a ha => ?_⟩
  · rcases List.mem_cons.1 he with rfl | he
    · exact NewDest.placed (L := L) (e := ⟨L.here, i, height⟩) (hi l hl)
    · exact h.labels e he l hl
  · exact Nat.le_trans (h.ends_le id a ha) hle
  · exact Nat.le_trans (h.elses_le id a ha) hle

/-- Binding targets to the current address. -/
theorem Placed.bind (h : L.Placed) (ends elses : ℕ → Option ℕ)
    (hends : ∀ id a, ends id = some a → L.ends id = some a ∨ a = L.here)
    (helses : ∀ id a, elses id = some a → L.elses id = some a ∨ a = L.here) :
    Placed { L with ends := ends, elses := elses } := by
  refine ⟨h.listed, fun e he l hl => ?_, fun id a ha => ?_, fun id a ha => ?_⟩
  rotate_left
  · rcases hends id a ha with ha | rfl
    · exact h.ends_le id a ha
    · exact Nat.le_refl _
  · rcases helses id a ha with ha | rfl
    · exact h.elses_le id a ha
    · exact Nat.le_refl _
  have hold := h.labels e he l hl
  have hnext := (h.listed.next_le he).2
  cases hd : l.dest with
  | ret => trivial
  | back a => rwa [hd] at hold
  | end_ id =>
      rw [hd] at hold
      intro a ha
      rcases hends id a ha with ha | rfl
      · exact hold a ha
      · exact hnext
  | else_ id =>
      rw [hd] at hold
      intro a ha
      rcases helses id a ha with ha | rfl
      · exact hold a ha
      · exact hnext

end Listing

/-- An instruction without a branch operand. -/
def IrInstr.Straight : IrInstr → Prop
  | malformedIr => False
  | if_ _ => False
  | br _ => False
  | brIf _ => False
  | brTable _ => False
  | _ => True

/-- Branch operands are labels, and a `br_table` has its labels and the default
one. -/
def AsmInstr.Complete : AsmInstr → Prop
  | plain i => i.Straight
  | brTable n ls => ls.length = n + 1
  | _ => True

theorem Asm.instrReturn_straight (r : ResultType) : (Asm.instrReturn r).Straight := by
  cases r <;> exact trivial

theorem Context.Emits.straight {ctx : Context} {i : WasmInstr} {j : IrInstr}
    {ins outs : List ValType} (h : ctx.Emits i j ins outs) : j.Straight := by
  cases h with
  | @call _ ref => cases ref <;> exact trivial
  | @globalGet _ g => cases hg : g.reference <;> exact trivial
  | @globalSet _ g => cases hg : g.reference <;> exact trivial
  | _ => exact trivial

namespace Asm

variable {t : Asm}

/-- The last instruction is a `br_table` that is being read. -/
def Building (t : Asm) (n k : ℕ) : Prop :=
  ∃ e es ls, t.entries = e :: es ∧ e.instr = .brTable n ls ∧ ls.length = k ∧
    (∀ l ∈ ls, t.NewDest e.addr l.dest) ∧ (∀ b ∈ t.blocks, b.start ≤ e.addr) ∧
    ∀ e ∈ es, e.instr.Complete

/-- The listing is in place. -/
structure Shaped (m : Mode) (t : Asm) : Prop where
  placed : t.toListing.Placed
  starts : ∀ b ∈ t.blocks, b.start ≤ t.here
  mode : match m with
    | .code => ∀ e ∈ t.entries, e.instr.Complete
    | .table n k => t.Building n k

theorem dead_toListing (t : Asm) : t.dead.toListing = t.toListing := by
  unfold dead
  split <;> rfl

theorem dead_starts {k : ℕ} (h : ∀ b ∈ t.blocks, b.start ≤ k) :
    ∀ b ∈ t.dead.blocks, b.start ≤ k := by
  unfold dead
  split
  · exact h
  · rename_i b bs hb
    intro b' hb'
    rcases List.mem_cons.1 hb' with rfl | hb'
    · exact h b (by rw [hb]; exact List.mem_cons_self)
    · exact h b' (by rw [hb]; exact List.mem_cons_of_mem b hb')

/-- A label to an open block. -/
theorem Targets.newDest {returnTy : ResultType} {l : Idx} {label : Label} {types : ResultType}
    (h : t.Targets returnTy l label types) (hopen : ∀ o ∈ t.blocks.map Block.tag, t.ends o.1 = none)
    {bound : ℕ} (hstarts : ∀ b ∈ t.blocks, b.start ≤ bound) : t.NewDest bound label.dest := by
  cases h with
  | ret => trivial
  | back _ hb _ => exact hstarts _ (List.mem_of_getElem? hb)
  | end_ _ hb _ => exact hopen _ (List.mem_map_of_mem (List.mem_of_getElem? hb))

theorem here_push (t : Asm) (i : AsmInstr) : (t.push i).here = t.here + i.cells.length := by
  rw [push, Listing.here, Listing.here, image, List.length_append, Nat.add_assoc]

/-- A step that leaves the listing alone. -/
theorem Shaped.same {t' : Asm} (h : t.Shaped .code) (hL : t'.toListing = t.toListing)
    (hb : ∀ b ∈ t'.blocks, b.start ≤ t.here) : t'.Shaped .code := by
  refine ⟨hL ▸ h.placed, ?_, ?_⟩
  · rw [hL]
    exact hb
  · rw [hL]
    exact h.mode

/-- A step that emits an instruction. -/
theorem Shaped.push {t' : Asm} (h : t.Shaped .code) {i : AsmInstr}
    (hi : ∀ l ∈ i.labels, t.NewDest t.here l.dest) (hc : i.Complete)
    (hL : t'.toListing = (t.push i).toListing) (hb : ∀ b ∈ t'.blocks, b.start ≤ t.here) :
    t'.Shaped .code := by
  have hle : t.here ≤ (t.push i).here := by
    rw [here_push]
    exact Nat.le_add_right _ _
  refine ⟨hL ▸ h.placed.push t.height hi, fun b hb' => ?_, ?_⟩
  · rw [hL]
    exact Nat.le_trans (hb b hb') hle
  · rw [hL]
    intro e he
    rcases List.mem_cons.1 he with rfl | he
    · exact hc
    · exact h.mode e he

theorem bound_ends {b : Block} {id a : ℕ} (h : (t.bound b).ends id = some a) :
    t.ends id = some a ∨ a = t.here := by
  by_cases hid : id = b.id
  · simp only [bound, hid, Function.update_self, Option.some.injEq] at h
    exact Or.inr h.symm
  · simp only [bound, Function.update_of_ne hid] at h
    exact Or.inl h

theorem bound_elses {b : Block} {id a : ℕ} (h : (t.bound b).elses id = some a) :
    t.elses id = some a ∨ a = t.here := by
  by_cases hkind : b.kind = .if_
  · by_cases hid : id = b.id
    · simp only [bound, hkind, if_true, hid, Function.update_self, Option.some.injEq] at h
      exact Or.inr h.symm
    · simp only [bound, hkind, if_true, Function.update_of_ne hid] at h
      exact Or.inl h
  · simp only [bound, if_neg hkind] at h
    exact Or.inl h

/-- The end of a block. -/
theorem Shaped.bound (h : t.Shaped .code) (b : Block) : (t.bound b).Shaped .code :=
  ⟨h.placed.bind _ _ (fun _ _ => bound_ends) fun _ _ => bound_elses, h.starts, h.mode⟩

end Asm

/-- An instruction that is emitted is no part of a `br_table`. -/
theorem Context.Emits.mode {ctx : Context} {i : WasmInstr} {j : IrInstr} {ins outs : List ValType}
    {m m' : Mode} (h : ctx.Emits i j ins outs) (hm : m.Next i m') : m = .code ∧ m' = .code := by
  cases hm with
  | single => exact ⟨rfl, rfl⟩
  | start => cases h
  | branch => cases h
  | finish => cases h

theorem Context.Retypes.mode {ctx : Context} {i : WasmInstr} {ins outs : List ValType}
    {m m' : Mode} (h : ctx.Retypes i ins outs) (hm : m.Next i m') : m = .code ∧ m' = .code := by
  cases hm with
  | single => exact ⟨rfl, rfl⟩
  | start => cases h
  | branch => cases h
  | finish => cases h

namespace Asm

variable {ctx : Context} {t t' : Asm}

theorem mem_tail_starts {b b' : Block} {bs : List Block} (hb : t.blocks = b :: bs)
    (h : ∀ b ∈ t.blocks, b.start ≤ t.here) (hb' : b' ∈ bs) : b'.start ≤ t.here :=
  h b' (by rw [hb]; exact List.mem_cons_of_mem b hb')

/-- One more label of a `br_table`. -/
theorem Building.addLabel {n k : ℕ} (h : t.Building n k) {l : Idx} {label : Label}
    {returnTy types : ResultType} (hok : t.Ok) (htgt : t.Targets returnTy l label types) :
    (t.addLabel label).Building n (k + 1) := by
  obtain ⟨e, es, ls, hes, hi, hlen, hls, hstarts, hcomplete⟩ := h
  refine ⟨{ e with instr := e.instr.addLabel label }, es, ls ++ [label], ?_, ?_, ?_, ?_, hstarts,
    hcomplete⟩
  · simp only [Asm.addLabel, hes, List.modifyHead_cons]
  · simp only [hi, AsmInstr.addLabel]
  · rw [List.length_append, hlen]
    rfl
  · intro l' hl'
    rcases List.mem_append.1 hl' with hl' | hl'
    · exact hls l' hl'
    · rw [List.mem_singleton.1 hl']
      exact htgt.newDest hok.ids.ends_none hstarts

theorem here_addLabel {n k : ℕ} (hb : t.Building n k) (label : Label) :
    t.here ≤ (t.addLabel label).here := by
  obtain ⟨e, es, ls, hes, hi, -, -, -, -⟩ := hb
  simp only [Asm.addLabel, Listing.here, hes, List.modifyHead_cons, image, List.length_append,
    AsmInstr.cells, hi, AsmInstr.addLabel, AsmInstr.head, AsmInstr.labels, List.flatMap_append]
  omega

theorem placed_addLabel {n k : ℕ} (h : t.toListing.Placed) (hb : t.Building n k) {l : Idx}
    {label : Label} {returnTy types : ResultType} (hok : t.Ok)
    (htgt : t.Targets returnTy l label types) : (t.addLabel label).toListing.Placed := by
  have hle := here_addLabel hb label
  obtain ⟨e', es', ls', hes', hi', -, hls', -, -⟩ := hb.addLabel hok htgt
  obtain ⟨e, es, ls, hes, hi, -, -, -, -⟩ := hb
  have hentries : (t.addLabel label).entries =
      { e with instr := e.instr.addLabel label } :: es := by
    simp only [Asm.addLabel, hes, List.modifyHead_cons]
  rw [hentries] at hes'
  obtain ⟨rfl, rfl⟩ := List.cons.inj hes'
  have hlisted : Listed t.base (e :: es) := hes ▸ h.listed
  refine ⟨?_, fun x hx l hl => ?_, fun id a ha => ?_, fun id a ha => ?_⟩
  rotate_right 2
  · exact Nat.le_trans (h.ends_le id a ha) hle
  · exact Nat.le_trans (h.elses_le id a ha) hle
  · rw [hentries]
    exact ⟨hlisted.1, hlisted.2⟩
  · rw [hentries] at hx
    rcases List.mem_cons.1 hx with rfl | hx
    · rw [hi'] at hl
      exact Listing.NewDest.placed (L := t.toListing) (hls' l hl)
    · exact h.labels x (by rw [hes]; exact List.mem_cons_of_mem e hx) l hl

/-- Every step keeps the shape of the listing. -/
theorem Step.shaped {m m' : Mode} {i : WasmInstr} (hok : t.Ok) (h : t.Shaped m)
    (hm : m.Next i m') (hstep : Step ctx t i t') : t'.Shaped m' := by
  cases hstep with
  | silent hr _ _ =>
      obtain ⟨rfl, rfl⟩ := hr.mode hm
      exact h.same rfl h.starts
  | plain he _ _ _ =>
      obtain ⟨rfl, rfl⟩ := he.mode hm
      exact h.push (i := .plain _) (fun l hl => by cases hl) he.straight rfl h.starts
  | unreachable =>
      cases hm
      exact h.push (i := .plain .unreachable) (fun l hl => by cases hl) trivial
        (dead_toListing _) (dead_starts h.starts)
  | return_ _ =>
      cases hm
      exact h.push (i := .plain _) (fun l hl => by cases hl) (instrReturn_straight _)
        (dead_toListing _) (dead_starts h.starts)
  | enterBlock =>
      cases hm
      refine h.same rfl fun b hb => ?_
      rcases List.mem_cons.1 hb with rfl | hb
      · exact Nat.le_refl _
      · exact h.starts b hb
  | loop_ =>
      cases hm
      refine h.same rfl fun b hb => ?_
      rcases List.mem_cons.1 hb with rfl | hb
      · exact Nat.le_refl _
      · exact h.starts b hb
  | @if_ ty opds _ =>
      cases hm
      refine h.push (i := .if_ ⟨ty, 0, .else_ t.nextId⟩) (fun l hl => ?_) trivial rfl
        fun b hb => ?_
      · rw [List.mem_singleton.1 hl]
        exact (hok.ids.fresh t.nextId (Nat.le_refl _)).2
      · rcases List.mem_cons.1 hb with rfl | hb
        · exact Nat.le_refl _
        · exact h.starts b hb
  | @else_ label types b bs opds htgt hb _ _ _ =>
      cases hm
      have hpush : (t.push (.br label)).Shaped .code :=
        h.push (i := .br label) (fun l hl => by
          rw [List.mem_singleton.1 hl]
          exact htgt.newDest hok.ids.ends_none h.starts) trivial rfl h.starts
      refine ⟨hpush.placed.bind t.ends _ (fun _ _ ha => Or.inl ha) fun id a ha => ?_, ?_,
        hpush.mode⟩
      · by_cases hid : id = b.id
        · rw [hid, Function.update_self, Option.some.injEq] at ha
          exact Or.inr ha.symm
        · rw [Function.update_of_ne hid] at ha
          exact Or.inl ha
      · intro b' hb'
        rcases List.mem_cons.1 hb' with rfl | hb'
        · exact hpush.starts b (by rw [show (t.push (.br label)).blocks = b :: bs from hb]
                                   exact List.mem_cons_self)
        · exact mem_tail_starts (t := t.push (.br label)) hb hpush.starts hb'
  | @exitBlock b bs opds hw hb _ _ _ _ =>
      cases hm
      exact (h.bound b).same rfl fun b' hb' => mem_tail_starts hb h.starts hb'
  | @finish b bs opds hb _ _ _ =>
      cases hm
      exact (h.bound b).push (i := .plain _) (fun l hl => by cases hl) (instrReturn_straight _) rfl
        fun b' hb' => mem_tail_starts hb h.starts hb'
  | @br l label types opds htgt _ =>
      cases hm
      exact h.push (i := .br label) (fun l hl => by
        rw [List.mem_singleton.1 hl]
        exact htgt.newDest hok.ids.ends_none h.starts) trivial (dead_toListing _)
        (dead_starts h.starts)
  | @brIf l label types opds opds' hw _ htgt _ _ =>
      cases hm
      exact h.push (i := .brIf label) (fun l hl => by
        rw [List.mem_singleton.1 hl]
        exact htgt.newDest hok.ids.ends_none h.starts) trivial rfl h.starts
  | @brTableStart len opds _ =>
      cases hm with
      | single hs => exact hs.elim
      | start =>
          refine ⟨h.placed.push t.height (fun l hl => by cases hl), fun b hb => ?_, ?_⟩
          · exact Nat.le_trans (h.starts b hb) (by
              have := here_push t (.brTable len.toNat [])
              rw [this]
              exact Nat.le_add_right _ _)
          · exact ⟨_, t.entries, [], rfl, rfl, rfl, fun l hl => (by cases hl), h.starts, h.mode⟩
  | @brTableBranch l label types htgt _ =>
      cases hm with
      | single hs => exact hs.elim
      | branch =>
          refine ⟨placed_addLabel h.placed h.mode hok htgt, fun b hb => ?_, ?_⟩
          · exact Nat.le_trans (h.starts b hb) (here_addLabel h.mode label)
          · exact Building.addLabel h.mode (l := l) hok htgt
  | @brTableFinish l label types opds htgt _ _ =>
      cases hm with
      | single hs => exact hs.elim
      | finish =>
          have hplaced := placed_addLabel h.placed h.mode hok htgt
          have hbuild := Building.addLabel h.mode (l := l) hok htgt
          refine ⟨?_, ?_, ?_⟩
          · rw [dead_toListing]
            exact hplaced
          · rw [dead_toListing]
            exact dead_starts fun b hb =>
              Nat.le_trans (h.starts b hb) (here_addLabel h.mode label)
          · rw [dead_toListing]
            obtain ⟨e, es, ls, hes, hi, hlen, -, -, hcomplete⟩ := hbuild
            intro e' he'
            rw [show (t.addLabel label).entries = e :: es from hes] at he'
            rcases List.mem_cons.1 he' with rfl | he'
            · rw [hi]
              exact hlen
            · exact hcomplete e' he'

/-- The empty listing. -/
theorem start_shaped (ctx : Context) (base : ℕ) : (start ctx base).Shaped .code := by
  refine ⟨⟨trivial, nofun, nofun, nofun⟩, fun b hb => ?_, nofun⟩
  rw [List.mem_singleton.1 hb]
  exact Nat.le_refl base

end Asm

end SpaceWasm
