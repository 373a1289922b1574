import SpaceWasm.Listing

/-!
# Targets are instructions

Every address that a listing mentions, as the end of a block, as an `else` arm,
as the start of a block or as the target of a backward branch, is the address of
an instruction or the one where the next instruction will be. So no branch goes
into the middle of an instruction.
-/

namespace SpaceWasm

namespace Listing

/-- There is an instruction at the address. -/
def At (L : Listing) (a : ℕ) : Prop := ∃ e ∈ L.entries, e.addr = a

/-- The addresses written down in a listing with open blocks. -/
inductive Mentions (L : Listing) (bs : List Block) : ℕ → Prop where
  | end_ {id a : ℕ} : L.ends id = some a → L.Mentions bs a
  | else_ {id a : ℕ} : L.elses id = some a → L.Mentions bs a
  | start {b : Block} : b ∈ bs → L.Mentions bs b.start
  | back {e : Entry} {l : Label} {a : ℕ} :
      e ∈ L.entries → l ∈ e.instr.labels → l.dest = .back a → L.Mentions bs a

end Listing

namespace Asm

variable {ctx : Context} {t t' : Asm}

/-- The addresses that the assembler has written down. -/
abbrev Mentions (t : Asm) (a : ℕ) : Prop := t.toListing.Mentions t.blocks a

/-- What one step mentions, it has mentioned before, or it satisfies `P`. -/
theorem mentions_of {P : ℕ → Prop} {a : ℕ} (h : t'.Mentions a)
    (hends : ∀ id a, t'.ends id = some a → t.ends id = some a ∨ P a)
    (helses : ∀ id a, t'.elses id = some a → t.elses id = some a ∨ P a)
    (hblocks : ∀ b ∈ t'.blocks, (∃ b' ∈ t.blocks, b'.start = b.start) ∨ P b.start)
    (hentries : ∀ e ∈ t'.entries, e ∈ t.entries ∨
      ∀ l ∈ e.instr.labels, ∀ a, l.dest = .back a → t.Mentions a) : t.Mentions a ∨ P a := by
  cases h with
  | end_ h => exact (hends _ _ h).imp_left Listing.Mentions.end_
  | else_ h => exact (helses _ _ h).imp_left Listing.Mentions.else_
  | start h =>
      refine (hblocks _ h).imp_left ?_
      rintro ⟨b', hb', heq⟩
      rw [← heq]
      exact Listing.Mentions.start hb'
  | back he hl ha =>
      rcases hentries _ he with he | hnew
      · exact Or.inl (Listing.Mentions.back he hl ha)
      · exact Or.inl (hnew _ hl _ ha)

/-- The target of a backward branch is the start of an open block. -/
theorem Targets.mentions {returnTy : ResultType} {l : Idx} {label : Label} {types : ResultType}
    (h : t.Targets returnTy l label types) {a : ℕ} (ha : label.dest = .back a) :
    t.Mentions a := by
  cases h with
  | ret => cases ha
  | back _ hb _ =>
      cases ha
      exact Listing.Mentions.start (List.mem_of_getElem? hb)
  | end_ => cases ha

theorem dead_blocks_start {b : Block} (h : b ∈ t.dead.blocks) :
    ∃ b' ∈ t.blocks, b'.start = b.start := by
  unfold dead at h
  split at h
  · exact ⟨b, h, rfl⟩
  · rename_i b₀ bs hb
    rcases List.mem_cons.1 h with rfl | h
    · exact ⟨b₀, by rw [hb]; exact List.mem_cons_self, rfl⟩
    · exact ⟨b, by rw [hb]; exact List.mem_cons_of_mem b₀ h, rfl⟩

/-- The rest of a block that cannot be reached mentions no more. -/
theorem mentions_of_dead {a : ℕ} (h : t.dead.Mentions a) : t.Mentions a := by
  have hL := dead_toListing t
  refine (mentions_of (t := t) (P := fun _ => False) h (fun id a ha => ?_) (fun id a ha => ?_)
    (fun b hb => Or.inl (dead_blocks_start hb)) fun e he => ?_).resolve_right id
  · rw [hL] at ha
    exact Or.inl ha
  · rw [hL] at ha
    exact Or.inl ha
  · rw [hL] at he
    exact Or.inl he

/-- Every address that is mentioned is the one of an instruction; between two
instructions, it may be the one of the next instruction as well. -/
def Anchored (m : Mode) (t : Asm) : Prop :=
  ∀ a, t.Mentions a → t.At a ∨ m = .code ∧ a = t.here

theorem at_push {i : AsmInstr} {a : ℕ} (h : t.At a) : (t.push i).At a := by
  obtain ⟨e, he, rfl⟩ := h
  exact ⟨e, List.mem_cons_of_mem _ he, rfl⟩

theorem at_push_here (t : Asm) (i : AsmInstr) : (t.push i).At t.here :=
  ⟨⟨t.here, i, t.height⟩, List.mem_cons_self, rfl⟩

theorem at_addLabel {label : Label} {a : ℕ} (h : t.At a) : (t.addLabel label).At a := by
  obtain ⟨e, he, rfl⟩ := h
  unfold addLabel Listing.At
  cases hes : t.entries with
  | nil =>
      rw [hes] at he
      cases he
  | cons e' es =>
      rw [hes] at he
      rcases List.mem_cons.1 he with rfl | he
      · exact ⟨_, List.mem_cons_self, rfl⟩
      · exact ⟨e, List.mem_cons_of_mem _ he, rfl⟩

/-- A step that emits an instruction, and mentions the address before it at most. -/
theorem Anchored.push (h : t.Anchored .code) {i : AsmInstr} (m : Mode)
    (hL : t'.entries = (t.push i).entries)
    (hm : ∀ a, t'.Mentions a → t.Mentions a ∨ a = t.here) : t'.Anchored m := by
  intro a ha
  have hat : ∀ a, (t.push i).At a → t'.At a := by
    intro a ha
    rw [Listing.At, hL]
    exact ha
  rcases hm a ha with ha | rfl
  · rcases h a ha with hold | ⟨-, rfl⟩
    · exact Or.inl (hat a (at_push hold))
    · exact Or.inl (hat _ (at_push_here t i))
  · exact Or.inl (hat _ (at_push_here t i))

/-- A step that emits nothing, and mentions the current address at most. -/
theorem Anchored.same (h : t.Anchored .code) (hL : t'.entries = t.entries)
    (hbase : t'.base = t.base)
    (hm : ∀ a, t'.Mentions a → t.Mentions a ∨ a = t.here) : t'.Anchored .code := by
  have hhere : t'.here = t.here := by rw [Listing.here, Listing.here, hL, hbase]
  intro a ha
  rcases hm a ha with ha | rfl
  · rcases h a ha with ⟨e, he, rfl⟩ | ⟨-, rfl⟩
    · exact Or.inl ⟨e, hL ▸ he, rfl⟩
    · exact Or.inr ⟨rfl, hhere.symm⟩
  · exact Or.inr ⟨rfl, hhere.symm⟩

/-- The labels of an instruction that is emitted go to blocks that are open. -/
theorem mentions_of_push {i : AsmInstr} {a : ℕ} (h : (t.push i).Mentions a)
    (hi : ∀ l ∈ i.labels, ∀ a, l.dest = .back a → t.Mentions a) : t.Mentions a := by
  refine (mentions_of (t := t) (P := fun _ => False) h (fun _ _ ha => Or.inl ha)
    (fun _ _ ha => Or.inl ha)
    (fun b hb => Or.inl ⟨b, hb, rfl⟩) fun e he => ?_).resolve_right id
  rcases List.mem_cons.1 he with rfl | he
  · exact Or.inr hi
  · exact Or.inl he

theorem mentions_of_plain {j : IrInstr} {a : ℕ} (h : (t.push (.plain j)).Mentions a) :
    t.Mentions a :=
  mentions_of_push h fun l hl => by cases hl

/-- The same for a label of a `br_table`. -/
theorem mentions_of_addLabel {label : Label} {a : ℕ} (h : (t.addLabel label).Mentions a)
    (hlabel : ∀ a, label.dest = .back a → t.Mentions a) : t.Mentions a := by
  refine (mentions_of (t := t) (P := fun _ => False) h (fun _ _ ha => Or.inl ha)
    (fun _ _ ha => Or.inl ha)
    (fun b hb => Or.inl ⟨b, hb, rfl⟩) fun e he => ?_).resolve_right id
  unfold addLabel at he
  cases hes : t.entries with
  | nil =>
      rw [hes] at he
      cases he
  | cons e' es =>
      rw [hes, List.modifyHead_cons] at he
      rcases List.mem_cons.1 he with rfl | he
      · refine Or.inr fun l hl a ha => ?_
        cases hi : e'.instr with
        | brTable n ls =>
            simp only [hi, AsmInstr.addLabel, AsmInstr.labels] at hl
            rcases List.mem_append.1 hl with hl | hl
            · exact Listing.Mentions.back (by rw [hes]; exact List.mem_cons_self)
                (by rw [hi]; exact hl) ha
            · rw [List.mem_singleton.1 hl] at ha
              exact hlabel a ha
        | _ =>
            simp only [hi, AsmInstr.addLabel] at hl
            exact Listing.Mentions.back (by rw [hes]; exact List.mem_cons_self)
              (by rw [hi]; exact hl) ha
      · exact Or.inl (List.mem_cons_of_mem _ he)

theorem dead_entries (t : Asm) : t.dead.entries = t.entries := by rw [dead_toListing]

/-- The blocks that are left when the innermost one is closed. -/
theorem mentions_tail {b b' : Block} {bs : List Block} (hb : t.blocks = b :: bs) (hb' : b' ∈ bs) :
    ∃ b'' ∈ t.blocks, b''.start = b'.start :=
  ⟨b', by rw [hb]; exact List.mem_cons_of_mem b hb', rfl⟩

/-- A block that is opened mentions the current address. -/
theorem mentions_cons {b b' : Block} (hstart : b.start = t.here) (hb' : b' ∈ b :: t.blocks) :
    (∃ b'' ∈ t.blocks, b''.start = b'.start) ∨ b'.start = t.here := by
  rcases List.mem_cons.1 hb' with rfl | hb'
  · exact Or.inr hstart
  · exact Or.inl ⟨b', hb', rfl⟩

/-- Every step keeps the addresses anchored. -/
theorem Step.anchored {m m' : Mode} {i : WasmInstr} (h : t.Anchored m) (hm : m.Next i m')
    (hstep : Step ctx t i t') : t'.Anchored m' := by
  cases hstep with
  | silent hr _ _ =>
      obtain ⟨rfl, rfl⟩ := hr.mode hm
      exact fun a ha => h a ha
  | @plain _ j _ _ _ _ _ he _ _ _ =>
      obtain ⟨rfl, rfl⟩ := he.mode hm
      exact h.push (i := .plain j) .code rfl fun a ha => Or.inl (mentions_of_plain ha)
  | unreachable =>
      cases hm
      exact h.push (i := .plain .unreachable) .code (dead_entries _) fun a ha =>
        Or.inl (mentions_of_plain (mentions_of_dead ha))
  | @return_ opds _ =>
      cases hm
      refine h.push (i := .plain _) .code (dead_entries _) fun a ha => ?_
      have hpush := mentions_of_dead ha
      exact Or.inl (mentions_of_plain (t := t) hpush)
  | enterBlock =>
      cases hm
      exact h.same rfl rfl fun a ha =>
        mentions_of (t := t) (P := fun a => a = t.here) ha (fun _ _ h => Or.inl h)
          (fun _ _ h => Or.inl h) (fun b hb => mentions_cons rfl hb) fun e he => Or.inl he
  | loop_ =>
      cases hm
      exact h.same rfl rfl fun a ha =>
        mentions_of (t := t) (P := fun a => a = t.here) ha (fun _ _ h => Or.inl h)
          (fun _ _ h => Or.inl h) (fun b hb => mentions_cons rfl hb) fun e he => Or.inl he
  | @if_ ty opds _ =>
      cases hm
      refine h.push (i := .if_ ⟨ty, 0, .else_ t.nextId⟩) .code rfl fun a ha => ?_
      refine mentions_of (t := t) (P := fun a => a = t.here) ha (fun _ _ h => Or.inl h)
        (fun _ _ h => Or.inl h) (fun b hb => mentions_cons rfl hb) fun e he => ?_
      rcases List.mem_cons.1 he with rfl | he
      · refine Or.inr fun l hl a ha => ?_
        rw [List.mem_singleton.1 hl] at ha
        cases ha
      · exact Or.inl he
  | @else_ label types b bs opds htgt hb _ _ _ =>
      cases hm
      -- The `else` arm starts behind the branch.
      intro a ha
      have hpush : (t.push (.br label)).Anchored .code :=
        h.push .code rfl fun a ha => Or.inl (mentions_of_push ha fun l hl a ha => by
          rw [List.mem_singleton.1 hl] at ha
          exact htgt.mentions ha)
      have hmentions := mentions_of (t := t.push (.br label))
          (P := fun a => a = (t.push (.br label)).here) ha
        (fun _ _ h => Or.inl h) (fun id a ha => ?_) (fun b' hb' => ?_) fun e he => Or.inl he
      · rcases hmentions with hold | rfl
        · exact hpush a hold
        · exact Or.inr ⟨rfl, rfl⟩
      · have hbound : Function.update t.elses b.id (some (t.push (.br label)).here) id =
            some a := ha
        by_cases hid : id = b.id
        · rw [hid, Function.update_self, Option.some.injEq] at hbound
          exact Or.inr hbound.symm
        · rw [Function.update_of_ne hid] at hbound
          exact Or.inl hbound
      · rcases List.mem_cons.1 hb' with rfl | hb'
        · exact Or.inl ⟨b, by rw [show (t.push (.br label)).blocks = b :: bs from hb]
                              exact List.mem_cons_self, rfl⟩
        · exact Or.inl (mentions_tail hb hb')
  | @exitBlock b bs opds hw hb _ _ _ _ =>
      cases hm
      exact h.same rfl rfl fun a ha =>
        mentions_of (t := t) (P := fun a => a = t.here) ha (fun _ _ => bound_ends)
          (fun _ _ => bound_elses) (fun b' hb' => Or.inl (mentions_tail hb hb')) fun e he =>
            Or.inl he
  | @finish b bs opds hb _ _ _ =>
      cases hm
      refine h.push (i := .plain _) .code rfl fun a ha => ?_
      refine mentions_of (t := t) (P := fun a => a = t.here) ha (fun _ _ => bound_ends)
        (fun _ _ => bound_elses) (fun b' hb' => Or.inl (mentions_tail hb hb')) fun e he => ?_
      rcases List.mem_cons.1 he with rfl | he
      · exact Or.inr nofun
      · exact Or.inl he
  | @br l label types opds htgt _ =>
      cases hm
      refine h.push (i := .br label) .code (dead_entries _) fun a ha => ?_
      have hpush := mentions_of_dead ha
      exact Or.inl (mentions_of_push (t := t) (i := .br label) hpush fun l hl a ha => by
        rw [List.mem_singleton.1 hl] at ha
        exact htgt.mentions ha)
  | @brIf l label types opds opds' hw _ htgt _ _ =>
      cases hm
      refine h.push (i := .brIf label) .code rfl fun a ha => ?_
      exact Or.inl (mentions_of_push (t := t) (i := .brIf label) ha fun l hl a ha => by
        rw [List.mem_singleton.1 hl] at ha
        exact htgt.mentions ha)
  | @brTableStart len opds _ =>
      cases hm with
      | single hs => exact hs.elim
      | start =>
          exact h.push (i := .brTable len.toNat []) _ rfl fun a ha =>
            Or.inl (mentions_of_push (t := t) (i := .brTable len.toNat []) ha nofun)
  | @brTableBranch l label types htgt _ =>
      cases hm with
      | single hs => exact hs.elim
      | branch =>
          intro a ha
          have hold : t.Mentions a := mentions_of_addLabel (t := t) ha fun a ha => htgt.mentions ha
          rcases h a hold with hat | ⟨hmode, -⟩
          · exact Or.inl (at_addLabel hat)
          · cases hmode
  | @brTableFinish l label types opds htgt _ _ =>
      cases hm with
      | single hs => exact hs.elim
      | finish =>
          intro a ha
          have hlabel := mentions_of_dead ha
          have hold : t.Mentions a :=
            mentions_of_addLabel hlabel fun a ha => htgt.mentions ha
          rcases h a hold with hat | ⟨hmode, -⟩
          · refine Or.inl ?_
            rw [dead_toListing]
            exact at_addLabel hat
          · cases hmode

/-- At the start only the base is mentioned. -/
theorem start_anchored (ctx : Context) (base : ℕ) : (start ctx base).Anchored .code := by
  intro a ha
  cases ha with
  | end_ h => cases h
  | else_ h => cases h
  | start h =>
      rw [List.mem_singleton.1 h]
      exact Or.inr ⟨rfl, rfl⟩
  | back h => cases h

end Asm

end SpaceWasm
