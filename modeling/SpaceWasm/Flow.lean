import SpaceWasm.Anchor

/-!
# Heights along the control flow

The assembler notes for every reachable instruction how many operand words are on
the stack before it. These heights fit together: from an instruction with the
height `h` control goes to instructions whose heights are the ones that the words
it pops and pushes leave, and a branch drops as many words as its label says. All
heights are at most the high-water mark.

An operand whose target is not known yet carries an obligation for the block it
waits for, and the end of the block discharges it.
-/

namespace SpaceWasm

namespace Listing

/-- The instruction at `a` is reachable, with `h` operand words on the stack. -/
def HeightAt (L : Listing) (a h : ℕ) : Prop := ∃ e ∈ L.entries, e.addr = a ∧ e.height = some h

end Listing

namespace Asm

variable {ctx : Context} {t t' : Asm} {m m' : Mode}

/-! ### Operands below a block -/

theorem words_of_pops {ins : List ValType} {opds : List OperandType}
    (h : t.opds = ins.map .known ++ opds) (hknown : .unknown ∉ t.opds) :
    t.words = heightWords opds.reverse + wordsOf ins := by
  have hopds : OperandType.unknown ∉ opds.reverse := by
    rw [List.mem_reverse]
    exact fun hmem => hknown (by rw [h]; exact List.mem_append_right _ hmem)
  rw [words, h, List.reverse_append, heightWords_append hopds, ← List.map_reverse,
    heightWords_known, wordsOf_reverse]

theorem words_of_pushes (outs : List ValType) {opds : List OperandType}
    (hknown : .unknown ∉ opds) :
    heightWords ((outs.map OperandType.known).reverse ++ opds).reverse =
      heightWords opds.reverse + wordsOf outs := by
  have hopds : OperandType.unknown ∉ opds.reverse := by rwa [List.mem_reverse]
  rw [List.reverse_append, List.reverse_reverse, heightWords_append hopds, heightWords_known]

theorem take_reverse_of_suffix {opds opds' : List OperandType} (h : opds' <:+ opds) {n : ℕ}
    (hn : n ≤ opds'.length) : opds'.reverse.take n = opds.reverse.take n := by
  obtain ⟨pre, rfl⟩ := h
  rw [List.reverse_append, List.take_append_of_le_length (by rwa [List.length_reverse])]

theorem take_reverse_append (pushed opds : List OperandType) {n : ℕ} (hn : n ≤ opds.length) :
    (pushed ++ opds).reverse.take n = opds.reverse.take n :=
  (take_reverse_of_suffix (List.suffix_append pushed opds) hn).symm

theorem heightWords_take_mono (os : List OperandType) {m n : ℕ} (h : m ≤ n) :
    heightWords (os.take m) ≤ heightWords (os.take n) := by
  obtain ⟨k, rfl⟩ := Nat.exists_eq_add_of_le h
  rw [List.take_add]
  exact heightWords_append_le _ _

theorem wordsFor_le (t : Asm) (n : ℕ) : t.wordsFor n ≤ t.words := by
  rw [wordsFor, words]
  conv_rhs => rw [← List.take_append_drop n t.opds.reverse]
  exact heightWords_append_le _ _

/-- The operands of a block lie on the ones of the blocks around it. -/
theorem height_le_of_suffix {b c : Block} {bs cs : List Block} {n : ℕ} (h : BlocksOk (c :: cs) n)
    (hs : b :: bs <:+ c :: cs) : b.height ≤ c.height := by
  induction cs generalizing c n with
  | nil =>
      rcases List.suffix_cons_iff.1 hs with heq | hs
      · cases heq
        exact Nat.le_refl _
      · cases List.eq_nil_of_suffix_nil hs
  | cons c' cs ih =>
      rcases List.suffix_cons_iff.1 hs with heq | hs
      · cases heq
        exact Nat.le_refl _
      · exact Nat.le_trans (ih h.2.2 hs) h.2.2.1

/-! ### Heights -/

theorem height_of_live (h : t.live = true) : t.height = some t.words := if_pos h

theorem of_height {h : ℕ} (hh : t.height = some h) : t.live = true ∧ t.words = h := by
  rw [height] at hh
  by_cases hlive : t.live = true
  · rw [if_pos hlive, Option.some.injEq] at hh
    exact ⟨hlive, hh⟩
  · rw [if_neg hlive] at hh
    cases hh

/-- The instruction at `a` is reached with `h` operand words: it has been emitted,
or it will be the next one. -/
def Meets (m : Mode) (t : Asm) (a h : ℕ) : Prop :=
  t.HeightAt a h ∨ m = .code ∧ a = t.here ∧ t.height = some h

/-- The block `b` is open, and the blocks `bs` around it can be reached. -/
structure Exposed (t : Asm) (b : Block) (bs : List Block) : Prop where
  suffix : b :: bs <:+ t.blocks
  reachable : ∀ b' ∈ bs, b'.unreachable = false

/-- A branch to `d` leaves `h` operand words at its target, or at the end of the
block it waits for. The function itself is left by returns only. -/
def Aims (m : Mode) (t : Asm) (d : Dest) (h : ℕ) : Prop :=
  match d with
  | .ret => True
  | .back a => t.Meets m a h
  | .end_ id => (∀ a, t.ends id = some a → t.Meets m a h) ∧
      (t.ends id = none → ∃ b bs, t.Exposed b bs ∧ bs ≠ [] ∧ b.id = id ∧
        t.wordsFor b.height + b.out.words = h)
  | .else_ id => (∀ a, t.elses id = some a → t.Meets m a h) ∧
      (t.elses id = none → ∃ b bs, t.Exposed b bs ∧ bs ≠ [] ∧ b.id = id ∧ b.kind = .if_ ∧
        t.wordsFor b.height = h)

/-- A branch on the label `l` with `h` operand words: the results lie on top of the
words that are dropped. -/
structure Takes (ctx : Context) (m : Mode) (t : Asm) (h : ℕ) (l : Label) : Prop where
  aims : t.Aims m l.dest (h - l.depth + l.result.words)
  depth_le : l.depth ≤ h
  result_le : l.dest ≠ .ret → l.result.words ≤ l.depth
  ret : l.dest = .ret → l.result = ctx.returnTy ∧ l.result.words ≤ h

/-- Where control goes from the instruction `e` with `h` operand words. -/
def Flows (ctx : Context) (m : Mode) (t : Asm) (e : Entry) (h : ℕ) : Prop :=
  match e.instr with
  | .plain j =>
      (∃ i ins outs, ctx.Emits i j ins outs ∧ wordsOf ins ≤ h ∧
        t.Meets m e.next (h - wordsOf ins + wordsOf outs)) ∨
      j = .unreachable ∨ j = instrReturn ctx.returnTy ∧ ctx.returnTy.words ≤ h
  | .if_ l => 1 ≤ h ∧ t.Meets m e.next (h - 1) ∧ l.dest ≠ .ret ∧ t.Aims m l.dest (h - 1)
  | .br l => t.Takes ctx m h l
  | .brIf l => 1 ≤ h ∧ t.Meets m e.next (h - 1) ∧ t.Takes ctx m (h - 1) l
  | .brTable _ ls => 1 ≤ h ∧ ∀ l ∈ ls, t.Takes ctx m (h - 1) l

/-- A label of a `br_table` that is being read. That the results of the branch are
on the stack is checked when all labels have been read. -/
structure Awaited (ctx : Context) (m : Mode) (t : Asm) (l : Label) : Prop where
  aims : t.Aims m l.dest (t.words - l.depth + l.result.words)
  depth_le : l.depth ≤ t.words
  floor : l.dest ≠ .ret → ∃ b bs, t.blocks = b :: bs ∧ t.words - l.depth ≤ t.wordsFor b.height
  ret : l.dest = .ret → l.result = ctx.returnTy ∧ l.depth = 0
  result : t.brTableResult = some l.result

/-- The operands fit the open blocks. -/
structure Fits (ctx : Context) (m : Mode) (t : Asm) : Prop where
  words_le : t.words ≤ t.highwater
  heights_le : ∀ e ∈ t.entries, ∀ h, e.height = some h → h ≤ t.highwater
  known : t.live = true → .unknown ∉ t.opds
  below : ∀ b bs, t.Exposed b bs → .unknown ∉ t.opds.reverse.take b.height
  labels : ∀ b ∈ t.blocks, b.kind ≠ .loop → b.label = b.out
  function : ∀ b, [b] <:+ t.blocks → b.out = ctx.returnTy ∧ b.start = t.base ∧ b.height = 0
  starts : ∀ b bs, t.Exposed b bs → b.kind = .loop ∨ bs = [] →
    t.Meets m b.start (t.wordsFor b.height)

/-- The last instruction is a `br_table`, and the labels that have been read can be
taken once their results are on the stack. -/
def Tabling (ctx : Context) (m : Mode) (t : Asm) : Prop :=
  ∃ e es, t.entries = e :: es ∧ (∀ e ∈ es, ∀ h, e.height = some h → t.Flows ctx m e h) ∧
    ∀ h, e.height = some h → t.live = true ∧ h = t.words + 1 ∧
      ∃ n ls, e.instr = .brTable n ls ∧ ∀ l ∈ ls, t.Awaited ctx m l

/-- The heights fit together. -/
structure Flowing (ctx : Context) (m : Mode) (t : Asm) : Prop extends t.Fits ctx m where
  flows : match m with
    | .code => ∀ e ∈ t.entries, ∀ h, e.height = some h → t.Flows ctx .code e h
    | .table n k => t.Tabling ctx (.table n k)

/-! ### What a step carries over -/

/-- The heights that are met stay met. -/
structure Carries (m : Mode) (t : Asm) (m' : Mode) (t' : Asm) : Prop where
  meets : ∀ a h, t.Meets m a h → t'.Meets m' a h
  aims : ∀ d h, t.Aims m d h → t'.Aims m' d h

theorem Carries.takes {h : ℕ} {l : Label} (hc : Carries m t m' t') (hl : t.Takes ctx m h l) :
    t'.Takes ctx m' h l :=
  ⟨hc.aims _ _ hl.aims, hl.depth_le, hl.result_le, hl.ret⟩

theorem Carries.flows {e : Entry} {h : ℕ} (hc : Carries m t m' t') (hf : t.Flows ctx m e h) :
    t'.Flows ctx m' e h := by
  unfold Flows at hf ⊢
  cases hi : e.instr with
  | plain j =>
      rw [hi] at hf
      rcases hf with ⟨i, ins, outs, hemits, hle, hnext⟩ | hf
      · exact Or.inl ⟨i, ins, outs, hemits, hle, hc.meets _ _ hnext⟩
      · exact Or.inr hf
  | if_ l =>
      rw [hi] at hf
      exact ⟨hf.1, hc.meets _ _ hf.2.1, hf.2.2.1, hc.aims _ _ hf.2.2.2⟩
  | br l =>
      rw [hi] at hf
      exact hc.takes hf
  | brIf l =>
      rw [hi] at hf
      exact ⟨hf.1, hc.meets _ _ hf.2.1, hc.takes hf.2.2⟩
  | brTable n ls =>
      rw [hi] at hf
      exact ⟨hf.1, fun l hl => hc.takes (hf.2 l hl)⟩

/-- The blocks stay open. -/
def StaysOpen (t t' : Asm) : Prop :=
  ∀ b bs, t.Exposed b bs → ∃ b', t'.Exposed b' bs ∧ b'.id = b.id ∧ b'.out = b.out ∧
    b'.height = b.height ∧ b'.kind = b.kind

theorem Carries.of (hok' : t'.Ok) (hmeets : ∀ a h, t.Meets m a h → t'.Meets m' a h)
    (hends : ∀ id a, t.ends id = some a → t'.ends id = some a)
    (helses : ∀ id a, t.elses id = some a → t'.elses id = some a)
    (hend : ∀ b bs, t.Exposed b bs → bs ≠ [] →
      (∃ a, t'.ends b.id = some a ∧ t'.Meets m' a (t.wordsFor b.height + b.out.words)) ∨
        ∃ b', t'.Exposed b' bs ∧ b'.id = b.id ∧ b'.out = b.out ∧
          t'.wordsFor b'.height = t.wordsFor b.height)
    (helse : ∀ b bs, t.Exposed b bs → bs ≠ [] → b.kind = .if_ →
      (∃ a, t'.elses b.id = some a ∧ t'.Meets m' a (t.wordsFor b.height)) ∨
        ∃ b', t'.Exposed b' bs ∧ b'.id = b.id ∧ b'.kind = .if_ ∧
          t'.wordsFor b'.height = t.wordsFor b.height) : Carries m t m' t' := by
  refine ⟨hmeets, fun d h hd => ?_⟩
  cases d with
  | ret => trivial
  | back a => exact hmeets a h hd
  | end_ id =>
      cases hid : t.ends id with
      | some a =>
          have ha := hends id a hid
          refine ⟨fun a' ha' => ?_, fun hnone => ?_⟩
          · rw [ha, Option.some.injEq] at ha'
            exact hmeets _ _ (hd.1 a' (ha' ▸ hid))
          · rw [ha] at hnone
            cases hnone
      | none =>
          obtain ⟨b, bs, hb, hbs, rfl, rfl⟩ := hd.2 hid
          rcases hend b bs hb hbs with ⟨a, ha, hmeet⟩ | ⟨b', hb', hid', hout, hw⟩
          · refine ⟨fun a' ha' => ?_, fun hnone => ?_⟩
            · rw [ha, Option.some.injEq] at ha'
              exact ha' ▸ hmeet
            · rw [ha] at hnone
              cases hnone
          · have hmem : b'.tag ∈ t'.blocks.map Block.tag :=
              List.mem_map_of_mem (hb'.suffix.subset List.mem_cons_self)
            have hopen := hok'.ids.ends_none _ hmem
            rw [Block.tag, hid'] at hopen
            refine ⟨fun a ha => ?_, fun _ => ⟨b', bs, hb', hbs, hid', by rw [hw, hout]⟩⟩
            rw [hopen] at ha
            cases ha
  | else_ id =>
      cases hid : t.elses id with
      | some a =>
          have ha := helses id a hid
          refine ⟨fun a' ha' => ?_, fun hnone => ?_⟩
          · rw [ha, Option.some.injEq] at ha'
            exact hmeets _ _ (hd.1 a' (ha' ▸ hid))
          · rw [ha] at hnone
            cases hnone
      | none =>
          obtain ⟨b, bs, hb, hbs, rfl, hk, rfl⟩ := hd.2 hid
          rcases helse b bs hb hbs hk with ⟨a, ha, hmeet⟩ | ⟨b', hb', hid', hk', hw⟩
          · refine ⟨fun a' ha' => ?_, fun hnone => ?_⟩
            · rw [ha, Option.some.injEq] at ha'
              exact ha' ▸ hmeet
            · rw [ha] at hnone
              cases hnone
          · have hmem : b'.tag ∈ t'.blocks.map Block.tag :=
              List.mem_map_of_mem (hb'.suffix.subset List.mem_cons_self)
            have hopen := hok'.ids.elses_none _ hmem hk'
            rw [Block.tag, hid'] at hopen
            refine ⟨fun a ha => ?_, fun _ => ⟨b', bs, hb', hbs, hid', hk', hw⟩⟩
            rw [hopen] at ha
            cases ha

/-- No block is closed, and nothing is bound. -/
theorem Carries.of_staysOpen (hok' : t'.Ok) (hmeets : ∀ a h, t.Meets m a h → t'.Meets m' a h)
    (hends : t'.ends = t.ends) (helses : t'.elses = t.elses) (hopen : t.StaysOpen t')
    (hw : ∀ b bs, t.Exposed b bs → t'.wordsFor b.height = t.wordsFor b.height) :
    Carries m t m' t' := by
  refine Carries.of hok' hmeets (fun _ _ h => by rwa [hends]) (fun _ _ h => by rwa [helses])
    (fun b bs hb _ => ?_) fun b bs hb _ hk => ?_
  · obtain ⟨b', hb', hid, hout, hheight, -⟩ := hopen b bs hb
    exact Or.inr ⟨b', hb', hid, hout, by rw [hheight, hw b bs hb]⟩
  · obtain ⟨b', hb', hid, -, hheight, hkind⟩ := hopen b bs hb
    exact Or.inr ⟨b', hb', hid, by rw [hkind, hk], by rw [hheight, hw b bs hb]⟩

/-! ### Emitting an instruction -/

theorem Exposed.congr {b : Block} {bs : List Block} (h : t.Exposed b bs)
    (hb : t'.blocks = t.blocks) : t'.Exposed b bs := ⟨hb ▸ h.suffix, h.reachable⟩

theorem meets_push {i : AsmInstr} (hL : t'.entries = (t.push i).entries) {a h : ℕ}
    (hm : t.Meets .code a h) : t'.Meets m' a h := by
  left
  rw [Listing.HeightAt, hL]
  rcases hm with ⟨e, he, ha⟩ | ⟨-, rfl, hh⟩
  · exact ⟨e, List.mem_cons_of_mem _ he, ha⟩
  · exact ⟨_, List.mem_cons_self, rfl, hh⟩

/-- The blocks are the ones before, or the innermost one has become unreachable. -/
def Reshapes (t t' : Asm) : Prop := t'.blocks = t.blocks ∨ t'.blocks = t.dead.blocks

theorem dead_blocks {b : Block} {bs : List Block} (h : t.blocks = b :: bs) :
    t.dead.blocks = { b with unreachable := true } :: bs := by
  unfold dead
  rw [h]

theorem dead_blocks_nil (h : t.blocks = []) : t.dead.blocks = [] := by
  unfold dead
  rw [h]
  exact h

theorem Reshapes.staysOpen (h : t.Reshapes t') : t.StaysOpen t' := by
  intro b bs hb
  rcases h with h | h
  · exact ⟨b, hb.congr h, rfl, rfl, rfl, rfl⟩
  cases hblocks : t.blocks with
  | nil =>
      have := hb.suffix
      rw [hblocks] at this
      cases List.eq_nil_of_suffix_nil this
  | cons c cs =>
      rw [dead_blocks hblocks] at h
      have hsuffix := hb.suffix
      rw [hblocks] at hsuffix
      rcases List.suffix_cons_iff.1 hsuffix with heq | hsuffix
      · cases heq
        exact ⟨{ b with unreachable := true }, ⟨h ▸ List.suffix_rfl, hb.reachable⟩, rfl, rfl, rfl,
          rfl⟩
      · exact ⟨b, ⟨h ▸ hsuffix.trans (List.suffix_cons _ _), hb.reachable⟩, rfl, rfl, rfl, rfl⟩

/-- The block that an open block was. -/
theorem Reshapes.exposed (h : t.Reshapes t') {b' : Block} {bs : List Block}
    (hb : t'.Exposed b' bs) : ∃ b, t.Exposed b bs ∧ b'.height = b.height ∧ b'.start = b.start ∧
      b'.kind = b.kind ∧ b'.out = b.out := by
  rcases h with h | h
  · exact ⟨b', ⟨h ▸ hb.suffix, hb.reachable⟩, rfl, rfl, rfl, rfl⟩
  cases hblocks : t.blocks with
  | nil =>
      rw [dead_blocks_nil hblocks] at h
      have := hb.suffix
      rw [h] at this
      cases List.eq_nil_of_suffix_nil this
  | cons c cs =>
      rw [dead_blocks hblocks] at h
      have hsuffix := hb.suffix
      rw [h] at hsuffix
      rcases List.suffix_cons_iff.1 hsuffix with heq | hsuffix
      · cases heq
        exact ⟨c, ⟨hblocks ▸ List.suffix_rfl, hb.reachable⟩, rfl, rfl, rfl, rfl⟩
      · exact ⟨b', ⟨hblocks ▸ hsuffix.trans (List.suffix_cons _ _), hb.reachable⟩, rfl, rfl, rfl,
          rfl⟩

theorem Reshapes.mem (h : t.Reshapes t') {b' : Block} (hb : b' ∈ t'.blocks) :
    ∃ b ∈ t.blocks, b'.kind = b.kind ∧ b'.label = b.label ∧ b'.out = b.out := by
  rcases h with h | h
  · exact ⟨b', h ▸ hb, rfl, rfl, rfl⟩
  cases hblocks : t.blocks with
  | nil =>
      rw [h, dead_blocks_nil hblocks] at hb
      cases hb
  | cons c cs =>
      rw [h, dead_blocks hblocks] at hb
      rcases List.mem_cons.1 hb with rfl | hb
      · exact ⟨c, List.mem_cons_self, rfl, rfl, rfl⟩
      · exact ⟨b', List.mem_cons_of_mem c hb, rfl, rfl, rfl⟩

/-- The operands below the blocks are the same. -/
def Agrees (t t' : Asm) : Prop :=
  ∀ b ∈ t.blocks, t'.opds.reverse.take b.height = t.opds.reverse.take b.height

theorem Agrees.wordsFor (h : t.Agrees t') {b : Block} (hb : b ∈ t.blocks) :
    t'.wordsFor b.height = t.wordsFor b.height := by
  rw [Asm.wordsFor, Asm.wordsFor, h b hb]

theorem Exposed.mem {b : Block} {bs : List Block} (h : t.Exposed b bs) : b ∈ t.blocks :=
  h.suffix.subset List.mem_cons_self

/-- Operands that are popped and pushed lie above the blocks. -/
theorem agrees_of_suffix (hok : t.Ok) {opds pushed : List OperandType} (hs : opds <:+ t.opds)
    (hfloor : ∀ b ∈ t.blocks.head?, b.height ≤ t.opds.length → b.height ≤ opds.length)
    (ho : t'.opds = pushed ++ opds) : t.Agrees t' := by
  intro b hb
  obtain ⟨pre, bs, hblocks⟩ := List.append_of_mem hb
  have hle : b.height ≤ opds.length := by
    cases hc : t.blocks with
    | nil => rw [hc] at hb; cases hb
    | cons c cs =>
        have hblocksOk := hok.blocks
        rw [hc] at hblocksOk
        have hsuffix : b :: bs <:+ c :: cs := by rw [← hc, hblocks]; exact List.suffix_append _ _
        exact Nat.le_trans (height_le_of_suffix hblocksOk hsuffix)
          (hfloor c (by rw [hc]; rfl) hblocksOk.1)
  rw [ho, take_reverse_append _ _ hle, take_reverse_of_suffix hs hle]

theorem agrees_of_pops {ins : List ValType} {opds pushed : List OperandType} (hok : t.Ok)
    (hp : t.Pops ins opds) (ho : t'.opds = pushed ++ opds) : t.Agrees t' :=
  agrees_of_suffix hok hp.suffix hp.floor ho

theorem dead_opds {b : Block} {bs : List Block} (h : t.blocks = b :: bs) :
    t.dead.opds = t.opds.drop (t.opds.length - b.height) := by
  unfold dead
  rw [h]

theorem dead_live {b : Block} {bs : List Block} (h : t.blocks = b :: bs) : t.dead.live = false := by
  rw [live, dead_blocks h]
  rfl

/-- The operands of an unreachable block are dropped. -/
theorem agrees_dead (hok : t.Ok) (h : t.Agrees t')
    (hb : t'.blocks = t.blocks) (hle : ∀ b ∈ t.blocks.head?, b.height ≤ t'.opds.length) :
    t.Agrees t'.dead := by
  cases hc : t.blocks with
  | nil =>
      intro b hb
      rw [hc] at hb
      cases hb
  | cons c cs =>
      have hlen := hle c (by rw [hc]; rfl)
      have hblocksOk := hok.blocks
      rw [hc] at hblocksOk
      intro b hmem
      obtain ⟨pre, bs, hblocks⟩ := List.append_of_mem hmem
      have hsuffix : b :: bs <:+ c :: cs := by rw [← hc, hblocks]; exact List.suffix_append _ _
      have hheight := height_le_of_suffix hblocksOk hsuffix
      rw [← h b hmem, dead_opds (hb.trans hc)]
      refine take_reverse_of_suffix (List.drop_suffix _ _) ?_
      rw [List.length_drop]
      omega

/-- A step that neither opens nor closes a block. -/
theorem Fits.reshape (h : t.Fits ctx m) (hmeets : ∀ a n, t.Meets m a n → t'.Meets m' a n)
    (hheights : ∀ e ∈ t'.entries, ∀ n, e.height = some n → n ≤ t'.highwater)
    (hbase : t'.base = t.base) (hshape : t.Reshapes t')
    (hagree : t.Agrees t') (hknown : t'.live = true → .unknown ∉ t'.opds)
    (hwords : t'.words ≤ t'.highwater) : t'.Fits ctx m' := by
  refine ⟨hwords, hheights, hknown, fun b bs hb => ?_, fun b hb hk => ?_, fun b hb => ?_,
    fun b bs hb hk => ?_⟩
  · obtain ⟨c, hc, hheight, -⟩ := hshape.exposed hb
    rw [hheight, hagree c hc.mem]
    exact h.below c bs hc
  · obtain ⟨c, hc, hkind, hlabel, hout⟩ := hshape.mem hb
    rw [hlabel, hout]
    exact h.labels c hc (hkind ▸ hk)
  · obtain ⟨c, hc, hheight, hstart, -, hout⟩ := hshape.exposed ⟨hb, fun b' hb' => by cases hb'⟩
    rw [hout, hstart, hheight, hbase]
    exact h.function c hc.suffix
  · obtain ⟨c, hc, hheight, hstart, hkind, -⟩ := hshape.exposed hb
    rw [hstart, hheight, hagree.wordsFor hc.mem]
    exact hmeets _ _ (h.starts c bs hc (hkind ▸ hk))

/-- The height of an instruction that is emitted is at most the high-water mark. -/
theorem Fits.heights_push {i : AsmInstr} (h : t.Fits ctx m) {hw : ℕ} (hhw : t.highwater ≤ hw) :
    ∀ e ∈ (t.push i).entries, ∀ n, e.height = some n → n ≤ hw := by
  intro e he n hn
  refine Nat.le_trans ?_ hhw
  rcases List.mem_cons.1 he with rfl | he
  · obtain ⟨-, rfl⟩ := of_height hn
    exact h.words_le
  · exact h.heights_le e he n hn

theorem Fits.push {i : AsmInstr} (h : t.Fits ctx .code)
    (hL : t'.toListing = (t.push i).toListing) (hshape : t.Reshapes t') (hagree : t.Agrees t')
    (hknown : t'.live = true → .unknown ∉ t'.opds) (hwords : t'.words ≤ t'.highwater)
    (hhw : t.highwater ≤ t'.highwater) : t'.Fits ctx m' := by
  have hentries : t'.entries = (t.push i).entries := by rw [hL]
  exact h.reshape (fun _ _ => meets_push hentries) (hentries ▸ h.heights_push hhw) (by rw [hL]; rfl)
    hshape hagree hknown hwords

theorem Carries.push {i : AsmInstr} (hok' : t'.Ok) (hL : t'.toListing = (t.push i).toListing)
    (hshape : t.Reshapes t') (hagree : t.Agrees t') : Carries .code t m' t' := by
  refine Carries.of_staysOpen hok' (fun _ _ => meets_push (by rw [hL])) ?_ ?_ hshape.staysOpen
    fun b bs hb => hagree.wordsFor hb.mem
  · rw [hL]
    rfl
  · rw [hL]
    rfl

/-- A step that emits an instruction. -/
theorem Flowing.push {i : AsmInstr} (h : t.Flowing ctx .code) (hok' : t'.Ok)
    (hL : t'.toListing = (t.push i).toListing) (hshape : t.Reshapes t') (hagree : t.Agrees t')
    (hknown : t'.live = true → .unknown ∉ t'.opds) (hwords : t'.words ≤ t'.highwater)
    (hhw : t.highwater ≤ t'.highwater)
    (hflow : Carries .code t .code t' → t.live = true →
      t'.Flows ctx .code ⟨t.here, i, t.height⟩ t.words) : t'.Flowing ctx .code := by
  have hcarries : Carries .code t .code t' := Carries.push hok' hL hshape hagree
  refine ⟨h.toFits.push hL hshape hagree hknown hwords hhw, fun e he h' hh => ?_⟩
  rw [hL] at he
  rcases List.mem_cons.1 he with rfl | he
  · obtain ⟨hlive, rfl⟩ := of_height hh
    exact hflow hcarries hlive
  · exact hcarries.flows (h.flows e he h' hh)

/-! ### Taking a branch -/

/-- The words below the innermost block are not popped. -/
theorem Pops.wordsFor_le {ins : List ValType} {opds : List OperandType} (hp : t.Pops ins opds)
    {b : Block} (hb : b ∈ t.blocks.head?) (hle : b.height ≤ t.opds.length) :
    t.wordsFor b.height ≤ heightWords opds.reverse := by
  rw [wordsFor, ← take_reverse_of_suffix hp.suffix (hp.floor b hb hle)]
  conv_rhs => rw [← List.take_append_drop b.height opds.reverse]
  exact heightWords_append_le _ _

theorem live_iff : t.live = true ↔ ∀ b ∈ t.blocks, b.unreachable = false := by
  simp [live, List.all_eq_true]

theorem certain_of_live (h : t.Fits ctx m) (hlive : t.live = true) : t.Certain := by
  refine ⟨fun b hb => live_iff.1 hlive b (List.mem_of_mem_head? hb), h.known hlive⟩

/-- The block that a label goes to, and the blocks around it. -/
theorem exposed_of_getElem? (hlive : t.live = true) {l : ℕ} {b : Block}
    (hb : t.blocks[l]? = some b) : t.Exposed b (t.blocks.drop (l + 1)) := by
  obtain ⟨hlt, rfl⟩ := List.getElem?_eq_some_iff.1 hb
  refine ⟨?_, fun b' hb' => live_iff.1 hlive b' (List.mem_of_mem_drop hb')⟩
  rw [← List.drop_eq_getElem_cons hlt]
  exact List.drop_suffix _ _

section Targets

variable {s : Asm} {l : Idx} {label : Label} {types : ResultType}

theorem Targets.aims (hfits : t.Fits ctx m) (hok : t.Ok) (hlive : t.live = true)
    (hb : s.blocks = t.blocks) (hagree : t.Agrees s)
    (htgt : s.Targets ctx.returnTy l label types) :
    t.Aims m label.dest (s.words - label.depth + label.result.words) := by
  cases htgt with
  | ret => trivial
  | @back b hlen hget hk =>
      have hle := s.wordsFor_le b.height
      rw [hb] at hget
      have hexposed := exposed_of_getElem? hlive hget
      have hmeets := hfits.starts b _ hexposed (Or.inl hk)
      rw [← hagree.wordsFor hexposed.mem] at hmeets
      rw [ResultType.words_none, Nat.sub_sub_self hle, Nat.add_zero]
      exact hmeets
  | @end_ b hlen hget hk =>
      have hle := s.wordsFor_le b.height
      rw [hb] at hget hlen
      have hexposed := exposed_of_getElem? hlive hget
      have htag : b.tag ∈ t.blocks.map Block.tag := List.mem_map_of_mem hexposed.mem
      have hnone : t.ends b.id = none := hok.ids.ends_none _ htag
      refine ⟨fun a ha => ?_, fun _ => ⟨b, _, hexposed, ?_, rfl, ?_⟩⟩
      · rw [hnone] at ha
        cases ha
      · obtain ⟨hlt, -⟩ := List.getElem?_eq_some_iff.1 hget
        intro hnil
        rw [List.drop_eq_nil_iff] at hnil
        exact hlen (Nat.le_antisymm hlt hnil)
      · rw [Nat.sub_sub_self hle, hagree.wordsFor hexposed.mem]

theorem Targets.depth_le (htgt : s.Targets ctx.returnTy l label types) :
    label.depth ≤ s.words := by
  cases htgt with
  | ret => exact Nat.zero_le _
  | back => exact Nat.sub_le _ _
  | end_ => exact Nat.sub_le _ _

/-- A branch carries the results of its label. -/
theorem Targets.types_eq (hfits : t.Fits ctx m) (hb : s.blocks = t.blocks)
    (htgt : s.Targets ctx.returnTy l label types) : types = label.result := by
  cases htgt with
  | ret => rfl
  | back => rfl
  | @end_ b hlen hget hk =>
      rw [hb] at hget
      exact hfits.labels b (List.mem_of_getElem? hget) hk

theorem Targets.ret_result (htgt : s.Targets ctx.returnTy l label types)
    (hd : label.dest = .ret) : label.result = ctx.returnTy ∧ label.depth = 0 := by
  cases htgt with
  | ret => exact ⟨rfl, rfl⟩
  | back => cases hd
  | end_ => cases hd

/-- The operands below the innermost block are not dropped by more than its own. -/
theorem Targets.floor (hok : t.Ok) (hb : s.blocks = t.blocks)
    (htgt : s.Targets ctx.returnTy l label types) (hd : label.dest ≠ .ret) :
    ∃ b bs, t.blocks = b :: bs ∧ s.words - label.depth ≤ s.wordsFor b.height := by
  have hfloor : ∀ {b : Block}, s.blocks[l]? = some b → ∃ c cs, t.blocks = c :: cs ∧
      s.words - (s.words - s.wordsFor b.height) ≤ s.wordsFor c.height := by
    intro b hget
    rw [hb] at hget
    cases hc : t.blocks with
    | nil =>
        rw [hc] at hget
        cases hget
    | cons c cs =>
        have hblocks := hok.blocks
        obtain ⟨hlt, hbl⟩ := List.getElem?_eq_some_iff.1 hget
        have hsuffix : b :: t.blocks.drop (l + 1) <:+ c :: cs := by
          rw [← hc, ← hbl, ← List.drop_eq_getElem_cons hlt]
          exact List.drop_suffix _ _
        rw [hc] at hblocks
        refine ⟨c, cs, rfl, ?_⟩
        rw [Nat.sub_sub_self (s.wordsFor_le _)]
        exact heightWords_take_mono _ (height_le_of_suffix hblocks hsuffix)
  cases htgt with
  | ret => exact absurd rfl hd
  | back _ hget _ => exact hfloor hget
  | end_ _ hget _ => exact hfloor hget

/-- What is on the stack above the block of a label are at least its results. -/
theorem Targets.takes (hfits : t.Fits ctx .code) (hok : t.Ok) (hlive : t.live = true)
    (hb : s.blocks = t.blocks) (hagree : t.Agrees s) (hcertain : s.Certain)
    (htgt : s.Targets ctx.returnTy l label types) {opds : List OperandType}
    (hpops : s.Pops types.toList opds)
    (hle : ∀ b ∈ s.blocks.head?, b.height ≤ s.opds.length) : t.Takes ctx .code s.words label := by
  have htypes := htgt.types_eq hfits hb
  have hopds := hpops.exact_ hcertain
  have hwords := words_of_pops hopds hcertain.2
  have hresult : wordsOf types.toList = label.result.words := by
    rw [htypes]
    cases label.result with
    | none => rfl
    | some ty => simp
  rw [hresult] at hwords
  refine ⟨htgt.aims hfits hok hlive hb hagree, htgt.depth_le, fun hd => ?_, fun hd => ?_⟩
  · obtain ⟨b, bs, hblocks, hdepth⟩ := htgt.floor hok hb hd
    have hbs : s.blocks.head? = some b := by rw [hb, hblocks]; rfl
    have hbelow := hpops.wordsFor_le hbs (hle b hbs)
    have := htgt.depth_le
    omega
  · exact ⟨(htgt.ret_result hd).1, by omega⟩

end Targets

end Asm

end SpaceWasm
