import SpaceWasm.Flow
import SpaceWasm.Pending

/-!
# Every step keeps the heights

The heights fit together at the start of a function, and every call of the
assembler keeps them so, one step after the other. The last call emits the return
at the end of the function.
-/

namespace SpaceWasm

/-- Pops and pushes without an instruction keep the number of words. -/
theorem Context.Retypes.words {i : WasmInstr} {ins outs : List ValType} {ctx : Context}
    (h : ctx.Retypes i ins outs) : wordsOf ins = wordsOf outs := by
  cases h with
  | nop => rfl
  | @reinterpret op => cases op <;> rfl

namespace Asm

variable {ctx : Context} {t t' : Asm} {m m' : Mode}

/-! ### Straight code -/

theorem known_of_suffix {opds : List OperandType} (hs : opds <:+ t.opds)
    (h : .unknown ∉ t.opds) : .unknown ∉ opds :=
  fun hmem => h (hs.subset hmem)

theorem known_pushes (outs : List ValType) {opds : List OperandType} (h : .unknown ∉ opds) :
    .unknown ∉ (outs.map OperandType.known).reverse ++ opds := by
  rw [List.mem_append, not_or]
  refine ⟨fun hmem => ?_, h⟩
  obtain ⟨_, -, hty⟩ := List.mem_map.1 (List.mem_reverse.1 hmem)
  cases hty

theorem dead_known {s : Asm} (h : s.live = true → .unknown ∉ s.opds) :
    s.dead.live = true → .unknown ∉ s.dead.opds := by
  cases hb : s.blocks with
  | nil =>
      have hdead : s.dead = s := by
        unfold dead
        rw [hb]
      rw [hdead]
      exact h
  | cons b bs =>
      intro hlive
      rw [dead_live hb] at hlive
      cases hlive

theorem dead_words (s : Asm) : s.dead.words ≤ s.words := by
  unfold dead
  split
  · exact Nat.le_refl _
  · exact heightWords_reverse_le (List.drop_suffix _ _)

theorem dead_highwater (s : Asm) : s.dead.highwater = s.highwater := by
  unfold dead
  split <;> rfl

theorem head_le (hok : t.Ok) : ∀ b ∈ t.blocks.head?, b.height ≤ t.opds.length := by
  intro b hb
  have hblocks := hok.blocks
  cases hc : t.blocks with
  | nil => rw [hc] at hb; cases hb
  | cons c cs =>
      rw [hc] at hblocks hb
      cases hb
      exact hblocks.1

theorem Pops.words {ins : List ValType} {opds : List OperandType} (hp : t.Pops ins opds)
    (hc : t.Certain) : t.words = heightWords opds.reverse + wordsOf ins :=
  words_of_pops (hp.exact_ hc) hc.2

theorem Pops.known {ins : List ValType} {opds : List OperandType} (hp : t.Pops ins opds)
    (hc : t.Certain) : .unknown ∉ opds := known_of_suffix hp.suffix hc.2

theorem Flowing.silent {i : WasmInstr} {ins outs : List ValType} {opds : List OperandType} {hw : ℕ}
    (h : t.Flowing ctx .code) (hok : t.Ok)
    (hok' : Asm.Ok { t with opds := (outs.map .known).reverse ++ opds, highwater := hw })
    (hr : ctx.Retypes i ins outs) (hp : t.Pops ins opds)
    (hpushed : t.Pushed ((outs.map .known).reverse ++ opds) hw) :
    Flowing ctx .code { t with opds := (outs.map .known).reverse ++ opds, highwater := hw } := by
  have hagree : t.Agrees { t with opds := (outs.map .known).reverse ++ opds, highwater := hw } :=
    agrees_of_pops hok hp rfl
  have hlive : t.live = true → OperandType.unknown ∉ (outs.map .known).reverse ++ opds :=
    fun hlive => known_pushes outs (hp.known (certain_of_live h.toFits hlive))
  have hmeets : ∀ a n, t.Meets .code a n →
      Meets .code { t with opds := (outs.map .known).reverse ++ opds, highwater := hw } a n := by
    rintro a n (hat | ⟨-, rfl, hheight⟩)
    · exact Or.inl hat
    · refine Or.inr ⟨rfl, rfl, ?_⟩
      by_cases hl : t.live = true
      · have hc := certain_of_live h.toFits hl
        rw [height_of_live hl, hp.words hc, hr.words,
          ← words_of_pushes outs (hp.known hc)] at hheight
        exact (height_of_live (t := { t with
          opds := (outs.map .known).reverse ++ opds, highwater := hw }) hl).trans hheight
      · rw [height, if_neg hl] at hheight
        cases hheight
  have hcarries : Carries .code t .code
      { t with opds := (outs.map .known).reverse ++ opds, highwater := hw } :=
    Carries.of_staysOpen hok' hmeets rfl rfl
      (fun b bs hb => ⟨b, hb.congr rfl, rfl, rfl, rfl, rfl⟩) fun b bs hb => hagree.wordsFor hb.mem
  refine ⟨h.toFits.reshape hmeets (fun e he n hn => ?_) rfl (Or.inl rfl) hagree hlive
    (hpushed.words h.words_le), fun e he n hn => hcarries.flows (h.flows e he n hn)⟩
  exact Nat.le_trans (h.heights_le e he n hn) hpushed.le

theorem Flowing.plain {i : WasmInstr} {j : IrInstr} {ins outs : List ValType}
    {pushed opds : List OperandType} {hw : ℕ} (h : t.Flowing ctx .code) (hok : t.Ok)
    (hok' : Asm.Ok { t.push (.plain j) with opds := pushed ++ opds, highwater := hw })
    (he : ctx.Emits i j ins outs) (hp : t.Pops ins opds) (hpushed : t.Pushed (pushed ++ opds) hw)
    (houts : t.Certain → pushed = (outs.map .known).reverse) :
    Flowing ctx .code { t.push (.plain j) with opds := pushed ++ opds, highwater := hw } := by
  have hknown : t.live = true → OperandType.unknown ∉ pushed ++ opds := by
    intro hl
    have hc := certain_of_live h.toFits hl
    rw [houts hc]
    exact known_pushes outs (hp.known hc)
  refine h.push (i := .plain j) hok' rfl (Or.inl rfl) (agrees_of_pops hok hp rfl) hknown
    (hpushed.words h.words_le) hpushed.le fun _ hl => ?_
  have hc := certain_of_live h.toFits hl
  have hwords := hp.words hc
  refine Or.inl ⟨i, ins, outs, he, by omega, Or.inr ⟨rfl, (here_push t _).symm, ?_⟩⟩
  refine (height_of_live (t := { t.push (.plain j) with
    opds := pushed ++ opds, highwater := hw }) hl).trans (congrArg some ?_)
  change heightWords (pushed ++ opds).reverse = _
  rw [houts hc, words_of_pushes outs (hp.known hc)]
  omega

/-- A step that emits an instruction behind which nothing is reached. -/
theorem Flowing.push_dead {i : AsmInstr} {s : Asm} (h : t.Flowing ctx .code) (hok : t.Ok)
    (hok' : s.dead.Ok) (hL : s.toListing = (t.push i).toListing) (hb : s.blocks = t.blocks)
    (hs : s.opds <:+ t.opds)
    (hfloor : ∀ b ∈ t.blocks.head?, b.height ≤ t.opds.length → b.height ≤ s.opds.length)
    (hhw : s.highwater = t.highwater)
    (hflow : Carries .code t .code s.dead → t.live = true →
      s.dead.Flows ctx .code ⟨t.here, i, t.height⟩ t.words) : s.dead.Flowing ctx .code := by
  have hshape : t.Reshapes s.dead := by
    right
    cases hc : t.blocks with
    | nil => rw [dead_blocks_nil hc, dead_blocks_nil (hb.trans hc)]
    | cons c cs => rw [dead_blocks hc, dead_blocks (hb.trans hc)]
  have hagree : t.Agrees s.dead :=
    agrees_dead hok (agrees_of_suffix hok hs hfloor (List.nil_append _).symm) hb
      fun b hb => hfloor b hb (head_le hok b hb)
  have hlive : s.live = t.live := by rw [live, live, hb]
  refine h.push hok' ((dead_toListing s).trans hL) hshape hagree
    (dead_known fun hl => known_of_suffix hs (h.known (hlive ▸ hl))) ?_ ?_ hflow
  · rw [dead_highwater, hhw]
    exact Nat.le_trans (dead_words s) (Nat.le_trans (heightWords_reverse_le hs) h.words_le)
  · rw [dead_highwater, hhw]

theorem Flowing.unreachable (h : t.Flowing ctx .code) (hok : t.Ok)
    (hok' : (t.push (.plain .unreachable)).dead.Ok) :
    Flowing ctx .code (t.push (.plain .unreachable)).dead :=
  h.push_dead hok hok' rfl rfl List.suffix_rfl (fun _ _ hle => hle) rfl
    fun _ _ => Or.inr (Or.inl rfl)

theorem wordsOf_toList (r : ResultType) : wordsOf r.toList = r.words := by
  cases r with
  | none => rfl
  | some ty => simp

theorem Flowing.return_ {opds : List OperandType} (h : t.Flowing ctx .code) (hok : t.Ok)
    (hok' : (dead { t.push (.plain (instrReturn ctx.returnTy)) with opds := opds }).Ok)
    (hp : t.Pops ctx.returnTy.toList opds) :
    Flowing ctx .code (dead { t.push (.plain (instrReturn ctx.returnTy)) with opds := opds }) := by
  refine h.push_dead (i := .plain (instrReturn ctx.returnTy)) hok hok' rfl rfl hp.suffix hp.floor
    rfl fun _ hl => Or.inr (Or.inr ⟨rfl, ?_⟩)
  have hwords := hp.words (certain_of_live h.toFits hl)
  rw [wordsOf_toList] at hwords
  exact Nat.le.intro (by rw [hwords, Nat.add_comm])

theorem Flowing.br {l : Idx} {label : Label} {types : ResultType} {opds : List OperandType}
    (h : t.Flowing ctx .code) (hok : t.Ok)
    (hok' : (dead { t.push (.br label) with opds := opds }).Ok)
    (htgt : t.Targets ctx.returnTy l label types) (hp : t.Pops types.toList opds) :
    Flowing ctx .code (dead { t.push (.br label) with opds := opds }) :=
  h.push_dead (i := .br label) hok hok' rfl rfl hp.suffix hp.floor rfl fun hcarries hl =>
    hcarries.takes (htgt.takes h.toFits hok hl rfl (fun _ _ => rfl)
      (certain_of_live h.toFits hl) hp (head_le hok))

theorem Flowing.brIf {l : Idx} {label : Label} {types : ResultType} {opds opds' : List OperandType}
    {hw : ℕ} (h : t.Flowing ctx .code) (hok : t.Ok)
    (hok' : Asm.Ok { t.push (.brIf label) with
      opds := (types.toList.map .known).reverse ++ opds', highwater := hw })
    (hp : t.Pops [.i32] opds) (htgt : Targets { t with opds := opds } ctx.returnTy l label types)
    (hp' : Pops { t with opds := opds } types.toList opds')
    (hpushed : t.Pushed ((types.toList.map .known).reverse ++ opds') hw) :
    Flowing ctx .code { t.push (.brIf label) with
      opds := (types.toList.map .known).reverse ++ opds', highwater := hw } := by
  have hall := hp.append hp'
  have hknown : t.live = true →
      OperandType.unknown ∉ (types.toList.map .known).reverse ++ opds' := fun hl =>
    known_pushes _ (hall.known (certain_of_live h.toFits hl))
  refine h.push (i := .brIf label) hok' rfl (Or.inl rfl) (agrees_of_pops hok hall rfl) hknown
    (hpushed.words h.words_le) hpushed.le fun hcarries hl => ?_
  have hc := certain_of_live h.toFits hl
  have hwords := hp.words hc
  have hc' : Certain { t with opds := opds } := hc.withOpds hp.suffix
  have hwords' := hp'.words hc'
  have hsub : words { t with opds := opds } = t.words - 1 := by
    change heightWords opds.reverse = _
    simp only [wordsOf_cons, wordsOf_nil, ValType.words] at hwords
    omega
  refine ⟨?_, Or.inr ⟨rfl, (here_push t _).symm, ?_⟩, ?_⟩
  · simp only [wordsOf_cons, wordsOf_nil, ValType.words] at hwords
    omega
  · refine (height_of_live (t := { t.push (.brIf label) with
      opds := (types.toList.map .known).reverse ++ opds', highwater := hw }) hl).trans
      (congrArg some ?_)
    change heightWords ((types.toList.map OperandType.known).reverse ++ opds').reverse = _
    rw [words_of_pushes _ (hp'.known hc'), ← hwords', hsub]
  · have hagree : t.Agrees { t with opds := opds } :=
      agrees_of_pops hok hp (List.nil_append opds).symm
    have htakes := Targets.takes (s := { t with opds := opds }) h.toFits hok hl rfl hagree hc' htgt
      hp' fun b hb => hp.floor b hb (head_le hok b hb)
    rw [hsub] at htakes
    exact hcarries.takes htakes

/-! ### Blocks -/

/-- A block that is open when `c` has been opened. -/
theorem Exposed.cases {b c : Block} {bs : List Block} (hb : t'.blocks = c :: t.blocks)
    (h : t'.Exposed b bs) : b = c ∧ bs = t.blocks ∨ t.Exposed b bs := by
  have hs := h.suffix
  rw [hb] at hs
  rcases List.suffix_cons_iff.1 hs with heq | hs
  · cases heq
    exact Or.inl ⟨rfl, rfl⟩
  · exact Or.inr ⟨hs, h.reachable⟩

theorem Exposed.cons {b c : Block} {bs : List Block} (hb : t'.blocks = c :: t.blocks)
    (h : t.Exposed b bs) : t'.Exposed b bs :=
  ⟨hb ▸ h.suffix.trans (List.suffix_cons _ _), h.reachable⟩

theorem staysOpen_cons {c : Block} (hb : t'.blocks = c :: t.blocks) : t.StaysOpen t' :=
  fun b _ h => ⟨b, h.cons hb, rfl, rfl, rfl, rfl⟩

theorem live_cons {c : Block} (hb : t'.blocks = c :: t.blocks) (hc : c.unreachable = false) :
    t'.live = t.live := by
  rw [live, live, hb, List.all_cons, hc]
  rfl

theorem Exposed.live {c : Block} (h : t'.Exposed c t.blocks) : t.live = true :=
  live_iff.2 h.reachable

theorem take_length_reverse (os : List OperandType) : os.reverse.take os.length = os.reverse := by
  rw [List.take_of_length_le (by rw [List.length_reverse])]

theorem Flowing.opened {kind : BlockKind} {label out : ResultType} (h : t.Flowing ctx .code)
    (hok' : (t.opened kind label out).Ok) (hne : t.blocks ≠ [])
    (hlabel : kind ≠ .loop → label = out) : (t.opened kind label out).Flowing ctx .code := by
  have hblocks : (t.opened kind label out).blocks =
      ⟨kind, label, out, t.opds.length, false, t.nextId, t.here⟩ :: t.blocks := rfl
  have hlive : (t.opened kind label out).live = t.live := live_cons hblocks rfl
  have hcarries : Carries .code t .code (t.opened kind label out) := by
    refine Carries.of_staysOpen hok' ?_ rfl rfl (staysOpen_cons hblocks) fun _ _ _ => rfl
    rintro a n (hat | ⟨-, rfl, hheight⟩)
    · exact Or.inl hat
    · refine Or.inr ⟨rfl, rfl, ?_⟩
      rw [height, hlive]
      exact hheight
  refine ⟨⟨h.words_le, h.heights_le, hlive ▸ h.known, fun b bs hb => ?_, fun b hb hk => ?_,
    fun b hb => ?_, fun b bs hb hk => ?_⟩, fun e he n hn => hcarries.flows (h.flows e he n hn)⟩
  · rcases hb.cases hblocks with ⟨rfl, rfl⟩ | hb
    · have hl := hb.live
      change OperandType.unknown ∉ t.opds.reverse.take t.opds.length
      rw [take_length_reverse, List.mem_reverse]
      exact h.known hl
    · exact h.below b bs hb
  · rcases List.mem_cons.1 hb with rfl | hb
    · exact hlabel hk
    · exact h.labels b hb hk
  · rcases List.suffix_cons_iff.1 hb with heq | hb
    · exact absurd (List.cons.inj heq).2.symm hne
    · exact h.function b hb
  · rcases hb.cases hblocks with ⟨rfl, rfl⟩ | hb
    · have hl := hb.live
      refine Or.inr ⟨rfl, rfl, ?_⟩
      rw [height, hlive, if_pos hl]
      change some t.words = some (heightWords (t.opds.reverse.take t.opds.length))
      rw [take_length_reverse]
      rfl
    · exact hcarries.meets _ _ (h.starts b bs hb hk)

/-- The state after an `if`. -/
def afterIf (t : Asm) (ty : ResultType) (opds : List OperandType) : Asm :=
  { t.push (.if_ ⟨ty, 0, .else_ t.nextId⟩) with
    opds := opds
    blocks := ⟨.if_, ty, ty, opds.length, false, t.nextId, t.here⟩ :: t.blocks
    nextId := t.nextId + 1 }

theorem Flowing.if_ {ty : ResultType} {opds : List OperandType} (h : t.Flowing ctx .code)
    (hok : t.Ok) (hok' : (t.afterIf ty opds).Ok) (hne : t.blocks ≠ []) (hp : t.Pops [.i32] opds) :
    (t.afterIf ty opds).Flowing ctx .code := by
  have hblocks : (t.afterIf ty opds).blocks =
      ⟨.if_, ty, ty, opds.length, false, t.nextId, t.here⟩ :: t.blocks := rfl
  have hlive : (t.afterIf ty opds).live = t.live := live_cons hblocks rfl
  have hagree : t.Agrees (t.afterIf ty opds) := agrees_of_pops hok hp (List.nil_append _).symm
  have hentries : (t.afterIf ty opds).entries =
      (t.push (.if_ ⟨ty, 0, .else_ t.nextId⟩)).entries := rfl
  have hcarries : Carries .code t .code (t.afterIf ty opds) :=
    Carries.of_staysOpen hok' (fun _ _ => meets_push hentries) rfl rfl (staysOpen_cons hblocks)
      fun b bs hb => hagree.wordsFor hb.mem
  have hwords : (t.afterIf ty opds).words ≤ t.words := heightWords_reverse_le hp.suffix
  refine ⟨⟨Nat.le_trans hwords h.words_le, fun e he n hn => ?_, fun hl => ?_, fun b bs hb => ?_,
    fun b hb hk => ?_, fun b hb => ?_, fun b bs hb hk => ?_⟩, fun e he n hn => ?_⟩
  · exact h.heights_push (Nat.le_refl _) e he n hn
  · exact hp.known (certain_of_live h.toFits (hlive ▸ hl))
  · rcases hb.cases hblocks with ⟨rfl, rfl⟩ | hb
    · have hl := hb.live
      change OperandType.unknown ∉ opds.reverse.take opds.length
      rw [take_length_reverse, List.mem_reverse]
      exact hp.known (certain_of_live h.toFits hl)
    · rw [hagree b hb.mem]
      exact h.below b bs hb
  · rcases List.mem_cons.1 hb with rfl | hb
    · rfl
    · exact h.labels b hb hk
  · rcases List.suffix_cons_iff.1 hb with heq | hb
    · exact absurd (List.cons.inj heq).2.symm hne
    · exact h.function b hb
  · rcases hb.cases hblocks with ⟨rfl, rfl⟩ | hb
    · exact absurd (hk.resolve_left nofun) hne
    · rw [hagree.wordsFor hb.mem]
      exact hcarries.meets _ _ (h.starts b bs hb hk)
  · rcases List.mem_cons.1 he with rfl | he
    · obtain ⟨hl, rfl⟩ := of_height hn
      have hc := certain_of_live h.toFits hl
      have hpop := hp.words hc
      have hafter : (t.afterIf ty opds).words = t.words - 1 := by
        change heightWords opds.reverse = _
        simp only [wordsOf_cons, wordsOf_nil, ValType.words] at hpop
        omega
      refine ⟨?_, Or.inr ⟨rfl, (here_push t _).symm, ?_⟩, nofun, fun a ha => ?_, fun _ => ?_⟩
      · simp only [wordsOf_cons, wordsOf_nil, ValType.words] at hpop
        omega
      · rw [height, hlive, if_pos hl, hafter]
      · have hfresh := (hok.ids.fresh t.nextId (Nat.le_refl _)).2
        cases hfresh.symm.trans ha
      · refine ⟨_, t.blocks, ⟨List.suffix_rfl, live_iff.1 hl⟩, hne, rfl, rfl, ?_⟩
        rw [← hafter, Asm.wordsFor]
        change heightWords (opds.reverse.take opds.length) = heightWords opds.reverse
        rw [take_length_reverse]
    · exact hcarries.flows (h.flows e he n hn)

/-- The block `b` is the innermost one, or it is not. -/
theorem Exposed.cases_head {b c : Block} {bs cs : List Block} (hb : t.blocks = b :: bs)
    (h : t.Exposed c cs) : c = b ∧ cs = bs ∨ c :: cs <:+ bs := by
  have hs := h.suffix
  rw [hb] at hs
  rcases List.suffix_cons_iff.1 hs with heq | hs
  · cases heq
    exact Or.inl ⟨rfl, rfl⟩
  · exact Or.inr hs

/-- The operands of a block that is closed with its results popped. -/
theorem wordsFor_of_closed {b : Block} {opds : List OperandType} (hs : opds <:+ t.opds)
    (hlen : opds.length = b.height) : heightWords opds.reverse = t.wordsFor b.height := by
  rw [wordsFor, ← take_reverse_of_suffix hs (Nat.le_of_eq hlen.symm), ← hlen, take_length_reverse]

theorem known_of_closed {b : Block} {bs : List Block} {opds : List OperandType}
    (h : t.Fits ctx m) (hb : t.Exposed b bs) (hs : opds <:+ t.opds)
    (hlen : opds.length = b.height) : .unknown ∉ opds := by
  have hbelow := h.below b bs hb
  rwa [← take_reverse_of_suffix hs (Nat.le_of_eq hlen.symm), ← hlen, take_length_reverse,
    List.mem_reverse] at hbelow

/-- The state after an `else`. -/
def afterElse (t : Asm) (label : Label) (b : Block) (bs : List Block) (opds : List OperandType) :
    Asm :=
  { t.push (.br label) with
    opds := opds
    elses := Function.update t.elses b.id (some (t.push (.br label)).here)
    blocks := ⟨.block, b.out, b.out, opds.length, false, b.id, b.start⟩ :: bs }

theorem carries_else {label : Label} {b : Block} {bs : List Block} {opds : List OperandType}
    (hok : t.Ok) (hok' : (t.afterElse label b bs opds).Ok) (hb : t.blocks = b :: bs)
    (hk : b.kind = .if_) (hp : t.Pops b.out.toList opds) (hlen : opds.length = b.height) :
    Carries .code t .code (t.afterElse label b bs opds) := by
  have hentries : (t.afterElse label b bs opds).entries = (t.push (.br label)).entries := rfl
  have hagree : t.Agrees (t.afterElse label b bs opds) :=
    agrees_of_pops hok hp (List.nil_append _).symm
  have hwords := wordsFor_of_closed hp.suffix hlen
  have htag : (b.id, b.kind) ∈ t.blocks.map Block.tag := by
    rw [hb]
    exact List.mem_cons_self
  have hstays : ∀ c cs, c :: cs <:+ bs → (∀ b' ∈ cs, b'.unreachable = false) →
      (t.afterElse label b bs opds).Exposed c cs :=
    fun c cs hs hr => ⟨hs.trans (List.suffix_cons _ _), hr⟩
  refine Carries.of hok' (fun _ _ => meets_push hentries) (fun _ _ h => h)
    (fun id a h => update_of_none (hok.ids.elses_none _ htag hk) h) (fun c cs hc _ => ?_)
    fun c cs hc _ _ => ?_
  · right
    rcases hc.cases_head hb with ⟨rfl, rfl⟩ | hs
    · refine ⟨_, ⟨List.suffix_rfl, hc.reachable⟩, rfl, rfl, ?_⟩
      rw [← hwords, Asm.wordsFor]
      exact congrArg heightWords (take_length_reverse opds)
    · exact ⟨c, hstays c cs hs hc.reachable, rfl, rfl, hagree.wordsFor hc.mem⟩
  · rcases hc.cases_head hb with ⟨rfl, rfl⟩ | hs
    · refine Or.inl ⟨_, Function.update_self _ _ _, Or.inr ⟨rfl, rfl, ?_⟩⟩
      have hlive : (t.afterElse label c cs opds).live = true := live_iff.2 fun b' hb' => by
        rcases List.mem_cons.1 hb' with rfl | hb'
        · rfl
        · exact hc.reachable b' hb'
      rw [height_of_live hlive, ← hwords]
      rfl
    · right
      exact ⟨c, hstays c cs hs hc.reachable, rfl, by assumption, hagree.wordsFor hc.mem⟩

theorem Flowing.else_ {label : Label} {types : ResultType} {b : Block} {bs : List Block}
    {opds : List OperandType} (h : t.Flowing ctx .code) (hok : t.Ok)
    (hok' : (t.afterElse label b bs opds).Ok) (htgt : t.Targets ctx.returnTy 0 label types)
    (hb : t.blocks = b :: bs) (hk : b.kind = .if_) (hp : t.Pops b.out.toList opds)
    (hlen : opds.length = b.height) : (t.afterElse label b bs opds).Flowing ctx .code := by
  have hcarries := carries_else hok hok' hb hk hp hlen
  have hagree : t.Agrees (t.afterElse label b bs opds) :=
    agrees_of_pops hok hp (List.nil_append _).symm
  have hwords : (t.afterElse label b bs opds).words ≤ t.words := heightWords_reverse_le hp.suffix
  -- The outermost block is no `if`.
  have hne : bs ≠ [] := by
    rintro rfl
    have hblocks := hok.blocks
    rw [hb] at hblocks
    cases hk.symm.trans (hblocks.2.1 rfl)
  have hinner : ∀ {cs : List Block}, (∀ b' ∈ cs, b'.unreachable = false) → cs = bs →
      t.Exposed b cs := fun hr hcs => ⟨hcs ▸ hb ▸ List.suffix_rfl, hr⟩
  have hcases : ∀ c cs, (t.afterElse label b bs opds).Exposed c cs →
      (c.kind = .block ∧ c.height = opds.length ∧ cs = bs ∧ t.Exposed b cs) ∨ t.Exposed c cs := by
    intro c cs hc
    rcases List.suffix_cons_iff.1 hc.suffix with heq | hs
    · cases heq
      exact Or.inl ⟨rfl, rfl, rfl, hinner hc.reachable rfl⟩
    · exact Or.inr ⟨hb ▸ hs.trans (List.suffix_cons _ _), hc.reachable⟩
  refine ⟨⟨Nat.le_trans hwords h.words_le, fun e he n hn => ?_, fun hl => ?_, fun c cs hc => ?_,
    fun c hc hkind => ?_, fun c hc => ?_, fun c cs hc hkind => ?_⟩, fun e he n hn => ?_⟩
  · exact h.heights_push (Nat.le_refl _) e he n hn
  · have hr := fun b' hb' => live_iff.1 hl b' (List.mem_cons_of_mem _ hb')
    exact known_of_closed h.toFits (hinner hr rfl) hp.suffix hlen
  · rcases hcases c cs hc with ⟨-, hheight, -, hc⟩ | hc
    · rw [hheight]
      change OperandType.unknown ∉ opds.reverse.take opds.length
      rw [take_length_reverse, List.mem_reverse]
      exact known_of_closed h.toFits hc hp.suffix hlen
    · rw [hagree c hc.mem]
      exact h.below c cs hc
  · rcases List.mem_cons.1 hc with rfl | hc
    · rfl
    · exact h.labels c (hb ▸ List.mem_cons_of_mem b hc) hkind
  · rcases List.suffix_cons_iff.1 hc with heq | hc
    · exact absurd (List.cons.inj heq).2.symm hne
    · exact h.function c (hb ▸ hc.trans (List.suffix_cons _ _))
  · rcases hcases c cs hc with ⟨hblock, -, rfl, -⟩ | hc
    · exact absurd (hkind.resolve_left (by rw [hblock]; nofun)) hne
    · rw [hagree.wordsFor hc.mem]
      exact hcarries.meets _ _ (h.starts c cs hc hkind)
  · rcases List.mem_cons.1 he with rfl | he
    · obtain ⟨hl, rfl⟩ := of_height hn
      have htypes : types = b.out := by
        rw [htgt.types_eq h.toFits rfl]
        cases htgt with
        | @ret hlast =>
            rw [hb] at hlast
            obtain rfl := List.length_eq_zero_iff.1 (Nat.succ_injective hlast).symm
            exact (h.function b (hb ▸ List.suffix_rfl)).1.symm
        | @back c _ hget hloop =>
            rw [hb] at hget
            cases hget
            rw [hk] at hloop
            cases hloop
        | @end_ c _ hget _ =>
            rw [hb] at hget
            cases hget
            rfl
      exact hcarries.takes (htgt.takes h.toFits hok hl rfl (fun _ _ => rfl)
        (certain_of_live h.toFits hl) (htypes ▸ hp) (head_le hok))
    · exact hcarries.flows (h.flows e he n hn)

/-- The state after the end of a block. -/
def afterEnd (t : Asm) (b : Block) (bs : List Block) (opds : List OperandType) (hw : ℕ) : Asm :=
  { t.bound b with
    opds := (b.out.toList.map .known).reverse ++ opds
    highwater := hw
    blocks := bs }

theorem carries_end {b : Block} {bs : List Block} {opds : List OperandType} {hw : ℕ}
    (h : t.Fits ctx .code) (hok : t.Ok) (hok' : (t.afterEnd b bs opds hw).Ok)
    (hb : t.blocks = b :: bs) (hp : t.Pops b.out.toList opds) (hlen : opds.length = b.height)
    (hif : b.kind = .if_ → b.out = none) :
    Carries .code t .code (t.afterEnd b bs opds hw) := by
  have hagree : t.Agrees (t.afterEnd b bs opds hw) := agrees_of_pops hok hp rfl
  have hclosed := wordsFor_of_closed hp.suffix hlen
  obtain ⟨hends, helses⟩ := bound_keeps hok (b := b) (by rw [hb]; exact List.mem_cons_self)
  -- Behind the block, the words below it and its results are left.
  have hafter : t.Exposed b bs →
      (t.afterEnd b bs opds hw).height = some (t.wordsFor b.height + b.out.words) := by
    intro hc
    have hlive : (t.afterEnd b bs opds hw).live = true := live_iff.2 hc.reachable
    rw [height_of_live hlive, ← hclosed, ← wordsOf_toList,
      ← words_of_pushes _ (known_of_closed h hc hp.suffix hlen)]
    rfl
  have hmeets : ∀ a n, t.Meets .code a n → (t.afterEnd b bs opds hw).Meets .code a n := by
    rintro a n (hat | ⟨-, rfl, hheight⟩)
    · exact Or.inl hat
    · obtain ⟨hl, rfl⟩ := of_height hheight
      have hc : t.Exposed b bs := ⟨hb ▸ List.suffix_rfl, fun b' hb' =>
        live_iff.1 hl b' (hb ▸ List.mem_cons_of_mem b hb')⟩
      refine Or.inr ⟨rfl, rfl, ?_⟩
      rw [hafter hc, ← hclosed, hp.words (certain_of_live h hl), wordsOf_toList]
  refine Carries.of hok' hmeets hends helses (fun c cs hc _ => ?_) fun c cs hc _ hkind => ?_
  · rcases hc.cases_head hb with ⟨rfl, rfl⟩ | hs
    · exact Or.inl ⟨t.here, Function.update_self _ _ _, Or.inr ⟨rfl, rfl, hafter hc⟩⟩
    · exact Or.inr ⟨c, ⟨hs, hc.reachable⟩, rfl, rfl, hagree.wordsFor hc.mem⟩
  · rcases hc.cases_head hb with ⟨rfl, rfl⟩ | hs
    · refine Or.inl ⟨t.here, (bound_binds t c).2 hkind, Or.inr ⟨rfl, rfl, ?_⟩⟩
      rw [hafter hc, hif hkind]
      rfl
    · exact Or.inr ⟨c, ⟨hs, hc.reachable⟩, rfl, hkind, hagree.wordsFor hc.mem⟩

theorem Flowing.exitBlock {b : Block} {bs : List Block} {opds : List OperandType} {hw : ℕ}
    (h : t.Flowing ctx .code) (hok : t.Ok) (hok' : (t.afterEnd b bs opds hw).Ok)
    (hb : t.blocks = b :: bs) (hp : t.Pops b.out.toList opds) (hlen : opds.length = b.height)
    (hif : b.kind = .if_ → b.out = none)
    (hpushed : t.Pushed ((b.out.toList.map .known).reverse ++ opds) hw) :
    (t.afterEnd b bs opds hw).Flowing ctx .code := by
  have hcarries := carries_end h.toFits hok hok' hb hp hlen hif
  have hagree : t.Agrees (t.afterEnd b bs opds hw) := agrees_of_pops hok hp rfl
  have hcases : ∀ c cs, (t.afterEnd b bs opds hw).Exposed c cs → t.Exposed c cs := fun c cs hc =>
    ⟨hb ▸ hc.suffix.trans (List.suffix_cons _ _), hc.reachable⟩
  refine ⟨⟨hpushed.words h.words_le, fun e he n hn => ?_, fun hl => ?_, fun c cs hc => ?_,
    fun c hc hkind => ?_, fun c hc => ?_, fun c cs hc hkind => ?_⟩,
    fun e he n hn => hcarries.flows (h.flows e he n hn)⟩
  · exact Nat.le_trans (h.heights_le e he n hn) hpushed.le
  · have hc : t.Exposed b bs := ⟨hb ▸ List.suffix_rfl, live_iff.1 hl⟩
    exact known_pushes _ (known_of_closed h.toFits hc hp.suffix hlen)
  · rw [hagree c (hcases c cs hc).mem]
    exact h.below c cs (hcases c cs hc)
  · exact h.labels c (hb ▸ List.mem_cons_of_mem b hc) hkind
  · exact h.function c (hb ▸ hc.trans (List.suffix_cons _ _))
  · rw [hagree.wordsFor (hcases c cs hc).mem]
    exact hcarries.meets _ _ (h.starts c cs (hcases c cs hc) hkind)

/-! ### Branch tables -/

theorem addLabel_entries {e : Entry} {es : List Entry} (h : t.entries = e :: es) (label : Label) :
    (t.addLabel label).entries = { e with instr := e.instr.addLabel label } :: es := by
  rw [addLabel, h]
  rfl

/-- A label for a `br_table` changes neither addresses nor heights. -/
theorem of_addLabel {label : Label} {e : Entry} (he : e ∈ (t.addLabel label).entries) :
    ∃ e' ∈ t.entries, e'.addr = e.addr ∧ e'.height = e.height := by
  cases hes : t.entries with
  | nil =>
      rw [addLabel, hes] at he
      cases he
  | cons e₀ es =>
      rw [addLabel_entries hes] at he
      rcases List.mem_cons.1 he with rfl | he
      · exact ⟨e₀, List.mem_cons_self, rfl, rfl⟩
      · exact ⟨e, List.mem_cons_of_mem _ he, rfl, rfl⟩

theorem meets_addLabel {label : Label} {n k a h : ℕ}
    (hL : t'.entries = (t.addLabel label).entries) (hm : t.Meets (.table n k) a h) :
    t'.Meets m' a h := by
  rcases hm with ⟨e, he, haddr, hheight⟩ | ⟨hmode, -⟩
  · left
    rw [Listing.HeightAt, hL]
    cases hes : t.entries with
    | nil =>
        rw [hes] at he
        cases he
    | cons e₀ es =>
        rw [addLabel_entries hes]
        rw [hes] at he
        rcases List.mem_cons.1 he with rfl | he
        · exact ⟨_, List.mem_cons_self, haddr, hheight⟩
        · exact ⟨e, List.mem_cons_of_mem _ he, haddr, hheight⟩
  · cases hmode

theorem Flowing.brTableStart {len : U32} {opds : List OperandType} (h : t.Flowing ctx .code)
    (hok : t.Ok) (hok' : Asm.Ok { t.push (.brTable len.toNat []) with opds := opds })
    (hp : t.Pops [.i32] opds) :
    Flowing ctx (.table len.toNat 0) { t.push (.brTable len.toNat []) with opds := opds } := by
  have hagree : t.Agrees { t.push (.brTable len.toNat []) with opds := opds } :=
    agrees_of_pops hok hp (List.nil_append _).symm
  have hknown : t.live = true → OperandType.unknown ∉ opds :=
    fun hl => hp.known (certain_of_live h.toFits hl)
  have hcarries : Carries .code t (.table len.toNat 0)
      { t.push (.brTable len.toNat []) with opds := opds } :=
    Carries.push (i := .brTable len.toNat []) hok' rfl (Or.inl rfl) hagree
  refine ⟨h.toFits.push (i := .brTable len.toNat []) rfl (Or.inl rfl) hagree hknown ?_
    (Nat.le_refl _), _, t.entries, rfl, fun e he n hn => hcarries.flows (h.flows e he n hn),
    fun n hn => ?_⟩
  · exact Nat.le_trans (heightWords_reverse_le hp.suffix) h.words_le
  · obtain ⟨hl, rfl⟩ := of_height hn
    have hwords := hp.words (certain_of_live h.toFits hl)
    simp only [wordsOf_cons, wordsOf_nil, ValType.words] at hwords
    exact ⟨hl, hwords, len.toNat, [], rfl, nofun⟩

theorem Carries.awaited {label l : Label} {types : ResultType}
    (hc : Carries m t m' { t.addLabel label with brTableResult := some types })
    (hres : ∀ other, t.brTableResult = some other → other = types) (hl : t.Awaited ctx m l) :
    Awaited ctx m' { t.addLabel label with brTableResult := some types } l :=
  ⟨hc.aims _ _ hl.aims, hl.depth_le, hl.floor, hl.ret, congrArg some (hres _ hl.result).symm⟩

theorem Flowing.brTableBranch {n k : ℕ} {l : Idx} {label : Label} {types : ResultType}
    (h : t.Flowing ctx (.table n k)) (hok : t.Ok)
    (hok' : Asm.Ok { t.addLabel label with brTableResult := some types })
    (htgt : t.Targets ctx.returnTy l label types)
    (hres : ∀ other, t.brTableResult = some other → other = types) :
    Flowing ctx (.table n (k + 1)) { t.addLabel label with brTableResult := some types } := by
  have hmeets : ∀ a j, t.Meets (.table n k) a j →
      Meets (.table n (k + 1)) { t.addLabel label with brTableResult := some types } a j :=
    fun _ _ hm => meets_addLabel rfl hm
  have hcarries : Carries (.table n k) t (.table n (k + 1))
      { t.addLabel label with brTableResult := some types } :=
    Carries.of_staysOpen hok' hmeets rfl rfl
      (fun b bs hb => ⟨b, hb.congr rfl, rfl, rfl, rfl, rfl⟩) fun _ _ _ => rfl
  obtain ⟨e, es, hes, hold, hlast⟩ := h.flows
  refine ⟨h.toFits.reshape hmeets (fun e he j hj => ?_) rfl (Or.inl rfl) (fun _ _ => rfl) h.known
    h.words_le, _, es, addLabel_entries hes label,
    fun e he j hj => hcarries.flows (hold e he j hj), fun j hj => ?_⟩
  · obtain ⟨e', he', -, hheight⟩ := of_addLabel he
    exact h.heights_le e' he' j (hheight.trans hj)
  · obtain ⟨hl, hj, len, ls, hi, hls⟩ := hlast j hj
    have haims := htgt.aims h.toFits hok hl rfl fun _ _ => rfl
    have hfloor := htgt.floor hok rfl
    refine ⟨hl, hj, len, ls ++ [label], by rw [hi]; rfl, fun l' hl' => ?_⟩
    rcases List.mem_append.1 hl' with hl' | hl'
    · exact hcarries.awaited hres (hls l' hl')
    · rw [List.mem_singleton.1 hl']
      exact ⟨hcarries.aims _ _ haims, htgt.depth_le, hfloor, htgt.ret_result,
        congrArg some (htgt.types_eq h.toFits rfl)⟩

/-- The labels can be taken once their results have been found on the stack. -/
theorem takes_of_awaited {l : Label} (hc : Carries m t .code t') (hok : t.Ok)
    (haims : t.Aims m l.dest (t.words - l.depth + l.result.words)) (hdepth : l.depth ≤ t.words)
    (hfloor : l.dest ≠ .ret → ∃ b bs, t.blocks = b :: bs ∧ t.words - l.depth ≤ t.wordsFor b.height)
    (hret : l.dest = .ret → l.result = ctx.returnTy) {opds : List OperandType}
    (hp : t.Pops l.result.toList opds) (hcertain : t.Certain) : t'.Takes ctx .code t.words l := by
  have hwords := hp.words hcertain
  rw [wordsOf_toList] at hwords
  refine ⟨hc.aims _ _ haims, hdepth, fun hd => ?_, fun hd => ⟨hret hd, by omega⟩⟩
  obtain ⟨b, bs, hb, hle⟩ := hfloor hd
  have hbs : t.blocks.head? = some b := by rw [hb]; rfl
  have hbelow := hp.wordsFor_le hbs (head_le hok b hbs)
  omega

theorem Flowing.brTableFinish {n : ℕ} {l : Idx} {label : Label} {types : ResultType}
    {opds : List OperandType} (h : t.Flowing ctx (.table n n)) (hok : t.Ok)
    (hok' : (dead { t.addLabel label with brTableResult := none, opds := opds }).Ok)
    (htgt : t.Targets ctx.returnTy l label types)
    (hres : ∀ other, t.brTableResult = some other → other = types)
    (hp : t.Pops types.toList opds) :
    Flowing ctx .code (dead { t.addLabel label with brTableResult := none, opds := opds }) := by
  have hentries : (dead { t.addLabel label with brTableResult := none, opds := opds }).entries =
      (t.addLabel label).entries := by rw [dead_toListing]
  have hbase : (dead { t.addLabel label with brTableResult := none, opds := opds }).base =
      t.base := by rw [dead_toListing]; rfl
  have hmeets : ∀ a j, t.Meets (.table n n) a j →
      Meets .code (dead { t.addLabel label with brTableResult := none, opds := opds }) a j :=
    fun _ _ hm => meets_addLabel hentries hm
  have hshape :
      t.Reshapes (dead { t.addLabel label with brTableResult := none, opds := opds }) := by
    right
    cases hc : t.blocks with
    | nil => rw [dead_blocks_nil hc, dead_blocks_nil (t := { t.addLabel label with
        brTableResult := none, opds := opds }) hc]
    | cons c cs => rw [dead_blocks hc, dead_blocks (t := { t.addLabel label with
        brTableResult := none, opds := opds }) hc]
  have hagree : t.Agrees (dead { t.addLabel label with brTableResult := none, opds := opds }) :=
    agrees_dead hok (agrees_of_suffix hok hp.suffix hp.floor (List.nil_append _).symm) rfl
      fun b hb => hp.floor b hb (head_le hok b hb)
  have hcarries : Carries (.table n n) t .code
      (dead { t.addLabel label with brTableResult := none, opds := opds }) :=
    Carries.of_staysOpen hok' hmeets (dead_ends _) (dead_elses _) hshape.staysOpen
      fun b bs hb => hagree.wordsFor hb.mem
  obtain ⟨e, es, hes, hold, hlast⟩ := h.flows
  refine ⟨h.toFits.reshape hmeets (fun e he j hj => ?_) hbase hshape hagree
    (dead_known fun hl => hp.known (certain_of_live h.toFits hl)) ?_, fun e' he' j hj => ?_⟩
  · rw [hentries] at he
    obtain ⟨e', he', -, hheight⟩ := of_addLabel he
    rw [dead_highwater]
    exact h.heights_le e' he' j (hheight.trans hj)
  · rw [dead_highwater]
    exact Nat.le_trans (dead_words _) (Nat.le_trans (heightWords_reverse_le hp.suffix) h.words_le)
  · rw [hentries, addLabel_entries hes] at he'
    rcases List.mem_cons.1 he' with rfl | he'
    · obtain ⟨hl, rfl, len, ls, hi, hls⟩ := hlast j hj
      have hcertain := certain_of_live h.toFits hl
      have htypes := htgt.types_eq h.toFits rfl
      simp only [Flows, hi, AsmInstr.addLabel, Nat.add_sub_cancel]
      refine ⟨Nat.le_add_left 1 _, fun l' hl' => ?_⟩
      rcases List.mem_append.1 hl' with hl' | hl'
      · have hwait := hls l' hl'
        rw [← hres _ hwait.result] at hp
        exact takes_of_awaited hcarries hok hwait.aims hwait.depth_le hwait.floor
          (fun hd => (hwait.ret hd).1) hp hcertain
      · rw [List.mem_singleton.1 hl']
        rw [htypes] at hp
        exact takes_of_awaited hcarries hok (htgt.aims h.toFits hok hl rfl fun _ _ => rfl)
          htgt.depth_le (htgt.floor hok rfl) (fun hd => (htgt.ret_result hd).1) hp hcertain
    · exact hcarries.flows (hold e' he' j hj)

/-! ### The steps together -/

theorem Step.flowing {i : WasmInstr} (hstep : Step ctx t i t') (h : t.Flowing ctx m) (hok : t.Ok)
    (hok' : t'.Ok) (hne : t.blocks ≠ []) (hi : i ≠ .finish) (hm : m.Next i m') :
    t'.Flowing ctx m' := by
  cases hstep with
  | silent hr hp hpushed =>
      obtain ⟨rfl, rfl⟩ := hr.mode hm
      exact h.silent hok hok' hr hp hpushed
  | plain he hp hpushed houts =>
      obtain ⟨rfl, rfl⟩ := he.mode hm
      exact h.plain hok hok' he hp hpushed houts
  | unreachable =>
      cases hm
      exact h.unreachable hok hok'
  | return_ hp =>
      cases hm
      exact h.return_ hok hok' hp
  | enterBlock =>
      cases hm
      exact h.opened hok' hne fun _ => rfl
  | loop_ =>
      cases hm
      exact h.opened hok' hne fun hk => absurd rfl hk
  | if_ hp =>
      cases hm
      exact h.if_ hok hok' hne hp
  | else_ htgt hb hk hp hlen =>
      cases hm
      exact h.else_ hok hok' htgt hb hk hp hlen
  | exitBlock hb hp hlen hif hpushed =>
      cases hm
      exact h.exitBlock hok hok' hb hp hlen hif hpushed
  | finish => exact absurd rfl hi
  | br htgt hp =>
      cases hm
      exact h.br hok hok' htgt hp
  | brIf hp htgt hp' hpushed =>
      cases hm
      exact h.brIf hok hok' hp htgt hp' hpushed
  | brTableStart hp =>
      cases hm with
      | single hs => exact hs.elim
      | start => exact h.brTableStart hok hok' hp
  | brTableBranch htgt hres =>
      cases hm with
      | single hs => exact hs.elim
      | branch => exact h.brTableBranch hok hok' htgt hres
  | brTableFinish htgt hres hp =>
      cases hm with
      | single hs => exact hs.elim
      | finish => exact h.brTableFinish hok hok' htgt hres hp

theorem start_flowing (ctx : Context) (base : ℕ) : (start ctx base).Flowing ctx .code := by
  have hblock : ∀ {b : Block} {bs : List Block}, (start ctx base).Exposed b bs →
      b = ⟨.block, ctx.returnTy, ctx.returnTy, 0, false, 0, base⟩ := by
    intro b bs hb
    exact List.mem_singleton.1 hb.mem
  refine ⟨⟨Nat.le_refl _, nofun, fun _ => nofun, fun b bs hb => ?_, fun b hb _ => ?_,
    fun b hb => ?_,
    fun b bs hb _ => ?_⟩, nofun⟩
  · rw [hblock hb]
    exact nofun
  · rw [List.mem_singleton.1 hb]
  · rw [List.mem_singleton.1 (hb.subset List.mem_cons_self)]
    exact ⟨rfl, rfl, rfl⟩
  · rw [hblock hb]
    exact Or.inr ⟨rfl, rfl, rfl⟩

theorem dead_blocks_length (t : Asm) : t.dead.blocks.length = t.blocks.length := by
  unfold dead
  split
  · rfl
  · rename_i b bs hb
    rw [hb]
    rfl

/-- The number of open blocks follows the depth of the decoder. -/
theorem Step.depth {i : WasmInstr} {depth depth' : ℕ} (hi : i.depthAfter depth = some depth')
    (hs : i.Single depth) (hlen : t.blocks.length = depth + 1) (hstep : Step ctx t i t') :
    t'.blocks.length = depth' + 1 := by
  cases hstep with
  | silent hr _ _ =>
      cases hr <;> (cases hi; exact hlen)
  | plain he _ _ _ =>
      cases he <;> (cases hi; exact hlen)
  | unreachable =>
      cases hi
      exact (dead_blocks_length _).trans hlen
  | return_ =>
      cases hi
      exact (dead_blocks_length _).trans hlen
  | enterBlock =>
      cases hi
      exact congrArg (· + 1) hlen
  | loop_ =>
      cases hi
      exact congrArg (· + 1) hlen
  | if_ =>
      cases hi
      exact congrArg (· + 1) hlen
  | else_ _ hb =>
      cases hi
      rw [hb] at hlen
      exact hlen
  | @exitBlock b bs _ _ hb =>
      cases hi
      rw [hb, List.length_cons] at hlen
      have hpos : 0 < depth := hs
      change bs.length = _
      omega
  | finish => cases hi
  | br =>
      cases hi
      exact (dead_blocks_length _).trans hlen
  | brIf =>
      cases hi
      exact hlen
  | brTableStart => exact hs.elim
  | brTableBranch => exact hs.elim
  | brTableFinish => exact hs.elim

/-! ### Runs of the assembler -/

section Run

variable {calls : List WasmInstr}

/-- A run of the assembler over the calls, all whose states are in order. -/
inductive OkRun (ctx : Context) : Asm → List WasmInstr → Asm → Prop where
  | nil {t : Asm} : OkRun ctx t [] t
  | cons {t t₁ t' : Asm} {i : WasmInstr} {is : List WasmInstr} : t₁.Ok → Step ctx t i t₁ →
      OkRun ctx t₁ is t' → OkRun ctx t (i :: is) t'

/-- The labels of a `br_table`. -/
theorem Flowing.labels_run {n k : ℕ} {ls : List Idx} {l : Idx} {rest : List WasmInstr}
    (hn : k + ls.length = n) (h : t.Flowing ctx (.table n k)) (hok : t.Ok) (hne : t.blocks ≠ [])
    (hrun : OkRun ctx t (ls.map .brTableBranch ++ .brTableFinish l :: rest) t') :
    ∃ s, s.Flowing ctx .code ∧ s.Ok ∧ s.blocks.length = t.blocks.length ∧
      OkRun ctx s rest t' := by
  induction ls generalizing k t with
  | nil =>
      obtain rfl : k = n := hn
      cases hrun with
      | @cons _ t₁ _ _ _ hok₁ hstep hrun =>
          refine ⟨t₁, hstep.flowing h hok hok₁ hne nofun .finish, hok₁, ?_, hrun⟩
          cases hstep with
          | silent hr _ _ => cases hr
          | plain he _ _ _ => cases he
          | brTableFinish => exact dead_blocks_length _
  | cons l' ls ih =>
      cases hrun with
      | @cons _ t₁ _ _ _ hok₁ hstep hrun =>
          have hblocks : t₁.blocks = t.blocks := by
            cases hstep with
            | silent hr _ _ => cases hr
            | plain he _ _ _ => cases he
            | brTableBranch => rfl
          have hflow := hstep.flowing h hok hok₁ hne nofun .branch
          rw [List.length_cons] at hn
          obtain ⟨s, hs, hoks, hlen, hrest⟩ := ih (by omega) hflow hok₁ (hblocks ▸ hne) hrun
          exact ⟨s, hs, hoks, hblocks ▸ hlen, hrest⟩

/-- The heights fit together up to the end of the function. -/
theorem Flowing.run {depth : ℕ} (hstream : Stream depth calls) (h : t.Flowing ctx .code)
    (hok : t.Ok) (hlen : t.blocks.length = depth + 1) (hrun : OkRun ctx t calls t') :
    ∃ s, s.Flowing ctx .code ∧ s.Ok ∧ s.blocks.length = 1 ∧ Step ctx s .finish t' := by
  have hne : t.blocks ≠ [] := fun hnil => by rw [hnil] at hlen; cases hlen
  induction hstream generalizing t with
  | @single depth depth' i rest hs hi _ ih =>
      cases hrun with
      | @cons _ t₁ _ _ _ hok₁ hstep hrun =>
          have hfinish : i ≠ .finish := by
            rintro rfl
            cases hi
          have hlen₁ := hstep.depth hi hs hlen
          have hflow := hstep.flowing h hok hok₁ hne hfinish (.single hs)
          exact ih hflow hok₁ hlen₁ hrun fun hnil => by rw [hnil] at hlen₁; cases hlen₁
  | @table depth len ls l rest hls _ ih =>
      cases hrun with
      | @cons _ t₁ _ _ _ hok₁ hstep hrun =>
          have hblocks : t₁.blocks = t.blocks := by
            cases hstep with
            | silent hr _ _ => cases hr
            | plain he _ _ _ => cases he
            | brTableStart => rfl
          have hflow := hstep.flowing h hok hok₁ hne nofun .start
          obtain ⟨s, hs, hoks, hlens, hrest⟩ :=
            hflow.labels_run (by omega) hok₁ (hblocks ▸ hne) hrun
          rw [hblocks, hlen] at hlens
          exact ih hs hoks hlens hrest fun hnil => by rw [hnil] at hlens; cases hlens
  | last =>
      cases hrun with
      | cons hok₁ hstep hrun =>
          cases hrun
          exact ⟨t, h, hok, hlen, hstep⟩

end Run

end Asm

end SpaceWasm
