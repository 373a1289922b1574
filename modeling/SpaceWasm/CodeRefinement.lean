import SpaceWasm.CompilerRefinement

/-!
# Compiling a function body

`readCode` with the compiler simulates `readCode` with the assembler: both make
the same calls, each call of the compiler simulates the one of the assembler, and
so a body that compiles is a body that assembles. What the compiler has written
represents the listing.
-/

namespace SpaceWasm

open Fallible TextBuilder

variable {job : Job} {F D : ℕ} {α β : Type}

/-- The assembler as a visitor. It has one error. -/
def Asm.visitor (ctx : Context) : WasmVisitor Asm :=
  fun i => mapError (fun _ => .typeMismatch) (Asm.visit ctx i)

theorem Asm.visitor_eq_ok {ctx : Context} {i : WasmInstr} {t t' : Asm} :
    Asm.visitor ctx i t = .ok () t' ↔ Asm.visit ctx i t = .ok () t' := mapError_eq_ok

/-- What the representation says of the assembler alone. -/
structure Asm.Ok (t : Asm) : Prop where
  blocks : BlocksOk t.blocks t.opds.length
  ids : IdsOk t.toListing [] t.nextId (t.blocks.map Block.tag)
  encodable : ∀ e ∈ t.entries, e.instr.Encodable

theorem Rep.ok {n : ℕ} {s : TextBuilder F D} {t : Asm} (h : Rep job n [] s t) : t.Ok :=
  ⟨h.check.blocks, h.code.ids, h.code.encodable⟩

/-- Where the decoder is: between two instructions, or inside a `br_table` with
`n` labels, `k` of which have been read. -/
inductive Mode where
  | code
  | table (n k : ℕ)

/-- The calls of the decoder in each mode. -/
inductive Mode.Next : Mode → WasmInstr → Mode → Prop where
  | single {depth : ℕ} {i : WasmInstr} : i.Single depth → Next code i code
  | start {len : U32} : Next code (.brTableStart len) (table len.toNat 0)
  | branch {n k : ℕ} {l : Idx} : Next (table n k) (.brTableBranch l) (table n (k + 1))
  | finish {n : ℕ} {l : Idx} : Next (table n n) (.brTableFinish l) code

/-- An invariant of the assembler that every step keeps. -/
def Job.Invariant (job : Job) (I : Mode → Asm → Prop) : Prop :=
  ∀ t i t' m m', t.Ok → t'.Ok → I m t → m.Next i m' → Asm.Step job.context t i t' → I m' t'

/-- The compiler state represents the assembler state, which satisfies `I`. -/
def RepWith (job : Job) (I : Mode → Asm → Prop) (n : ℕ) (s : TextBuilder F D) (t : Asm) : Prop :=
  Rep job n [] s t ∧ I .code t

/-- Simulation between decoding into the builder and decoding into the assembler. -/
abbrev Job.DecodeSim (job : Job) (R : Decoding (TextBuilder F D) → Decoding Asm → Prop)
    (x : DecodeM (TextBuilder F D) α) (y : DecodeM Asm β)
    (S : α → β → Decoding (TextBuilder F D) → Decoding Asm → Prop) : Prop :=
  Simulates ValidationError.IsLimit (fun d => job.Intact d.visitor.code)
    (job.module.Linked job.store) R x y S

/-- The same stream, at most `k` bytes of it left, and related visitors. -/
structure Paired (T : TextBuilder F D → Asm → Prop) (k : ℕ) (d : Decoding (TextBuilder F D))
    (d' : Decoding Asm) : Prop where
  wasm : d'.wasm = d.wasm
  length_le : d.wasm.input.length ≤ k
  visitor : T d.visitor d'.visitor

theorem reading_returns_sim {T : TextBuilder F D → Asm → Prop} {k : ℕ} {x : ReaderM α}
    (hx : Reads x) {P : α → Prop} (hP : Returns P x) (hT : ∀ s t, T s t → job.Intact s.code) :
    job.DecodeSim (Paired T k) (reading x) (reading x) fun a b d d' => b = a ∧ P a ∧
      Paired T k d d' := by
  rintro ⟨r, s⟩ ⟨r', t⟩ ⟨hwasm, hlen, hst⟩
  simp only at hwasm hlen hst
  subst hwasm
  have hread := hx.apply r'
  unfold reading zoom
  cases hr : x r' <;> rw [hr] at hread
  · exact ⟨_, _, rfl, rfl, hP _ _ _ hr, rfl, Nat.le_trans hread.length_le hlen, hst⟩
  · exact ⟨hT s t hst, Or.inr ⟨_, _, rfl⟩⟩
  · exact hread.elim
  · exact hread.elim

theorem reading_sim {T : TextBuilder F D → Asm → Prop} {k : ℕ} {x : ReaderM α} (hx : Reads x)
    (hT : ∀ s t, T s t → job.Intact s.code) :
    job.DecodeSim (Paired T k) (reading x) (reading x) fun a b d d' => b = a ∧
      Paired T k d d' := by
  have htrue : Returns (fun _ => True) x := fun _ _ _ _ => trivial
  exact (reading_returns_sim hx htrue hT).weaken (fun _ _ h => h) fun _ _ _ _ h => ⟨h.1, h.2.2⟩

/-- The opcode byte that every round reads. -/
theorem reading_readU8_sim {T : TextBuilder F D → Asm → Prop} {k : ℕ}
    (hT : ∀ s t, T s t → job.Intact s.code) :
    job.DecodeSim (Paired T (k + 1)) (reading readU8) (reading readU8) fun a b d d' => b = a ∧
      Paired T k d d' := by
  rintro ⟨r, s⟩ ⟨r', t⟩ ⟨hwasm, hlen, hst⟩
  simp only at hwasm hlen hst
  subst hwasm
  have hread := readU8_advances r'
  unfold reading zoom
  cases hr : readU8 r' <;> rw [hr] at hread
  · refine ⟨_, _, rfl, rfl, rfl, ?_, hst⟩
    have := hread.2
    simp only
    omega
  · exact ⟨hT s t hst, Or.inr ⟨_, _, rfl⟩⟩
  · exact hread.elim
  · exact hread.elim

theorem visiting_sim {T : TextBuilder F D → Asm → Prop} {k : ℕ} {x : TextM F D Unit}
    {y : AsmM Unit} {T' : TextBuilder F D → Asm → Prop} (h : job.Sim T x y fun _ _ => T')
    (e : ValidationError) :
    job.DecodeSim (Paired T k) (visiting x) (visiting (mapError (fun _ => e) y)) fun _ _ =>
      Paired T' k := by
  rintro ⟨r, s⟩ ⟨r', t⟩ ⟨hwasm, hlen, hst⟩
  have hx := h s t hst
  unfold visiting zoom mapError
  simp only
  cases hs : x s <;> rw [hs] at hx
  · obtain ⟨_, t', ht, hT'⟩ := hx
    rw [ht]
    exact ⟨(), _, rfl, hwasm, hlen, hT'⟩
  · obtain ⟨hK, hl | ⟨e', t', ht⟩⟩ := hx
    · exact ⟨hK, Or.inl hl⟩
    · rw [ht]
      exact ⟨hK, Or.inr ⟨_, _, rfl⟩⟩
  · exact hx
  · exact hx

section Invariant

variable {I : Mode → Asm → Prop}

/-- The call of a visitor keeps an invariant of the assembler. -/
theorem visit_keeps {i : WasmInstr} {R R' : TextBuilder F D → Asm → Prop} {m m' : Mode}
    (hI : job.Invariant I) (hm : m.Next i m')
    (h : job.Sim R (Compiler.visit i) (Asm.visit job.context i) fun _ _ => R')
    (hR : ∀ s t, R s t → t.Ok) (hR' : ∀ s t, R' s t → t.Ok) :
    job.Sim (fun s t => R s t ∧ I m t) (Compiler.visit i) (Asm.visit job.context i)
      fun _ _ s t => R' s t ∧ I m' t :=
  h.strengthen fun s t _ s' _ t' hst hIt ht hst' =>
    hI t i t' m m' (hR s t hst) (hR' s' t' hst') hIt hm (Asm.visit_step ht)

/-- Inside a `br_table` with `n` labels, after `k` of them. -/
def RepTable (job : Job) (I : Mode → Asm → Prop) (m n k : ℕ) (s : TextBuilder F D) (t : Asm) :
    Prop :=
  (Rep job m [] s t ∧ t.InTable) ∧ I (.table n k) t

/-- The labels of a `br_table`. -/
theorem branches_sim (hI : job.Invariant I) {m n k b : ℕ} (j : ℕ) :
    job.DecodeSim (Paired (RepTable job I (m + 1) n k : TextBuilder F D → Asm → Prop) b)
      (iterate j do
        let br ← reading Idx.read
        visiting (Compiler.visit (.brTableBranch br)))
      (iterate j do
        let br ← reading Idx.read
        visiting (Asm.visitor job.context (.brTableBranch br)))
      fun _ _ => Paired (RepTable job I (m + 1) n (k + j)) b := by
  induction j generalizing k with
  | zero => exact Simulates.pure fun s t h => h
  | succ j ih =>
      have hrest := ih (k := k + 1)
      rw [Nat.add_assoc, Nat.add_comm 1 j] at hrest
      refine Simulates.bind ?_ fun _ _ => hrest
      refine Simulates.bind (reading_sim decoder_idx.reads fun s t h => h.1.1.intact)
        fun br br' => ?_
      rintro s t ⟨rfl, h⟩
      have hvisit := visit_keeps (F := F) (D := D) (i := .brTableBranch br') hI
        (.branch (n := n) (k := k))
        (brTableBranch_sim (m := m) br') (fun s t h => h.1.ok) fun s t h => h.1.ok
      exact visiting_sim hvisit _ s t h

theorem readBrTable_sim (hI : job.Invariant I) {m b : ℕ} :
    job.DecodeSim (Paired (RepWith job I (m + 1) : TextBuilder F D → Asm → Prop) b)
      (readBrTable Compiler.visit) (readBrTable (Asm.visitor job.context)) fun _ _ =>
        Paired (RepWith job I (m + 1)) b := by
  refine Simulates.bind (reading_sim decoder_readU32.reads fun s t h => h.1.intact)
    fun len len' => ?_
  rintro s t ⟨rfl, h⟩
  have hstart := visit_keeps (F := F) (D := D) (i := .brTableStart len') hI .start
    (brTableStart_sim (m := m) len') (fun s t h => h.ok) fun s t h => h.1.ok
  refine Simulates.bind (visiting_sim hstart _) (fun _ _ => ?_) s t h
  have hbranches := branches_sim (F := F) (D := D) (m := m) (n := len'.toNat) (k := 0) (b := b) hI
    len'.toNat
  rw [Nat.zero_add] at hbranches
  refine Simulates.bind hbranches fun _ _ => ?_
  refine Simulates.bind (reading_sim decoder_idx.reads fun s t h => h.1.1.intact) fun l l' => ?_
  rintro s t ⟨rfl, h⟩
  have hfinish := visit_keeps (F := F) (D := D) (i := .brTableFinish l') hI
    (.finish (n := len'.toNat))
    (brTableFinish_sim (m := m) l') (fun s t h => h.1.ok) fun s t h => h.ok
  exact visiting_sim hfinish _ s t h

/-- The representation with an invariant, after an instruction. -/
def RepNext (job : Job) (I : Mode → Asm → Prop) (next : Option ℕ) (s : TextBuilder F D)
    (t : Asm) : Prop :=
  RepAfter job next s t ∧ I .code t

theorem RepAfter.ok {next : Option ℕ} {s : TextBuilder F D} {t : Asm}
    (h : RepAfter job next s t) : t.Ok := by
  cases next with
  | none => exact Rep.ok h
  | some d => exact Rep.ok h

theorem readCodeStep_sim (hI : job.Invariant I) (hD : D < 2 ^ 16) {k depth : ℕ} :
    job.DecodeSim (Paired (RepWith job I (depth + 1) : TextBuilder F D → Asm → Prop) (k + 1))
      (readCodeStep Compiler.visit depth) (readCodeStep (Asm.visitor job.context) depth)
      fun a b d d' => b = a ∧ Paired (RepNext job I a) k d d' := by
  refine Simulates.bind (reading_readU8_sim fun s t h => h.1.intact) fun op op' => ?_
  rintro s t ⟨rfl, h⟩
  by_cases hop : op' = Opcode.brTable
  · rw [if_pos hop, if_pos hop]
    exact Simulates.bind (readBrTable_sim hI) (fun _ _ => Simulates.pure fun s t h => ⟨rfl, h⟩)
      s t h
  · rw [if_neg hop, if_neg hop]
    refine Simulates.bind (reading_returns_sim (decoder_readInstr depth op').reads
      (readInstr_single depth op') fun s t h => h.1.intact) (fun i i' => ?_) s t h
    rintro s t ⟨rfl, hsingle, h⟩
    have hvisit := visit_keeps (F := F) (D := D) hI (.single hsingle) (visit_sim hD hsingle)
      (fun s t h => h.ok) fun s t h => h.ok
    exact Simulates.bind (visiting_sim hvisit _)
      (fun _ _ => Simulates.pure fun s t h => ⟨rfl, h⟩) s t h

theorem readCodeLoop_sim (hI : job.Invariant I) (hD : D < 2 ^ 16) (fuel depth : ℕ) :
    job.DecodeSim (Paired (RepWith job I (depth + 1) : TextBuilder F D → Asm → Prop) fuel)
      (readCodeLoop Compiler.visit (fuel + 1) depth)
      (readCodeLoop (Asm.visitor job.context) (fuel + 1) depth)
      fun _ _ d d' => d'.wasm = d.wasm ∧ RepWith job I 0 d.visitor d'.visitor := by
  induction fuel generalizing depth with
  | zero =>
      -- No byte is left, so the round fails.
      rintro ⟨r, s⟩ ⟨r', t⟩ ⟨hwasm, hlen, hst⟩
      simp only at hwasm hlen hst
      subst hwasm
      have hread := readU8_advances r'
      unfold readCodeLoop readCodeStep
      rw [bind_assoc, bind_assoc, bind_apply, bind_apply]
      unfold reading zoom
      simp only
      cases hr : readU8 r' <;> rw [hr] at hread
      · have := hread.2
        omega
      · exact ⟨hst.1.intact, Or.inr ⟨_, _, rfl⟩⟩
      · exact hread.elim
      · exact hread.elim
  | succ fuel ih =>
      refine Simulates.bind (readCodeStep_sim hI hD) fun next next' => ?_
      rintro s t ⟨rfl, h⟩
      cases next' with
      | none => exact ⟨(), t, rfl, h.wasm, h.visitor⟩
      | some depth' => exact ih depth' s t h

/-- A body that compiles is a body that assembles. -/
theorem readCode_sim (hI : job.Invariant I) (hD : D < 2 ^ 16) :
    job.DecodeSim (fun d d' => d'.wasm = d.wasm ∧
        (RepWith job I 1 : TextBuilder F D → Asm → Prop) d.visitor d'.visitor)
      (readCode Compiler.visit) (readCode (Asm.visitor job.context))
      fun _ _ d d' => d'.wasm = d.wasm ∧ RepWith job I 0 d.visitor d'.visitor := by
  rintro ⟨r, s⟩ ⟨r', t⟩ ⟨hwasm, hst⟩
  simp only at hwasm hst
  subst hwasm
  exact readCodeLoop_sim hI hD r'.input.length 0 ⟨r', s⟩ ⟨r', t⟩ ⟨rfl, Nat.le_refl _, hst⟩

end Invariant

/-! ### The start of a function -/

/-- The assembler at the start of the function body. -/
def Job.start (job : Job) : Asm := Asm.start job.context job.code.size

/-- The builder of the function body. -/
def Job.builder (job : Job) (F D : ℕ) : TextBuilder F D :=
  TextBuilder.new job.code job.store job.module job.func

/-- With room for one control frame, the frame of the function is pushed. -/
theorem builder_eq (hF : 0 < F) :
    ∃ v : StaticVec ControlFrame F,
      v.toList = [newFrame .block job.func.returnTy job.func.returnTy 0] ∧
      job.builder F D = ⟨job.code, job.store, job.module, job.func, v, .empty, 0, none⟩ := by
  obtain ⟨v, hv⟩ : ∃ v : StaticVec ControlFrame F,
      (StaticVec.empty : StaticVec ControlFrame F).push
        (newFrame .block job.func.returnTy job.func.returnTy 0) = some v := by
    unfold StaticVec.push
    exact ⟨_, dif_pos hF⟩
  refine ⟨v, StaticVec.push_eq_some.1 hv, ?_⟩
  unfold Job.builder TextBuilder.new pushControl
  simp only [get_apply, bind_apply]
  rw [newFrame] at hv
  rw [show (StaticVec.empty : StaticVec OperandType D).len % 2 ^ 16 = 0 from rfl, hv]
  rfl

theorem builder_rep (hF : 0 < F) : Rep job 1 [] (job.builder F D) job.start := by
  obtain ⟨v, hv, hnew⟩ := builder_eq (D := D) hF
  have hno : ∀ (i : ℕ) (x : Cell), (image job.start.entries ++ [])[i]? ≠ some x := by
    intro i x h
    cases h
  rw [hnew]
  refine ⟨⟨rfl, rfl, rfl, rfl, rfl, rfl, ?_, ?_⟩, ⟨?_, ?_, ?_, ?_⟩, rfl⟩
  · simp only [hv]
    exact .cons ⟨rfl, rfl, rfl, rfl, rfl⟩ .nil
  · exact ⟨Nat.le_refl 0, fun _ => rfl, trivial⟩
  · exact ⟨rfl, rfl, rfl, fun _ _ => rfl, fun i w h => (hno i _ h).elim,
      fun i l h => (hno i _ h).elim, fun i l target h => (hno i _ h).elim⟩
  · refine ⟨?_, ?_, fun _ _ => rfl, fun _ _ _ => rfl, fun _ _ => ⟨rfl, rfl⟩,
      fun i l h => (hno i _ h).elim⟩
    · intro o ho
      rw [List.mem_singleton.1 ho]
      exact Nat.zero_lt_one
    · exact List.pairwise_singleton _ 0
  · simp only [hv]
    refine .cons ⟨?_, fun _ => ⟨[], rfl, fun s => ?_, ?_⟩⟩ .nil
    · intro h
      cases h
    · constructor
      · intro h
        cases h
      · rintro ⟨i, -, h, -⟩
        exact (hno i _ h).elim
    · intro h
      cases h
  · intro e he
    cases he

/-- What a successful compilation has written: the stream assembles to a listing
that the code represents and that satisfies every invariant of the assembler. -/
theorem readCode_compiles {I : Mode → Asm → Prop} (hI : job.Invariant I)
    (hstart : I .code job.start)
    (hF : 0 < F) (hD : D < 2 ^ 16) {r : Reader} {d : Decoding (TextBuilder F D)}
    (h : readCode Compiler.visit ⟨r, job.builder F D⟩ = .ok () d) :
    ∃ t, readCode (Asm.visitor job.context) ⟨r, job.start⟩ = .ok () ⟨d.wasm, t⟩ ∧
      Rep job 0 [] d.visitor t ∧ I .code t := by
  obtain ⟨_, ⟨r', t⟩, ht, hwasm, hrep⟩ :=
    (readCode_sim hI hD).ok (t := ⟨r, job.start⟩) ⟨rfl, builder_rep hF, hstart⟩ h
  simp only at hwasm hrep
  subst hwasm
  exact ⟨t, ht, hrep⟩

end SpaceWasm
