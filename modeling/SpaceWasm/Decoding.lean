import SpaceWasm.Code

/-!
# What the decoder does with the stream

A decoding step only consumes bytes: it neither panics nor loops, and what it
leaves is a tail of the stream. So the bound on the rounds of `readCode` is never
reached.

What `readCode` decodes does not depend on its visitor. It is the stream of calls
that a visitor would record, and a visitor accepts an expression exactly when it
accepts these calls one after the other.
-/

namespace SpaceWasm

open Fallible

/-! ### Consuming bytes -/

/-- `r'` is `r` after some bytes of the stream have been consumed, none of them
past the limit. -/
structure Reader.Advances (r r' : Reader) : Prop where
  ending : r'.stream.ending = r.stream.ending
  limit : r'.limit = r.limit
  offset : r'.offset + r'.input.length = r.offset + r.input.length
  suffix : r'.input <:+ r.input
  within : r'.offset ≤ max r.offset r.limit

namespace Reader.Advances

theorem of_view {r r' : Reader} (h : r'.view = r.view) : r.Advances r' := by
  rw [view, view, View.mk.injEq] at h
  obtain ⟨hinput, hending, hoffset, hlimit⟩ := h
  refine ⟨hending, hlimit, ?_, ?_, ?_⟩
  · rw [hinput, hoffset]
  · exact hinput ▸ List.suffix_rfl
  · rw [hoffset]
    exact Nat.le_max_left _ _

theorem refl (r : Reader) : r.Advances r := of_view rfl

theorem trans {r s t : Reader} (h : r.Advances s) (h' : s.Advances t) : r.Advances t := by
  refine ⟨h'.ending.trans h.ending, h'.limit.trans h.limit, h'.offset.trans h.offset,
    h'.suffix.trans h.suffix, ?_⟩
  have hs := h.within
  have ht := h'.within
  rw [h.limit] at ht
  omega

theorem length_le {r s : Reader} (h : r.Advances s) : s.input.length ≤ r.input.length :=
  h.suffix.length_le

end Reader.Advances

variable {α β : Type}

/-- A decoding step that only consumes bytes. -/
def Reads (x : ReaderM α) : Prop := ∀ r : Reader, Keeps r.Advances x

/-- The outcome of a decoding step from a reader. -/
theorem Reads.apply {x : ReaderM α} (hx : Reads x) (r : Reader) :
    match x r with
    | .ok _ r' => r.Advances r'
    | .error _ r' => r.Advances r'
    | .panic => False
    | .diverge => False := by
  have h := hx r r (Reader.Advances.refl r)
  cases hr : x r <;> rw [hr] at h
  · exact h
  · exact h
  · exact h trivial
  · exact h

/-- Reading a byte consumes one. -/
theorem readU8_advances (r : Reader) :
    match readU8 r with
    | .ok _ r' => r.Advances r' ∧ r'.input.length + 1 = r.input.length
    | .error _ r' => r'.view = r.view
    | .panic => False
    | .diverge => False := by
  rcases readU8_apply r with ⟨-, hr⟩ | ⟨-, -, r', hr, hview⟩ | ⟨hlt, b, bs, r', hinput, hr, hview⟩
  · rw [hr]
  · rw [hr]
    exact hview
  · rw [hr]
    rw [Reader.view, Reader.view, Reader.View.mk.injEq] at hview
    obtain ⟨hinput', hending, hoffset, hlimit⟩ := hview
    refine ⟨⟨hending, hlimit, ?_, ?_, ?_⟩, ?_⟩
    · rw [hinput', hoffset, hinput, List.length_cons]
      omega
    · rw [hinput', hinput]
      exact List.suffix_cons b bs
    · rw [hoffset]
      omega
    · rw [hinput', hinput, List.length_cons]

theorem reads_readU8 : Reads readU8 := by
  intro r s hs
  have h := readU8_advances s
  cases hread : readU8 s <;> rw [hread] at h
  · exact hs.trans h.1
  · exact hs.trans (.of_view h)
  · exact h.elim
  · exact h

theorem reads_peekU8 : Reads peekU8 := by
  intro r s hs
  rcases peekU8_apply s with ⟨-, s', hpeek, hview⟩ | ⟨b, bs, s', -, hpeek, hview, -⟩
  · rw [hpeek]
    exact hs.trans (.of_view hview)
  · rw [hpeek]
    exact hs.trans (.of_view hview)

theorem reads_expectU8 (expected : U8) : Reads (expectU8 expected) := by
  intro r
  refine Preserves.bind (reads_peekU8 r) fun _ => Preserves.ite (fun _ => ?_) fun _ =>
    Preserves.throw _
  exact Preserves.bind (reads_readU8 r) fun _ => Preserves.pure _

/-! ### Decoders -/

/-- The computations the decoders of the format are made of. What holds of these
steps and of sequences of them holds of every decoder. -/
inductive Decoder : {α : Type} → ReaderM α → Prop where
  | pure {α : Type} (a : α) : Decoder (Pure.pure a)
  | throw {α : Type} (e : ValidationError) : Decoder (Fallible.throw e : ReaderM α)
  | readU8 : Decoder SpaceWasm.readU8
  | expectU8 (expected : U8) : Decoder (SpaceWasm.expectU8 expected)
  | remaining : Decoder (gets Reader.bytesRemaining)
  | bind {α β : Type} {x : ReaderM α} {f : α → ReaderM β} : Decoder x → (∀ a, Decoder (f a)) →
      Decoder (x >>= f)

namespace Decoder

theorem reads {x : ReaderM α} (h : Decoder x) : Reads x := by
  induction h with
  | pure a => exact fun _ => Preserves.pure a
  | throw e => exact fun _ => Preserves.throw e
  | readU8 => exact reads_readU8
  | expectU8 expected => exact reads_expectU8 expected
  | remaining => exact fun _ => Preserves.gets _
  | bind _ _ ihx ihf => exact fun r => Preserves.bind (ihx r) fun a => ihf a r

theorem map {x : ReaderM α} (hx : Decoder x) (f : α → β) : Decoder (f <$> x) := by
  rw [map_eq_pure_bind]
  exact bind hx fun a => pure _

theorem ite {p : Prop} [Decidable p] {x y : ReaderM α} (hx : Decoder x) (hy : Decoder y) :
    Decoder (if p then x else y) := by
  split
  · exact hx
  · exact hy

theorem ofExcept (x : Except ValidationError α) : Decoder (Fallible.ofExcept x) := by
  cases x with
  | ok a => exact pure a
  | error e => exact throw e

theorem collect {x : ReaderM α} (hx : Decoder x) (n : ℕ) : Decoder (Fallible.collect n x) := by
  induction n with
  | zero => exact pure []
  | succ n ih => exact bind hx fun a => bind ih fun as => pure (a :: as)

theorem iterate {x : ReaderM Unit} (hx : Decoder x) (n : ℕ) : Decoder (Fallible.iterate n x) := by
  induction n with
  | zero => exact pure ()
  | succ n ih => exact bind hx fun _ => ih

end Decoder

theorem decoder_stripBytes (n : ℕ) : Decoder (stripBytes n) := Decoder.readU8.collect n

theorem decoder_skip (n : ℕ) : Decoder (skip n) := (Decoder.readU8.bind fun _ => .pure _).iterate n

theorem decoder_readU32 : Decoder readU32 := by
  refine Decoder.readU8.bind fun b0 => .ite (.pure _) ?_
  refine Decoder.readU8.bind fun b1 => .ite (.pure _) ?_
  refine Decoder.readU8.bind fun b2 => .ite (.pure _) ?_
  refine Decoder.readU8.bind fun b3 => .ite (.pure _) ?_
  exact Decoder.readU8.bind fun b4 => .ite (.pure _) (.throw _)

theorem decoder_readLebByte (acc shift : ℕ) : Decoder (readLebByte acc shift) :=
  Decoder.readU8.bind fun _ => .pure _

theorem decoder_readLebLast (acc shift : ℕ) (mask : U8) : Decoder (readLebLast acc shift mask) :=
  Decoder.readU8.bind fun _ => .ite (.throw _) (.ite (.pure _) (.throw _))

theorem decoder_readI32 : Decoder readI32 := by
  refine (decoder_readLebByte _ _).bind fun p0 => .ite (.pure _) ?_
  refine (decoder_readLebByte _ _).bind fun p1 => .ite (.pure _) ?_
  refine (decoder_readLebByte _ _).bind fun p2 => .ite (.pure _) ?_
  refine (decoder_readLebByte _ _).bind fun p3 => .ite (.pure _) ?_
  exact (decoder_readLebLast _ _ _).bind fun _ => .pure _

theorem decoder_readI64 : Decoder readI64 := by
  refine (decoder_readLebByte _ _).bind fun p0 => .ite (.pure _) ?_
  refine (decoder_readLebByte _ _).bind fun p1 => .ite (.pure _) ?_
  refine (decoder_readLebByte _ _).bind fun p2 => .ite (.pure _) ?_
  refine (decoder_readLebByte _ _).bind fun p3 => .ite (.pure _) ?_
  refine (decoder_readLebByte _ _).bind fun p4 => .ite (.pure _) ?_
  refine (decoder_readLebByte _ _).bind fun p5 => .ite (.pure _) ?_
  refine (decoder_readLebByte _ _).bind fun p6 => .ite (.pure _) ?_
  refine (decoder_readLebByte _ _).bind fun p7 => .ite (.pure _) ?_
  refine (decoder_readLebByte _ _).bind fun p8 => .ite (.pure _) ?_
  exact (decoder_readLebLast _ _ _).bind fun _ => .pure _

theorem decoder_readF32Bits : Decoder readF32Bits := (decoder_stripBytes 4).bind fun _ => .pure _

theorem decoder_readF64Bits : Decoder readF64Bits := (decoder_stripBytes 8).bind fun _ => .pure _

theorem decoder_readVecStack {x : ReaderM α} (hx : Decoder x) (size : ℕ) :
    Decoder (readVecStack size x) := by
  refine decoder_readU32.bind fun len => Decoder.remaining.bind fun remaining => ?_
  exact .ite (.throw _) (hx.collect _)

theorem decoder_idx : Decoder Idx.read := decoder_readU32.bind fun _ => .pure _

theorem decoder_valType : Decoder ValType.read := Decoder.readU8.bind fun _ => .ofExcept _

theorem decoder_resultType : Decoder ResultType.read :=
  Decoder.readU8.bind fun _ => .ite (.pure _) ((Decoder.ofExcept _).bind fun _ => .pure _)

theorem decoder_limit : Decoder Limit.read := by
  refine Decoder.readU8.bind fun flag => .ite (decoder_readU32.bind fun _ => .pure _) ?_
  refine .ite (decoder_readU32.bind fun min => decoder_readU32.bind fun max => ?_) (.throw _)
  exact .ite (.throw _) (.pure _)

theorem decoder_tableType : Decoder TableType.read := by
  refine Decoder.readU8.bind fun elem => .ite (.throw _) ?_
  exact decoder_limit.bind fun limits => .ite (.throw _) (.ite (.throw _) (.pure _))

theorem decoder_memType : Decoder MemType.read := by
  unfold MemType.read
  refine Decoder.readU8.bind fun flag => decoder_readU32.bind fun min => ?_
  -- the branches are nested, but each of them ends in a few more steps of the same kinds
  repeat' first
    | exact .throw _
    | exact .pure _
    | refine Decoder.ite ?_ ?_
    | refine decoder_readU32.bind fun _ => ?_

theorem decoder_globalType : Decoder GlobalType.read := by
  refine decoder_valType.bind fun ty => Decoder.readU8.bind fun c => ?_
  exact .ite (.pure _) (.ite (.pure _) (.throw _))

theorem decoder_memArg : Decoder MemArg.read :=
  decoder_readU32.bind fun _ => decoder_readU32.bind fun _ => .pure _

theorem decoder_readInstr (depth : ℕ) (op : U8) : Decoder (readInstr depth op) := by
  unfold readInstr
  refine .ite (.pure _) (.ite (.pure _) ?_)
  refine .ite (decoder_resultType.map _) (.ite (decoder_resultType.map _) ?_)
  refine .ite (decoder_resultType.map _) (.ite (.pure _) (.ite (.pure _) ?_))
  refine .ite (decoder_idx.map _) (.ite (decoder_idx.map _) (.ite (.pure _) ?_))
  refine .ite (decoder_idx.map _) ?_
  refine .ite (decoder_idx.bind fun _ => (Decoder.expectU8 _).bind fun _ => .pure _) ?_
  refine .ite (.pure _) (.ite (.pure _) ?_)
  refine .ite (decoder_idx.map _) (.ite (decoder_idx.map _) (.ite (decoder_idx.map _) ?_))
  refine .ite (decoder_idx.map _) (.ite (decoder_idx.map _) ?_)
  refine .ite ((Decoder.expectU8 _).bind fun _ => .pure _) ?_
  refine .ite ((Decoder.expectU8 _).bind fun _ => .pure _) ?_
  refine .ite (decoder_readI32.map _) (.ite (decoder_readI64.map _) ?_)
  refine .ite (decoder_readF32Bits.map _) (.ite (decoder_readF64Bits.map _) ?_)
  refine .ite (decoder_readU32.bind fun ext => ?_) ?_
  · cases SatOp.all.find? fun i => i.sub.toNat = ext.toNat with
    | none => exact .throw _
    | some i => exact .pure _
  · cases LoadOp.ofOpcode op with
    | some i => exact decoder_memArg.map _
    | none =>
      cases StoreOp.ofOpcode op with
      | some i => exact decoder_memArg.map _
      | none =>
        cases NumOp.ofOpcode op with
        | some i => exact .pure _
        | none =>
          cases ReinterpretOp.ofOpcode op with
          | some i => exact .pure _
          | none => exact .throw _

/-! ### Rounds of the loop -/

variable {σ : Type}

theorem reading_apply {x : ReaderM α} (hx : Decoder x) (d : Decoding σ) :
    match reading x d with
    | .ok _ d' => d.wasm.Advances d'.wasm ∧ d'.visitor = d.visitor
    | .error _ d' => d.wasm.Advances d'.wasm ∧ d'.visitor = d.visitor
    | .panic => False
    | .diverge => False := by
  have h := hx.reads.apply d.wasm
  unfold reading zoom
  cases hr : x d.wasm <;> rw [hr] at h
  · exact ⟨h, rfl⟩
  · exact ⟨h, rfl⟩
  · exact h
  · exact h

/-- A step only consumes bytes of the stream, whatever else it does. -/
def ReadsOn (x : DecodeM σ α) : Prop := ∀ d,
  match x d with
  | .ok _ d' => d.wasm.Advances d'.wasm
  | .error _ d' => d.wasm.Advances d'.wasm
  | .panic => True
  | .diverge => True

namespace ReadsOn

theorem ok {x : DecodeM σ α} (hx : ReadsOn x) {d d' : Decoding σ} {a : α} (h : x d = .ok a d') :
    d.wasm.Advances d'.wasm := by
  have := hx d
  rwa [h] at this

theorem error {x : DecodeM σ α} (hx : ReadsOn x) {d d' : Decoding σ} {e : ValidationError}
    (h : x d = .error e d') : d.wasm.Advances d'.wasm := by
  have := hx d
  rwa [h] at this

theorem pure (a : α) : ReadsOn (Pure.pure a : DecodeM σ α) := fun _ => .refl _

theorem bind {x : DecodeM σ α} {f : α → DecodeM σ β} (hx : ReadsOn x) (hf : ∀ a, ReadsOn (f a)) :
    ReadsOn (x >>= f) := by
  intro d
  rw [bind_apply]
  cases h : x d with
  | ok a d₁ =>
      have hxa := hx.ok h
      have hfa := hf a d₁
      simp only
      cases h' : f a d₁ <;> rw [h'] at hfa
      · exact hxa.trans hfa
      · exact hxa.trans hfa
      · trivial
      · trivial
  | error e d₁ => exact hx.error h
  | panic => trivial
  | diverge => trivial

theorem reading {x : ReaderM α} (hx : Decoder x) : ReadsOn (reading x : DecodeM σ α) := by
  intro d
  have hr := reading_apply hx d
  cases h : SpaceWasm.reading x d <;> rw [h] at hr
  · exact hr.1
  · exact hr.1
  · trivial
  · trivial

theorem visiting (x : Fallible ValidationError σ α) : ReadsOn (visiting x) := by
  intro d
  unfold SpaceWasm.visiting zoom
  cases x d.visitor
  · exact .refl _
  · exact .refl _
  · trivial
  · trivial

theorem iterate {x : DecodeM σ Unit} (hx : ReadsOn x) (n : ℕ) : ReadsOn (iterate n x) := by
  induction n with
  | zero => exact pure ()
  | succ n ih => exact bind hx fun _ => ih

end ReadsOn

theorem readsOn_readBrTable (v : WasmVisitor σ) : ReadsOn (readBrTable v) := by
  refine (ReadsOn.reading decoder_readU32).bind fun len => (ReadsOn.visiting _).bind fun _ => ?_
  refine ReadsOn.bind (.iterate ?_ _) fun _ => ?_
  · exact (ReadsOn.reading decoder_idx).bind fun _ => .visiting _
  · exact (ReadsOn.reading decoder_idx).bind fun _ => .visiting _

/-- A round of the loop after its opcode. -/
theorem readsOn_afterOpcode (v : WasmVisitor σ) (depth : ℕ) (op : U8) :
    ReadsOn (if op = Opcode.brTable then do
        readBrTable v
        Pure.pure (some depth)
      else do
        let i ← reading (readInstr depth op)
        visiting (v i)
        Pure.pure (i.depthAfter depth) : DecodeM σ (Option ℕ)) := by
  split
  · exact (readsOn_readBrTable v).bind fun _ => .pure _
  · refine ReadsOn.bind (.reading (decoder_readInstr depth op)) fun i => ?_
    exact (ReadsOn.visiting _).bind fun _ => .pure _

theorem readsOn_readCodeStep (v : WasmVisitor σ) (depth : ℕ) : ReadsOn (readCodeStep v depth) :=
  (ReadsOn.reading .readU8).bind fun op => readsOn_afterOpcode v depth op

/-- Every round of the loop consumes a byte. -/
theorem readCodeStep_consumes {v : WasmVisitor σ} {depth : ℕ} {d d' : Decoding σ}
    {next : Option ℕ} (h : readCodeStep v depth d = .ok next d') :
    d'.wasm.input.length < d.wasm.input.length := by
  obtain ⟨op, d₁, hop, h⟩ := bind_eq_ok.1 h
  have hbyte := readU8_advances d.wasm
  obtain ⟨r, hr, rfl⟩ := zoom_eq_ok.1 hop
  rw [hr] at hbyte
  have hle := ((readsOn_afterOpcode v depth op).ok h).length_le
  have hlt := hbyte.2
  simp only at hle
  omega

theorem readsOn_readCodeLoop (v : WasmVisitor σ) (fuel depth : ℕ) :
    ReadsOn (readCodeLoop v fuel depth) := by
  induction fuel generalizing depth with
  | zero => exact fun _ => trivial
  | succ fuel ih =>
      refine (readsOn_readCodeStep v depth).bind fun next => ?_
      cases next with
      | none => exact .pure ()
      | some depth' => exact ih depth'

theorem readsOn_readCode (v : WasmVisitor σ) : ReadsOn (readCode v) :=
  fun d => readsOn_readCodeLoop v _ 0 d

/-- A computation that neither panics nor diverges. -/
def Ends {ε τ : Type} (x : Fallible ε τ α) : Prop := Keeps (fun _ => True) x

theorem ends_reading {x : ReaderM α} (hx : Decoder x) : Ends (reading x : DecodeM σ α) := by
  intro d _
  have hr := reading_apply hx d
  cases h : reading x d <;> rw [h] at hr
  · trivial
  · trivial
  · exact hr.elim
  · exact hr

theorem ends_visiting {x : Fallible ValidationError σ α} (hx : Ends x) : Ends (visiting x) :=
  Preserves.zoom (fun _ _ => trivial) hx fun _ _ _ _ => trivial

theorem ends_readCodeStep {v : WasmVisitor σ} (hv : ∀ i, Ends (v i)) (depth : ℕ) :
    Ends (readCodeStep v depth) := by
  refine Preserves.bind (ends_reading .readU8) fun op => Preserves.ite (fun _ => ?_) fun _ => ?_
  · refine Preserves.bind ?_ fun _ => Preserves.pure _
    refine Preserves.bind (ends_reading decoder_readU32) fun len => ?_
    refine Preserves.bind (ends_visiting (hv _)) fun _ =>
      Preserves.bind (Preserves.iterate ?_ _) fun _ => ?_
    · exact Preserves.bind (ends_reading decoder_idx) fun _ => ends_visiting (hv _)
    · exact Preserves.bind (ends_reading decoder_idx) fun _ => ends_visiting (hv _)
  · refine Preserves.bind (ends_reading (decoder_readInstr depth op)) fun i => ?_
    exact Preserves.bind (ends_visiting (hv _)) fun _ => Preserves.pure _

/-- Decoding an expression ends when its visitor does. -/
theorem readCodeLoop_ends {v : WasmVisitor σ} (hv : ∀ i, Ends (v i)) (fuel depth : ℕ)
    (d : Decoding σ) (hfuel : d.wasm.input.length < fuel) :
    readCodeLoop v fuel depth d ≠ .panic ∧ readCodeLoop v fuel depth d ≠ .diverge := by
  induction fuel generalizing depth d with
  | zero => exact absurd hfuel (Nat.not_lt_zero _)
  | succ fuel ih =>
      have hstep := ends_readCodeStep hv depth d trivial
      unfold readCodeLoop
      rw [bind_apply]
      cases h : readCodeStep v depth d <;> rw [h] at hstep
      · next next d' =>
        have hlt := readCodeStep_consumes h
        cases next with
        | none => exact ⟨nofun, nofun⟩
        | some depth' => exact ih depth' d' (by omega)
      · exact ⟨nofun, nofun⟩
      · exact (hstep trivial).elim
      · exact hstep.elim

theorem ends_readCode {v : WasmVisitor σ} (hv : ∀ i, Ends (v i)) : Ends (readCode v) := by
  intro d _
  have h := readCodeLoop_ends hv (d.wasm.input.length + 1) 0 d (Nat.lt_succ_self _)
  have hrun : readCode v d = readCodeLoop v (d.wasm.input.length + 1) 0 d := rfl
  rw [← hrun] at h
  cases hd : readCode v d
  · trivial
  · trivial
  · exact (h.1 hd).elim
  · exact h.2 hd

/-! ### The calls of the visitor -/

/-- The visitor that records its calls. -/
def record : WasmVisitor (List WasmInstr) := fun i => modify fun calls => calls ++ [i]

/-- The calls of a list, one after the other. -/
def visitAll (visitor : WasmVisitor σ) (calls : List WasmInstr) :
    Fallible ValidationError σ Unit :=
  forEach calls visitor

theorem visitAll_append {v : WasmVisitor σ} {is js : List WasmInstr} {s t : σ} :
    visitAll v (is ++ js) s = .ok () t ↔
      ∃ u, visitAll v is s = .ok () u ∧ visitAll v js u = .ok () t := by
  rw [visitAll, forEach_append, bind_eq_ok]
  constructor
  · rintro ⟨_, u, h, h'⟩
    exact ⟨u, h, h'⟩
  · rintro ⟨u, h, h'⟩
    exact ⟨(), u, h, h'⟩

theorem visitAll_singleton (v : WasmVisitor σ) (i : WasmInstr) : visitAll v [i] = v i := by
  rw [visitAll, forEach_cons]
  exact bind_pure (v i)

/-- `y` is the decoding step `x` with its calls recorded: `x` returns exactly when
`y` returns and the visitor accepts the recorded calls. -/
structure Factors (v : WasmVisitor σ) (x : DecodeM σ α) (y : DecodeM (List WasmInstr) α) :
    Prop where
  extends_ : ∀ r acc a d, y ⟨r, acc⟩ = .ok a d →
    ∃ is, d.visitor = acc ++ is ∧ ∀ acc', y ⟨r, acc'⟩ = .ok a ⟨d.wasm, acc' ++ is⟩
  ok_iff : ∀ r s a d, x ⟨r, s⟩ = .ok a d ↔
    ∃ is, y ⟨r, []⟩ = .ok a ⟨d.wasm, is⟩ ∧ visitAll v is s = .ok () d.visitor

namespace Factors

variable {v : WasmVisitor σ}

theorem pure (a : α) : Factors v (Pure.pure a) (Pure.pure a) := by
  refine ⟨fun r acc b d h => ?_, fun r s b d => ?_⟩
  · obtain ⟨rfl, rfl⟩ := pure_eq_ok.1 h
    exact ⟨[], (List.append_nil acc).symm, fun acc' => by rw [List.append_nil]; rfl⟩
  · constructor
    · intro h
      obtain ⟨rfl, rfl⟩ := pure_eq_ok.1 h
      exact ⟨[], rfl, rfl⟩
    · rintro ⟨is, h, hv⟩
      cases h
      cases hv
      rfl

theorem bind {x : DecodeM σ α} {y : DecodeM (List WasmInstr) α} {f : α → DecodeM σ β}
    {g : α → DecodeM (List WasmInstr) β} (hx : Factors v x y)
    (hf : ∀ a, Factors v (f a) (g a)) : Factors v (x >>= f) (y >>= g) := by
  refine ⟨fun r acc b d h => ?_, fun r s b d => ?_⟩
  · obtain ⟨a, d₁, hy, hg⟩ := bind_eq_ok.1 h
    obtain ⟨is, his, hacc⟩ := hx.extends_ r acc a d₁ hy
    obtain ⟨js, hjs, hacc'⟩ := (hf a).extends_ d₁.wasm d₁.visitor b d hg
    refine ⟨is ++ js, ?_, fun acc' => ?_⟩
    · rw [hjs, his, List.append_assoc]
    · rw [bind_of_ok (hacc acc'), hacc' (acc' ++ is), List.append_assoc]
  · constructor
    · intro h
      obtain ⟨a, d₁, hx', hf'⟩ := bind_eq_ok.1 h
      obtain ⟨is, hy, hv⟩ := (hx.ok_iff r s a d₁).1 hx'
      obtain ⟨js, hg, hv'⟩ := ((hf a).ok_iff d₁.wasm d₁.visitor b d).1 hf'
      obtain ⟨js', hjs, hacc⟩ := (hf a).extends_ _ _ _ _ hg
      obtain rfl : js = js' := hjs
      refine ⟨is ++ js, ?_, visitAll_append.2 ⟨d₁.visitor, hv, hv'⟩⟩
      rw [bind_of_ok hy]
      exact hacc is
    · rintro ⟨ks, h, hv⟩
      obtain ⟨a, d₁, hy, hg⟩ := bind_eq_ok.1 h
      obtain ⟨js, hjs, hacc⟩ := (hf a).extends_ _ _ _ _ hg
      obtain rfl : ks = d₁.visitor ++ js := hjs
      obtain ⟨u, hu, hv'⟩ := visitAll_append.1 hv
      have hx' := (hx.ok_iff r s a ⟨d₁.wasm, u⟩).2 ⟨d₁.visitor, hy, hu⟩
      rw [bind_of_ok hx']
      exact ((hf a).ok_iff d₁.wasm u b d).2 ⟨js, hacc [], hv'⟩

theorem reading (x : ReaderM α) : Factors v (reading x) (reading x) := by
  refine ⟨fun r acc a d h => ?_, fun r s a d => ?_⟩
  · obtain ⟨r', hr, rfl⟩ := zoom_eq_ok.1 h
    refine ⟨[], (List.append_nil acc).symm, fun acc' => ?_⟩
    rw [List.append_nil]
    exact zoom_of_ok hr
  · constructor
    · intro h
      obtain ⟨r', hr, rfl⟩ := zoom_eq_ok.1 h
      exact ⟨[], zoom_of_ok hr, rfl⟩
    · rintro ⟨is, h, hv⟩
      obtain ⟨r', hr, hd⟩ := zoom_eq_ok.1 h
      obtain ⟨rfl, rfl⟩ := Decoding.mk.inj hd
      cases hv
      exact zoom_of_ok hr

theorem visiting (i : WasmInstr) : Factors v (visiting (v i)) (visiting (record i)) := by
  refine ⟨fun r acc a d h => ?_, fun r s a d => ?_⟩
  · obtain ⟨l, hl, rfl⟩ := zoom_eq_ok.1 h
    cases hl
    exact ⟨[i], rfl, fun acc' => rfl⟩
  · constructor
    · intro h
      obtain ⟨t, ht, rfl⟩ := zoom_eq_ok.1 h
      exact ⟨[i], rfl, by rw [visitAll_singleton]; exact ht⟩
    · rintro ⟨is, h, hv⟩
      obtain ⟨l, hl, hd⟩ := zoom_eq_ok.1 h
      cases hl
      obtain ⟨rfl, rfl⟩ := Decoding.mk.inj hd
      change visitAll v [i] s = .ok () d.visitor at hv
      rw [visitAll_singleton] at hv
      exact zoom_of_ok hv

theorem iterate {x : DecodeM σ Unit} {y : DecodeM (List WasmInstr) Unit} (hx : Factors v x y)
    (n : ℕ) : Factors v (iterate n x) (iterate n y) := by
  induction n with
  | zero => exact pure ()
  | succ n ih => exact bind hx fun _ => ih

end Factors

theorem factors_readCodeStep (v : WasmVisitor σ) (depth : ℕ) :
    Factors v (readCodeStep v depth) (readCodeStep record depth) := by
  refine Factors.bind (.reading _) fun op => ?_
  by_cases hop : op = Opcode.brTable
  · rw [if_pos hop, if_pos hop]
    refine Factors.bind ?_ fun _ => .pure _
    refine Factors.bind (.reading _) fun len => Factors.bind (.visiting _) fun _ => ?_
    refine Factors.bind (.iterate (Factors.bind (.reading _) fun _ => .visiting _) _) fun _ => ?_
    exact Factors.bind (.reading _) fun _ => .visiting _
  · rw [if_neg hop, if_neg hop]
    refine Factors.bind (.reading _) fun i => ?_
    exact Factors.bind (.visiting _) fun _ => .pure _

theorem factors_readCodeLoop (v : WasmVisitor σ) (fuel depth : ℕ) :
    Factors v (readCodeLoop v fuel depth) (readCodeLoop record fuel depth) := by
  induction fuel generalizing depth with
  | zero =>
      refine ⟨fun r acc a d h => ?_, fun r s a d => ⟨fun h => ?_, ?_⟩⟩
      · cases h
      · cases h
      · rintro ⟨is, h, -⟩
        cases h
  | succ fuel ih =>
      refine Factors.bind (factors_readCodeStep v depth) fun next => ?_
      cases next with
      | none => exact .pure _
      | some depth' => exact ih depth'

/-- A visitor accepts an expression exactly when it accepts the recorded calls. -/
theorem readCode_eq_ok {v : WasmVisitor σ} {r r' : Reader} {s s' : σ} :
    readCode v ⟨r, s⟩ = .ok () ⟨r', s'⟩ ↔
      ∃ calls, readCode record ⟨r, []⟩ = .ok () ⟨r', calls⟩ ∧ visitAll v calls s = .ok () s' :=
  (factors_readCodeLoop v (r.input.length + 1) 0).ok_iff r s () ⟨r', s'⟩

/-! ### The shape of the calls -/

/-- The calls of the visitor that the decoder makes one at a time. -/
def WasmInstr.Single (depth : ℕ) : WasmInstr → Prop
  | exitBlock => 0 < depth
  | finish => depth = 0
  | brTableStart _ => False
  | brTableBranch _ => False
  | brTableFinish _ => False
  | _ => True

/-- The calls for the rest of an expression at a block depth. -/
inductive Stream : ℕ → List WasmInstr → Prop where
  | single {depth depth' : ℕ} {i : WasmInstr} {rest : List WasmInstr} :
      i.Single depth → i.depthAfter depth = some depth' → Stream depth' rest →
      Stream depth (i :: rest)
  | table {depth : ℕ} {len : U32} {ls : List Idx} {l : Idx} {rest : List WasmInstr} :
      ls.length = len.toNat → Stream depth rest →
      Stream depth (.brTableStart len :: ls.map .brTableBranch ++ .brTableFinish l :: rest)
  | last : Stream 0 [.finish]

theorem Stream.eq_append_finish {depth : ℕ} {calls : List WasmInstr} (h : Stream depth calls) :
    ∃ pre, calls = pre ++ [.finish] := by
  induction h with
  | single _ _ _ ih =>
      obtain ⟨pre, rfl⟩ := ih
      exact ⟨_ :: pre, rfl⟩
  | @table _ len ls l _ _ _ ih =>
      obtain ⟨pre, rfl⟩ := ih
      exact ⟨.brTableStart len :: ls.map .brTableBranch ++ .brTableFinish l :: pre, by
        simp only [List.append_assoc, List.cons_append]⟩
  | last => exact ⟨[], rfl⟩

theorem readInstr_single (depth : ℕ) (op : U8) :
    Returns (WasmInstr.Single depth) (readInstr depth op) := by
  unfold readInstr
  refine .ite (.pure trivial) (.ite (.pure trivial) ?_)
  refine .ite (.map fun _ => trivial) (.ite (.map fun _ => trivial) ?_)
  refine .ite (.map fun _ => trivial) (.ite (.pure trivial) (.ite (.pure ?_) ?_))
  · by_cases h : 0 < depth
    · rw [if_pos h]
      exact h
    · rw [if_neg h]
      exact Nat.eq_zero_of_not_pos h
  refine .ite (.map fun _ => trivial) (.ite (.map fun _ => trivial) (.ite (.pure trivial) ?_))
  refine .ite (.map fun _ => trivial) ?_
  refine .ite (.bind fun _ => .bind fun _ => .pure trivial) ?_
  refine .ite (.pure trivial) (.ite (.pure trivial) ?_)
  refine .ite (.map fun _ => trivial)
    (.ite (.map fun _ => trivial) (.ite (.map fun _ => trivial) ?_))
  refine .ite (.map fun _ => trivial) (.ite (.map fun _ => trivial) ?_)
  refine .ite (.bind fun _ => .pure trivial) (.ite (.bind fun _ => .pure trivial) ?_)
  refine .ite (.map fun _ => trivial) (.ite (.map fun _ => trivial) ?_)
  refine .ite (.map fun _ => trivial) (.ite (.map fun _ => trivial) ?_)
  refine .ite (.bind fun ext => ?_) ?_
  · cases SatOp.all.find? fun i => i.sub.toNat = ext.toNat with
    | none => exact .throw _
    | some i => exact .pure trivial
  · cases LoadOp.ofOpcode op with
    | some i => exact .map fun _ => trivial
    | none =>
      cases StoreOp.ofOpcode op with
      | some i => exact .map fun _ => trivial
      | none =>
        cases NumOp.ofOpcode op with
        | some i => exact .pure trivial
        | none =>
          cases ReinterpretOp.ofOpcode op with
          | some i => exact .pure trivial
          | none => exact .throw _

/-- The recorded labels of a `br_table`. -/
theorem record_branches {n : ℕ} {d d' : Decoding (List WasmInstr)}
    (h : iterate n (do
      let br ← reading Idx.read
      visiting (record (.brTableBranch br))) d = .ok () d') :
    ∃ ls : List Idx, ls.length = n ∧ d'.visitor = d.visitor ++ ls.map .brTableBranch := by
  induction n generalizing d with
  | zero =>
      obtain ⟨-, rfl⟩ := pure_eq_ok.1 h
      exact ⟨[], rfl, (List.append_nil _).symm⟩
  | succ n ih =>
      obtain ⟨_, d₁, hstep, h⟩ := bind_eq_ok.1 h
      obtain ⟨br, d₂, hbr, hrec⟩ := bind_eq_ok.1 hstep
      obtain ⟨r, -, rfl⟩ := zoom_eq_ok.1 hbr
      obtain ⟨l, hl, rfl⟩ := zoom_eq_ok.1 hrec
      cases hl
      obtain ⟨ls, hlen, hls⟩ := ih h
      refine ⟨br :: ls, by rw [List.length_cons, hlen], ?_⟩
      rw [hls, List.map_cons, List.append_assoc]
      rfl

/-- A round of the loop records the next calls of a stream. -/
theorem record_step {depth : ℕ} {d d' : Decoding (List WasmInstr)} {next : Option ℕ}
    (h : readCodeStep record depth d = .ok next d') :
    ∃ is, d'.visitor = d.visitor ++ is ∧
      match next with
      | some depth' => ∀ rest, Stream depth' rest → Stream depth (is ++ rest)
      | none => Stream depth is := by
  obtain ⟨op, d₁, hop, h⟩ := bind_eq_ok.1 h
  obtain ⟨r, -, rfl⟩ := zoom_eq_ok.1 hop
  by_cases htable : op = Opcode.brTable
  · rw [if_pos htable] at h
    obtain ⟨_, d₂, htab, h⟩ := bind_eq_ok.1 h
    obtain ⟨rfl, rfl⟩ := pure_eq_ok.1 h
    obtain ⟨len, d₃, hlen, htab⟩ := bind_eq_ok.1 htab
    obtain ⟨r₃, -, rfl⟩ := zoom_eq_ok.1 hlen
    obtain ⟨_, d₄, hstart, htab⟩ := bind_eq_ok.1 htab
    obtain ⟨l, hl, rfl⟩ := zoom_eq_ok.1 hstart
    cases hl
    obtain ⟨_, d₅, hbranches, htab⟩ := bind_eq_ok.1 htab
    obtain ⟨ls, hls, hd₅⟩ := record_branches hbranches
    obtain ⟨default_, d₆, hdefault, hfinish⟩ := bind_eq_ok.1 htab
    obtain ⟨r₆, -, rfl⟩ := zoom_eq_ok.1 hdefault
    obtain ⟨l, hl, rfl⟩ := zoom_eq_ok.1 hfinish
    cases hl
    refine ⟨.brTableStart len :: ls.map .brTableBranch ++ [.brTableFinish default_], ?_, ?_⟩
    · simp only [hd₅, List.append_assoc, List.cons_append, List.nil_append]
    · intro rest hrest
      simp only [List.append_assoc, List.cons_append]
      exact Stream.table hls hrest
  · rw [if_neg htable] at h
    obtain ⟨i, d₂, hi, h⟩ := bind_eq_ok.1 h
    obtain ⟨r₂, hread, rfl⟩ := zoom_eq_ok.1 hi
    obtain ⟨_, d₃, hrec, h⟩ := bind_eq_ok.1 h
    obtain ⟨l, hl, rfl⟩ := zoom_eq_ok.1 hrec
    cases hl
    obtain ⟨hnext, rfl⟩ := pure_eq_ok.1 h
    have hsingle := readInstr_single depth op _ _ _ hread
    refine ⟨[i], rfl, ?_⟩
    cases next with
    | some depth' => exact fun rest hrest => Stream.single hsingle hnext hrest
    | none =>
        cases i <;> simp only [WasmInstr.depthAfter, reduceCtorEq] at hnext
        obtain rfl : depth = 0 := hsingle
        exact Stream.last

/-- The recorded calls of an expression are a stream. -/
theorem record_stream {r r' : Reader} {calls : List WasmInstr}
    (h : readCode record ⟨r, []⟩ = .ok () ⟨r', calls⟩) : Stream 0 calls := by
  have hloop : ∀ fuel depth (d d' : Decoding (List WasmInstr)),
      readCodeLoop record fuel depth d = .ok () d' →
      ∃ is, d'.visitor = d.visitor ++ is ∧ Stream depth is := by
    intro fuel
    induction fuel with
    | zero =>
        intro depth d d' h
        cases h
    | succ fuel ih =>
        intro depth d d' h
        obtain ⟨next, d₁, hstep, h⟩ := bind_eq_ok.1 h
        obtain ⟨is, his, hnext⟩ := record_step hstep
        cases next with
        | none =>
            obtain ⟨-, rfl⟩ := pure_eq_ok.1 h
            exact ⟨is, his, hnext⟩
        | some depth' =>
            obtain ⟨js, hjs, hstream⟩ := ih depth' d₁ d' h
            refine ⟨is ++ js, ?_, hnext js hstream⟩
            rw [hjs, his, List.append_assoc]
  obtain ⟨is, his, hstream⟩ := hloop _ 0 _ _ h
  obtain rfl : calls = is := his
  exact hstream

end SpaceWasm
