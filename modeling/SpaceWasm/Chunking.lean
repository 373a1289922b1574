import SpaceWasm.LoadCongruence

/-!
# Decoding does not see the chunks

A binary may arrive in chunks of any sizes. Two readers over the same bytes show
the same view, whatever chunks the bytes come in and wherever a chunk or the ring
buffer ends, and every operation of the reader is determined by the view. A
`Program` is any client of these operations: it may choose the next operation by
the results of the earlier ones, and go on after a failure.
-/

namespace SpaceWasm

open Fallible

/-! ### The same view -/

/-- The two readers have the same bytes left, the same offset and the same limit. -/
structure Reader.SameView (r t : Reader) : Prop where
  view : t.view = r.view
  limit_le : r.limit ≤ usizeMax

namespace Reader.SameView

variable {r t r' t' : Reader}

theorem input (h : r.SameView t) : t.input = r.input := congrArg View.input h.view

theorem ending (h : r.SameView t) : t.stream.ending = r.stream.ending := congrArg View.ending h.view

theorem offset (h : r.SameView t) : t.offset = r.offset := congrArg View.offset h.view

theorem limit (h : r.SameView t) : t.limit = r.limit := congrArg View.limit h.view

/-- Two readers after the same step on the view. -/
theorem step {v : View} (h : r.SameView t) (hr : r'.view = v) (ht : t'.view = v)
    (hlimit : v.limit = r.limit) : r'.SameView t' := by
  refine ⟨ht.trans hr.symm, ?_⟩
  have : r'.limit = v.limit := congrArg View.limit hr
  rw [this, hlimit]
  exact h.limit_le

theorem new {s s' : WasmStream} (hbytes : s.bytes = s'.bytes) (hending : s.ending = s'.ending) :
    (Reader.new s).SameView (Reader.new s') := by
  refine ⟨?_, Nat.le_refl _⟩
  rw [Reader.view, Reader.view, input_new, input_new, hbytes]
  change (⟨_, s'.ending, 0, usizeMax⟩ : View) = ⟨_, s.ending, 0, usizeMax⟩
  rw [hending]

end Reader.SameView

theorem respects_peekU8 : Respects Eq Reader.SameView peekU8 := by
  intro r t h
  rcases peekU8_apply r with ⟨hr, r', hpeek, hview⟩ | ⟨b, bs, r', hr, hpeek, hview, -⟩ <;>
    rcases peekU8_apply t with ⟨ht, t', hpeek', hview'⟩ | ⟨c, cs, t', ht, hpeek', hview', -⟩ <;>
      rw [h.input, hr] at ht
  · rw [hpeek, hpeek', Reader.endError_congr h.view]
    exact .error rfl (h.step hview (hview'.trans h.view) rfl)
  · cases ht
  · cases ht
  · cases ht
    rw [hpeek, hpeek']
    exact .ok b (h.step hview (hview'.trans h.view) rfl)

theorem respects_readU8 : Respects Eq Reader.SameView readU8 := by
  intro r t h
  have hoffset := h.offset
  have hlimit := h.limit
  rcases readU8_apply r with ⟨hr, hread⟩ | ⟨hlt, hr, r', hread, hview⟩ |
      ⟨hlt, b, bs, r', hr, hread, hview⟩ <;>
    rcases readU8_apply t with ⟨ht, hread'⟩ | ⟨hlt', ht, t', hread', hview'⟩ |
      ⟨hlt', c, cs, t', ht, hread', hview'⟩
  · rw [hread, hread']
    exact .error rfl h
  · omega
  · omega
  · omega
  · rw [hread, hread', Reader.endError_congr h.view]
    exact .error rfl (h.step hview (hview'.trans h.view) rfl)
  · rw [h.input, hr] at ht
    cases ht
  · omega
  · rw [h.input, hr] at ht
    cases ht
  · rw [h.input, hr] at ht
    cases ht
    rw [hread, hread']
    rw [h.view, hoffset] at hview'
    exact .ok b (h.step hview hview' rfl)

theorem respects_expectU8 (expected : U8) : Respects Eq Reader.SameView (expectU8 expected) := by
  refine .bind respects_peekU8 fun byte => .ite (fun _ => ?_) fun _ => .throw rfl
  exact .bind respects_readU8 fun _ => .pure ()

/-- Decoding depends on the view alone. -/
theorem sameView_congruence : Reader.Congruence Eq 0 Reader.SameView where
  refl _ := rfl
  readU8 := respects_readU8
  expectU8 := respects_expectU8
  offset h := h.offset
  limit h := h.limit
  limit_le h := h.limit ▸ h.limit_le
  enter {r t} n h hn := by
    refine ⟨?_, Nat.le_trans hn h.limit_le⟩
    change (⟨t.input, t.stream.ending, t.offset, t.offset + n⟩ : Reader.View) =
      ⟨r.input, r.stream.ending, r.offset, r.offset + n⟩
    rw [h.input, h.ending, h.offset]
  leave {r t r' t'} h h' := by
    refine ⟨?_, h.limit_le⟩
    change (⟨t'.input, t'.stream.ending, t'.offset, t.limit⟩ : Reader.View) =
      ⟨r'.input, r'.stream.ending, r'.offset, r.limit⟩
    rw [h'.input, h'.ending, h'.offset, h.limit]

/-! ### Clients of the reader -/

/-- A client of the reader. The element readers of vectors and the body of a
limited read are clients themselves. -/
inductive Program : Type → Type 1 where
  | pure {α : Type} (a : α) : Program α
  | throw {α : Type} (e : ValidationError) : Program α
  | offset : Program ℕ
  | readU8 : Program U8
  | expectU8 (expected : U8) : Program Unit
  | stripBytes (n : ℕ) : Program (List U8)
  | readU32 : Program U32
  | readI32 : Program U32
  | readI64 : Program U64
  | skip (n : ℕ) : Program Unit
  | readVecIn {α : Type} (element : Program α) : Program (List α)
  | readVecStack {α : Type} (size : ℕ) (element : Program α) : Program (List α)
  | withLimit {α : Type} (n : ℕ) (body : Program α) : Program α
  | bind {α β : Type} (x : Program α) (f : α → Program β) : Program β
  /-- Go on with the result of `x`, also when it has failed. -/
  | attempt {α : Type} (x : Program α) : Program (Except ValidationError α)

/-- `read_vec_stack` with elements that may allocate. -/
def readVecStackIn {α : Type} (size : ℕ) (readElement : LoadM α) : LoadM (List α) := do
  let len ← decoding readU32
  let remaining ← gets fun s => s.wasm.bytesRemaining
  if size < len.toNat ∨ remaining < len.toNat then throw .vecTooLong
  else collect len.toNat readElement

/-- Handle a failure. -/
def attempt {α : Type} (x : LoadM α) : LoadM (Except ValidationError α) := fun s =>
  match x s with
  | .ok a t => .ok (.ok a) t
  | .error e t => .ok (.error e) t
  | .panic => .panic
  | .diverge => .diverge

/-- The run of a client; vectors are allocated in the arena of a load. -/
def Program.run {α : Type} : Program α → LoadM α
  | pure a => Pure.pure a
  | throw e => Fallible.throw e
  | offset => SpaceWasm.offset
  | readU8 => decoding SpaceWasm.readU8
  | expectU8 expected => decoding (SpaceWasm.expectU8 expected)
  | stripBytes n => decoding (SpaceWasm.stripBytes n)
  | readU32 => decoding SpaceWasm.readU32
  | readI32 => decoding SpaceWasm.readI32
  | readI64 => decoding SpaceWasm.readI64
  | skip n => decoding (SpaceWasm.skip n)
  | readVecIn element => readVec element.run
  | readVecStack size element => readVecStackIn size element.run
  | withLimit n body => limited n body.run
  | bind x f => x.run >>= fun a => (f a).run
  | attempt x => SpaceWasm.attempt x.run

/-- On elements that do not allocate this is `readVecStack`. -/
theorem decoding_readVecStack {α : Type} (size : ℕ) (x : ReaderM α) :
    decoding (readVecStack size x) = readVecStackIn size (decoding x) := by
  unfold readVecStack readVecStackIn
  rw [decoding_bind]
  congr 1
  funext len
  rw [decoding_bind]
  congr 1
  funext remaining
  rw [← decoding_collect]
  split <;> rfl

/-! ### Runs of clients -/

variable {α : Type}

/-- A client cannot tell readers with the same view apart. -/
theorem respects_run (p : Program α) : Respects Eq (LoadState.Like Reader.SameView) p.run := by
  have hR := sameView_congruence
  induction p with
  | pure a => exact .pure a
  | throw e => exact .throw rfl
  | offset => exact .gets fun _ _ h => h.wasm.offset.symm
  | readU8 => exact respects_decoding hR .readU8
  | expectU8 expected => exact respects_decoding hR (.expectU8 expected)
  | stripBytes n => exact respects_decoding hR (decoder_stripBytes n)
  | readU32 => exact respects_decoding hR decoder_readU32
  | readI32 => exact respects_decoding hR decoder_readI32
  | readI64 => exact respects_decoding hR decoder_readI64
  | skip n => exact respects_decoding hR (decoder_skip n)
  | readVecIn element ih => exact respects_readVec hR ih
  | readVecStack size element ih =>
      refine .bind (respects_decoding hR decoder_readU32) fun len => .gets_bind fun s t hst => ?_
      rw [hR.remaining hst.wasm]
      exact .ite (fun _ => .throw rfl) fun _ => .collect ih _
  | withLimit n body ih => exact respects_limited hR n ih
  | bind x f ihx ihf => exact .bind ihx ihf
  | attempt x ih =>
      intro s t hst
      have h := ih s t hst
      change (attempt x.run s).Alike Eq _ (attempt x.run t)
      unfold attempt
      generalize x.run s = o at h ⊢
      generalize x.run t = o' at h ⊢
      cases h with
      | ok a h => exact .ok _ h
      | error he h =>
          rw [he]
          exact .ok _ h
      | panic => exact .panic
      | diverge => exact .diverge

theorem ends_decoding {x : ReaderM α} (h : Decoder x) : Ends (decoding x) := by
  intro s _
  have hread := h.reads.apply s.wasm
  unfold decoding zoom
  cases hr : x s.wasm <;> rw [hr] at hread
  · trivial
  · trivial
  · exact hread.elim
  · exact hread

theorem ends_allocate (n : ℕ) : Ends (building (allocate n)) := by
  intro s _
  unfold building zoom allocate
  simp only
  cases s.code.heap.answer s.code.heap.requests n <;> trivial

theorem ends_limited {x : LoadM α} (n : ℕ) (hx : Ends x) : Ends (limited n x) := by
  intro s _
  unfold limited withLimit
  simp only
  by_cases hn : s.wasm.offset + n ≤ usizeMax ∧ s.wasm.offset + n ≤ s.wasm.limit
  · rw [if_pos hn]
    have h := hx { s with wasm := { s.wasm with limit := s.wasm.offset + n } } trivial
    cases hr : x _ <;> rw [hr] at h
    · trivial
    · trivial
    · exact h
    · exact h
  · rw [if_neg hn]
    trivial

theorem ends_attempt {x : LoadM α} (hx : Ends x) : Ends (attempt x) := by
  intro s _
  have h := hx s trivial
  unfold attempt
  cases hr : x s <;> rw [hr] at h
  · trivial
  · trivial
  · exact h
  · exact h

/-- A client ends, with a value or with an error. -/
theorem ends_run (p : Program α) : Ends p.run := by
  induction p with
  | pure a => exact fun _ _ => trivial
  | throw e => exact fun _ _ => trivial
  | offset => exact fun _ _ => trivial
  | readU8 => exact ends_decoding .readU8
  | expectU8 expected => exact ends_decoding (.expectU8 expected)
  | stripBytes n => exact ends_decoding (decoder_stripBytes n)
  | readU32 => exact ends_decoding decoder_readU32
  | readI32 => exact ends_decoding decoder_readI32
  | readI64 => exact ends_decoding decoder_readI64
  | skip n => exact ends_decoding (decoder_skip n)
  | readVecIn element ih =>
      refine Preserves.bind (ends_decoding decoder_readU32) fun len => ?_
      refine Preserves.bind (Preserves.gets _) fun remaining => ?_
      refine Preserves.ite (fun _ => Preserves.throw _) fun _ => ?_
      refine Preserves.bind ?_ fun _ => Preserves.collect ih _
      exact Preserves.ite (fun _ => ends_allocate _) fun _ => Preserves.pure ()
  | readVecStack size element ih =>
      refine Preserves.bind (ends_decoding decoder_readU32) fun len => ?_
      refine Preserves.bind (Preserves.gets _) fun remaining => ?_
      exact Preserves.ite (fun _ => Preserves.throw _) fun _ => Preserves.collect ih _
  | withLimit n body ih => exact ends_limited n ih
  | bind x f ihx ihf => exact Preserves.bind ihx ihf
  | attempt x ih => exact ends_attempt ih

/-! ### Modules -/

section Module

variable {env : LoadEnv}

theorem respects_plain {x : LoadM α} (h : Respects Eq (LoadState.Like Reader.SameView) x) :
    Respects Eq (LoadState.Like Reader.SameView) (plain x) :=
  .mapError h fun _ _ he => congrArg _ he

theorem respects_readSectionBody (kind : SectionKind) :
    Respects Eq (LoadState.Like Reader.SameView) (readSectionBody env kind) := by
  have hR := sameView_congruence
  have hoffset : Respects Eq (LoadState.Like Reader.SameView) offset :=
    .gets fun _ _ h => h.wasm.offset.symm
  refine .bind (respects_plain (respects_decoding hR decoder_readU32)) fun size => ?_
  refine .bind (respects_plain hoffset) fun start => .bind ?_ fun _ => ?_
  · refine hR.withLimit (fun _ => rfl) (fun _ _ h => h.wasm)
      (fun _ _ _ _ h h' => ⟨h', h.store, h.code, h.module⟩) _ ?_
    exact .mapError (respects_readSection hR env _ kind) fun _ _ he => congrArg _ he
  · refine .bind (respects_plain hoffset) fun stop => ?_
    exact .ite (fun _ => .throw rfl) fun _ => .pure ()

theorem respects_readSections (fuel : ℕ) (last : SectionKind) (seenCode : Bool) :
    Respects Eq (LoadState.Like Reader.SameView) (readSections env fuel last seenCode) := by
  induction fuel generalizing last seenCode with
  | zero => exact .diverge
  | succ fuel ih =>
      intro s t hst
      have hkind := respects_decoding sameView_congruence decoder_sectionKind s t hst
      unfold readSections
      generalize decoding SectionKind.read s = o at hkind
      generalize decoding SectionKind.read t = o' at hkind
      cases hkind with
      | ok kind h =>
          refine Lockstep.bind (respects_plain (.ofExcept (fun _ => rfl) _)) (fun last => ?_) _ _ h
          exact .bind (respects_readSectionBody kind) fun _ => ih last _
      | @error e e' s' t' he h =>
          subst he
          by_cases heof : e = .eof
          · subst heof
            exact .ok seenCode h
          · cases e <;> first | exact absurd rfl heof | exact .error rfl h
      | panic => exact .panic
      | diverge => exact .diverge

theorem respects_moduleRead (name : Name) :
    Respects Eq (LoadState.Like Reader.SameView) (Module.read env name) := by
  have hR := sameView_congruence
  refine .bind (respects_plain (respects_decoding hR (decoder_stripBytes 4))) fun magic => ?_
  refine .ite (fun _ => .throw rfl) fun _ => ?_
  refine .bind (respects_plain (respects_decoding hR (decoder_stripBytes 4))) fun version => ?_
  refine .ite (fun _ => .throw rfl) fun _ => .get_bind fun s t hst => ?_
  rw [hst.store]
  refine .bind (respects_plain (.ofExcept (fun _ => rfl) _)) fun _ => ?_
  refine .bind (respects_plain (respects_newVec hR.refl _)) fun _ => .get_bind fun s t hst => ?_
  rw [hst.wasm.input]
  refine .bind (respects_readSections _ _ _) fun seenCode => .get_bind fun s t hst => ?_
  rw [hst.module]
  exact .ite (fun _ => .throw rfl) fun _ => .pure _

/-- A load depends on the view of its reader alone. -/
theorem Module.new_congr {name : Name} {r t : Reader} (h : r.SameView t) :
    Module.new env name t = Module.new env name r := by
  funext target
  have hread := @respects_moduleRead env name
    ⟨r, target.store, target.code, Module.empty name⟩
    ⟨t, target.store, target.code, Module.empty name⟩ ⟨h, rfl, rfl, rfl⟩
  unfold Module.new
  generalize Module.read env name _ = o at hread ⊢
  generalize Module.read env name _ = o' at hread ⊢
  cases hread with
  | ok m h =>
      simp only
      rw [h.store, h.code]
  | error he h =>
      simp only
      rw [he, h.store, h.code, h.wasm.offset]
  | panic => rfl
  | diverge => rfl

end Module

/-! ### Chunking -/

/-- What a client sees of a run: the value or the error, and what is left of the
input, at which offset. -/
def seen (o : Outcome ValidationError LoadState α) :
    Option (Except ValidationError α × Reader.View) :=
  o.result.map fun (x, s) => (x, s.wasm.view)

theorem seen_run {p : Program α} {s t : LoadState} (h : s.Like Reader.SameView t) :
    ∃ x v, seen (p.run s) = some (x, v) ∧ seen (p.run t) = some (x, v) := by
  have hrun := respects_run p s t h
  have hends := ends_run p s trivial
  generalize p.run s = o at hrun hends
  generalize p.run t = o' at hrun
  cases hrun with
  | @ok a s' t' h => exact ⟨.ok a, s'.wasm.view, rfl, by rw [← h.wasm.view]; rfl⟩
  | @error e e' s' t' he h =>
      exact ⟨.error e, s'.wasm.view, rfl, by rw [← h.wasm.view, he]; rfl⟩
  | panic => exact (hends trivial).elim
  | diverge => exact hends.elim

/-- Two streams that deliver the same bytes are the same to every client of the
reader, and to the decoder of modules. -/
theorem chunking_independent {s s' : WasmStream} (hbytes : s.bytes = s'.bytes)
    (hending : s.ending = s'.ending) :
    (∀ {α : Type} (p : Program α) (store : Store) (code : CodeBuilder) (m : Module), ∃ x v,
        seen (p.run ⟨Reader.new s, store, code, m⟩) = some (x, v) ∧
          seen (p.run ⟨Reader.new s', store, code, m⟩) = some (x, v)) ∧
      ∀ (env : LoadEnv) (name : Name),
        Module.new env name (Reader.new s) = Module.new env name (Reader.new s') := by
  have hnew := Reader.SameView.new hbytes hending
  exact ⟨fun p store code m => seen_run ⟨hnew, rfl, rfl, rfl⟩,
    fun env name => (Module.new_congr hnew).symm⟩

/-- A header cut inside the magic number. -/
def cutHeader : WasmStream :=
  ⟨[[0x00, 0x61], [0x73], [0x6D, 0x01, 0x00, 0x00, 0x00]], none, by decide⟩

theorem cutHeader_independent :
    Module.new simpleEnv [] (Reader.new cutHeader) =
      Module.new simpleEnv []
        (Reader.new (.ofBytes [0x00, 0x61, 0x73, 0x6D, 0x01, 0x00, 0x00, 0x00])) :=
  (@chunking_independent cutHeader (.ofBytes [0x00, 0x61, 0x73, 0x6D, 0x01, 0x00, 0x00, 0x00])
    (by decide) (by decide)).2 _ _

end SpaceWasm
