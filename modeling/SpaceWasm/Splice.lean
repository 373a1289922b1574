import SpaceWasm.Framing
import SpaceWasm.ImportDecls

/-!
# Binaries that differ in one place

Two binaries may have the same sections up to some place and then differ, or have
the same bytes from some place on. `Reader.Parted x y stop k` relates two readers
that have the same bytes up to the place and then `x` and `y`; with `x` and `y`
empty it relates readers of the same bytes at different offsets. As long as a
section does not reach over the place, the two loads read it in lockstep.
-/

namespace SpaceWasm

open Fallible

variable {α β : Type}

/-! ### Decoders that do not look at the limit -/

/-- The decoders that neither look ahead nor at the number of bytes that remain. -/
inductive ByteDecoder : {α : Type} → ReaderM α → Prop where
  | pure {α : Type} (a : α) : ByteDecoder (Pure.pure a)
  | throw {α : Type} (e : ValidationError) : ByteDecoder (Fallible.throw e : ReaderM α)
  | readU8 : ByteDecoder SpaceWasm.readU8
  | bind {α β : Type} {x : ReaderM α} {f : α → ReaderM β} : ByteDecoder x →
      (∀ a, ByteDecoder (f a)) → ByteDecoder (x >>= f)

namespace ByteDecoder

theorem decoder {x : ReaderM α} (h : ByteDecoder x) : Decoder x := by
  induction h with
  | pure a => exact .pure a
  | throw e => exact .throw e
  | readU8 => exact .readU8
  | bind _ _ ihx ihf => exact .bind ihx ihf

theorem ite {p : Prop} [Decidable p] {x y : ReaderM α} (hx : ByteDecoder x) (hy : ByteDecoder y) :
    ByteDecoder (if p then x else y) := by
  split
  · exact hx
  · exact hy

theorem ofExcept (x : Except ValidationError α) : ByteDecoder (Fallible.ofExcept x) := by
  cases x with
  | error e => exact .throw e
  | ok a => exact .pure a

/-- Such a decoder runs in lockstep on all readers on which reading a byte does. -/
theorem respects {E : ValidationError → ValidationError → Prop} {R : Reader → Reader → Prop}
    (hE : ∀ e, E e e) (hread : Respects E R SpaceWasm.readU8) {x : ReaderM α}
    (h : ByteDecoder x) : Respects E R x := by
  induction h with
  | pure a => exact .pure a
  | throw e => exact .throw (hE e)
  | readU8 => exact hread
  | bind _ _ ihx ihf => exact .bind ihx ihf

end ByteDecoder

theorem byteDecoder_readU32 : ByteDecoder readU32 := by
  refine ByteDecoder.readU8.bind fun b0 => .ite (.pure _) ?_
  refine ByteDecoder.readU8.bind fun b1 => .ite (.pure _) ?_
  refine ByteDecoder.readU8.bind fun b2 => .ite (.pure _) ?_
  refine ByteDecoder.readU8.bind fun b3 => .ite (.pure _) ?_
  exact ByteDecoder.readU8.bind fun b4 => .ite (.pure _) (.throw _)

theorem byteDecoder_sectionKind : ByteDecoder SectionKind.read :=
  ByteDecoder.readU8.bind fun _ => .ofExcept _

/-- The view after the bytes `bs`, with `rest` left. -/
def Reader.View.after (v : Reader.View) (bs rest : List U8) : Reader.View :=
  { v with input := rest, offset := v.offset + bs.length }

theorem Reader.View.after_nil {r : Reader} {rest : List U8} (h : r.input = rest) :
    r.view.after [] rest = r.view := by
  subst h
  rfl

theorem Reader.View.after_append (v : Reader.View) (bs cs rest : List U8) :
    (v.after bs (cs ++ rest)).after cs rest = v.after (bs ++ cs) rest := by
  simp [after, Nat.add_assoc]

/-- The parts of a reader after the bytes `bs`. -/
theorem Reader.of_after {r t : Reader} {bs rest : List U8} (h : t.view = r.view.after bs rest) :
    t.input = rest ∧ t.stream.ending = r.stream.ending ∧ t.offset = r.offset + bs.length ∧
      t.limit = r.limit :=
  Reader.View.mk.injEq .. ▸ h

theorem readU8_of_input {r : Reader} {b : U8} {rest : List U8} (hinput : r.input = b :: rest)
    (hlimit : r.offset < r.limit) :
    ∃ t, readU8 r = .ok b t ∧ t.view = r.view.after [b] rest := by
  rcases readU8_apply r with ⟨hle, -⟩ | ⟨-, hnil, -⟩ | ⟨-, c, cs, t, hcs, hr, hview⟩
  · omega
  · rw [hinput] at hnil
    cases hnil
  · rw [hinput] at hcs
    cases hcs
    exact ⟨t, hr, hview⟩

/-- The result depends on the bytes that are consumed alone. -/
theorem ByteDecoder.local_ {x : ReaderM α} (h : ByteDecoder x) {r t r' : Reader} {a : α}
    {bs rest : List U8} (hr : x r = .ok a t) (hbs : r.Consumed bs t)
    (hinput : r'.input = bs ++ rest)
    (hlimit : r'.offset + bs.length ≤ r'.limit) :
    ∃ t', x r' = .ok a t' ∧ t'.view = r'.view.after bs rest := by
  induction h generalizing r t r' bs rest with
  | pure a =>
      cases hr
      obtain rfl : bs = [] := by
        have hoffset := hbs.offset
        exact List.length_eq_zero_iff.1 (by omega)
      exact ⟨r', rfl, (Reader.View.after_nil hinput).symm⟩
  | throw e => cases hr
  | readU8 =>
      have hone := consumed_readU8 hr
      have heq : bs ++ t.input = [a] ++ t.input := hbs.input.symm.trans hone.input
      obtain rfl := List.append_cancel_right heq
      exact readU8_of_input hinput hlimit
  | bind hx hf ihx ihf =>
      obtain ⟨b, u, hxr, hfu⟩ := bind_eq_ok.1 hr
      have hadvance := hx.decoder.reads.apply r
      rw [hxr] at hadvance
      obtain ⟨bs₁, hbs₁⟩ := Reader.Consumed.of_advances hadvance
      have hadvance' := (hf b).decoder.reads.apply u
      rw [hfu] at hadvance'
      obtain ⟨bs₂, hbs₂⟩ := Reader.Consumed.of_advances hadvance'
      obtain rfl : bs = bs₁ ++ bs₂ :=
        List.append_cancel_right (hbs.input.symm.trans (hbs₁.trans hbs₂).input)
      rw [List.length_append] at hlimit
      obtain ⟨u', hxr', hview⟩ := ihx hxr hbs₁ (hinput.trans (List.append_assoc _ _ _)) (by omega)
      obtain ⟨hinput', -, hoffset', hlimit'⟩ := Reader.of_after hview
      obtain ⟨t', hfu', hview'⟩ := ihf b hfu hbs₂ hinput' (by omega)
      refine ⟨t', (bind_of_ok hxr').trans hfu', ?_⟩
      rw [hview', hview, Reader.View.after_append]

/-- The bytes of a `u32` are read as its value. -/
theorem Declares.read {bs rest : List U8} {n : ℕ} (h : Declares bs n) {r : Reader}
    (hinput : r.input = bs ++ rest) (hlimit : r.offset + bs.length ≤ r.limit) :
    ∃ v t, readU32 r = .ok v t ∧ v.toNat = n ∧ t.view = r.view.after bs rest := by
  obtain ⟨r₀, v, t₀, hr, hbs, hv⟩ := h
  obtain ⟨t, ht, hview⟩ := byteDecoder_readU32.local_ hr hbs hinput hlimit
  exact ⟨v, t, ht, hv, hview⟩

theorem stripBytes_of_input {bs rest : List U8} {r : Reader} (hinput : r.input = bs ++ rest)
    (hlimit : r.offset + bs.length ≤ r.limit) :
    ∃ t, stripBytes bs.length r = .ok bs t ∧ t.view = r.view.after bs rest := by
  induction bs generalizing r with
  | nil =>
      exact ⟨r, rfl, (Reader.View.after_nil hinput).symm⟩
  | cons b bs ih =>
      rw [List.length_cons] at hlimit
      have hhead : r.input = b :: (bs ++ rest) := hinput
      obtain ⟨u, hu, hview⟩ := readU8_of_input hhead (by omega)
      obtain ⟨hinput', -, hoffset', hlimit'⟩ := Reader.of_after hview
      rw [List.length_singleton] at hoffset'
      obtain ⟨t, ht, hview'⟩ := ih hinput' (by omega)
      refine ⟨t, ?_, ?_⟩
      · unfold stripBytes at ht ⊢
        rw [List.length_cons, collect_succ, bind_of_ok hu, bind_of_ok ht]
        rfl
      · rw [hview', hview, Reader.View.after_append]
        rfl

theorem convert_id (kind : SectionKind) : SectionKind.convert kind.id = .ok kind := by
  cases kind <;> rfl

theorem sectionKind_of_input {kind : SectionKind} {rest : List U8} {r : Reader}
    (hinput : r.input = kind.id :: rest) (hlimit : r.offset < r.limit) :
    ∃ t, SectionKind.read r = .ok kind t ∧ t.view = r.view.after [kind.id] rest := by
  obtain ⟨t, ht, hview⟩ := readU8_of_input hinput hlimit
  refine ⟨t, ?_, hview⟩
  unfold SectionKind.read
  rw [bind_of_ok ht, convert_id]
  rfl

/-! ### Readers of different binaries -/

/-- The readers have the same bytes up to the offset `stop` of the first one and then
`x` and `y`; their offsets are `k` bytes apart. -/
structure Reader.Parted (x y : List U8) (stop k : ℕ) (r t : Reader) : Prop where
  inputs : ∃ q, r.input = q ++ x ∧ t.input = q ++ y ∧ r.offset + q.length = stop
  offset : t.offset = r.offset + k

/-- The readers are limited to a part of a section. -/
structure Reader.Confined (x y : List U8) (stop k : ℕ) (r t : Reader) : Prop where
  parted : r.Parted x y stop k t
  limit : t.limit = r.limit + k
  limit_le : t.limit ≤ usizeMax
  within : r.limit ≤ stop ∨ (x = [] ∧ y = [])

/-- The readers are between two sections, or in the head of one. There is room for any
`u32` after the bytes that are left. -/
structure Reader.Between (x y : List U8) (stop k : ℕ) (r t : Reader) : Prop where
  parted : r.Parted x y stop k t
  ending : t.stream.ending = r.stream.ending
  limit : r.limit = usizeMax
  limit' : t.limit = usizeMax
  room : stop + x.length + 2 ^ 32 ≤ usizeMax
  room' : stop + k + y.length + 2 ^ 32 ≤ usizeMax

variable {x y : List U8} {stop k : ℕ}

theorem Reader.Parted.stop_eq {r t : Reader} {q : List U8} (h : r.Parted x y stop k t)
    (hinput : r.input = q ++ x) : r.offset + q.length = stop := by
  obtain ⟨q', hinput', -, hstop⟩ := h.inputs
  obtain rfl := List.append_cancel_right (hinput.symm.trans hinput')
  exact hstop

/-- Both readers are in front of the same bytes. -/
theorem Reader.Parted.after {r t r' t' : Reader} {bs q : List U8} (h : r.Parted x y stop k t)
    (hstop : r.offset + (bs ++ q).length = stop) (hr : r'.view = r.view.after bs (q ++ x))
    (ht : t'.view = t.view.after bs (q ++ y)) : r'.Parted x y stop k t' := by
  obtain ⟨hinput, -, hoffset, -⟩ := Reader.of_after hr
  obtain ⟨hinput', -, hoffset', -⟩ := Reader.of_after ht
  have hk := h.offset
  rw [List.length_append] at hstop
  exact ⟨⟨q, hinput, hinput', by omega⟩, by omega⟩

/-- The same view is parted alike. -/
theorem Reader.Parted.congr {r t r' t' : Reader} (h : r.Parted x y stop k t) (hr : r'.view = r.view)
    (ht : t'.view = t.view) : r'.Parted x y stop k t' := by
  obtain ⟨q, hinput, hinput', hstop⟩ := h.inputs
  refine @Reader.Parted.after _ _ _ _ _ _ _ _ [] q h hstop ?_ ?_
  · rw [hr, Reader.View.after_nil hinput]
  · rw [ht, Reader.View.after_nil hinput']

/-- Reading a byte on parted readers, unless one of them is at the place where they
part. -/
theorem Reader.Parted.readU8 {r t : Reader} (h : r.Parted x y stop k t)
    (hlimit : r.limit ≤ r.offset ↔ t.limit ≤ t.offset)
    (hwithin : (x = [] ∧ y = []) ∨ r.offset < stop ∨ r.limit ≤ r.offset) :
    (∃ b r' t', SpaceWasm.readU8 r = .ok b r' ∧ SpaceWasm.readU8 t = .ok b t' ∧
        r'.Parted x y stop k t' ∧ r.Advances r' ∧ t.Advances t') ∨
      ∃ e e' r' t', SpaceWasm.readU8 r = .error e r' ∧ SpaceWasm.readU8 t = .error e' t' ∧
        r'.view = r.view ∧ t'.view = t.view ∧
        (t.stream.ending = r.stream.ending → e = e') := by
  obtain ⟨q, hinput, hinput', hstop⟩ := h.inputs
  by_cases hle : r.limit ≤ r.offset
  · rcases readU8_apply r with ⟨-, hr⟩ | ⟨hlt, -⟩ | ⟨hlt, -⟩
    · rcases readU8_apply t with ⟨-, ht⟩ | ⟨hlt, -⟩ | ⟨hlt, -⟩
      · exact Or.inr ⟨_, _, r, t, hr, ht, rfl, rfl, fun _ => rfl⟩
      · omega
      · omega
    · omega
    · omega
  · cases q with
    | cons b q =>
        obtain ⟨r', hr, hview⟩ := readU8_of_input hinput (by omega)
        obtain ⟨t', ht, hview'⟩ := readU8_of_input hinput' (by omega)
        refine Or.inl ⟨b, r', t', hr, ht, h.after hstop hview hview', ?_, ?_⟩
        · have hadvance := readU8_advances r
          rw [hr] at hadvance
          exact hadvance.1
        · have hadvance := readU8_advances t
          rw [ht] at hadvance
          exact hadvance.1
    | nil =>
        rcases hwithin with ⟨rfl, rfl⟩ | hlt | hle'
        · rcases readU8_apply r with ⟨hle', -⟩ | ⟨-, -, r', hr, hview⟩ | ⟨-, b, bs, r', hcons, -⟩
          · omega
          · rcases readU8_apply t with ⟨hle', -⟩ | ⟨-, -, t', ht, hview'⟩ | ⟨-, b, bs, r', hcons, -⟩
            · omega
            · refine Or.inr ⟨_, _, r', t', hr, ht, hview, hview', fun hending => ?_⟩
              rw [Reader.endError, Reader.endError, hending]
            · rw [hinput'] at hcons
              cases hcons
          · rw [hinput] at hcons
            cases hcons
        · simp only [List.length_nil] at hstop
          omega
        · omega

/-- Errors need not agree. -/
abbrev AnyError : ValidationError → ValidationError → Prop := fun _ _ => True

theorem Reader.Confined.congr {r t r' t' : Reader} (h : r.Confined x y stop k t)
    (hr : r'.view = r.view) (ht : t'.view = t.view) : r'.Confined x y stop k t' := by
  have hlimit : r'.limit = r.limit := congrArg View.limit hr
  have hlimit' : t'.limit = t.limit := congrArg View.limit ht
  refine ⟨h.parted.congr hr ht, ?_, ?_, ?_⟩
  · rw [hlimit, hlimit', h.limit]
  · rw [hlimit']
    exact h.limit_le
  · rw [hlimit]
    exact h.within

theorem confined_readU8 : Respects AnyError (Reader.Confined x y stop k) readU8 := by
  intro r t h
  have hoffset := h.parted.offset
  have hlimit := h.limit
  have hwithin : (x = [] ∧ y = []) ∨ r.offset < stop ∨ r.limit ≤ r.offset := by
    rcases h.within with hle | hnil
    · omega
    · exact Or.inl hnil
  rcases h.parted.readU8 (by omega) hwithin with ⟨b, r', t', hr, ht, hparted, hadv, hadv'⟩ |
    ⟨e, e', r', t', hr, ht, hview, hview', -⟩
  · rw [hr, ht]
    refine .ok b ⟨hparted, by rw [hadv.limit, hadv'.limit, h.limit], ?_, ?_⟩
    · rw [hadv'.limit]
      exact h.limit_le
    · rw [hadv.limit]
      exact h.within
  · rw [hr, ht]
    exact .error trivial (h.congr hview hview')

/-- At the limit there is no byte to expect. -/
theorem expectU8_of_limit {r : Reader} (h : r.limit ≤ r.offset) (expected : U8) :
    ∃ e r', expectU8 expected r = .error e r' ∧ r'.view = r.view := by
  unfold expectU8
  rcases peekU8_apply r with ⟨-, r', hpeek, hview⟩ | ⟨b, -, r', -, hpeek, hview, -⟩
  · exact ⟨_, r', bind_of_error hpeek, hview⟩
  · have hoffset : r'.offset = r.offset := congrArg Reader.View.offset hview
    have hlimit : r'.limit = r.limit := congrArg Reader.View.limit hview
    rw [bind_of_ok hpeek]
    by_cases hb : b = expected
    · rw [if_pos hb]
      rcases readU8_apply r' with ⟨-, hr⟩ | ⟨hlt, -⟩ | ⟨hlt, -⟩
      · exact ⟨_, r', bind_of_error hr, hview⟩
      · omega
      · omega
    · rw [if_neg hb]
      exact ⟨_, r', rfl, hview⟩

theorem confined_expectU8 (expected : U8) :
    Respects AnyError (Reader.Confined x y stop k) (expectU8 expected) := by
  intro r t h
  have hoffset := h.parted.offset
  have hlimit := h.limit
  by_cases hle : r.limit ≤ r.offset
  · obtain ⟨e, r', hr, hview⟩ := expectU8_of_limit hle expected
    obtain ⟨e', t', ht, hview'⟩ := expectU8_of_limit (r := t) (by omega) expected
    rw [hr, ht]
    exact .error trivial (h.congr hview hview')
  · obtain ⟨q, hinput, hinput', hstop⟩ := h.parted.inputs
    rcases peekU8_apply r with ⟨hnil, r', hpeek, hview⟩ | ⟨b, bs, r', hcons, hpeek, hview, -⟩
    · obtain ⟨rfl, rfl⟩ := List.append_eq_nil_iff.1 (hinput.symm.trans hnil)
      have hy : y = [] := by
        rcases h.within with hle' | hnil
        · simp only [List.length_nil] at hstop
          omega
        · exact hnil.2
      rcases peekU8_apply t with ⟨-, t', hpeek', hview'⟩ | ⟨b, bs, t', hcons, -⟩
      · unfold expectU8
        rw [bind_of_error hpeek, bind_of_error hpeek']
        exact .error trivial (h.congr hview hview')
      · rw [hinput', hy] at hcons
        cases hcons
    · cases q with
      | nil =>
          rcases h.within with hle' | ⟨rfl, rfl⟩
          · simp only [List.length_nil] at hstop
            omega
          · rw [hinput] at hcons
            cases hcons
      | cons b' q =>
          rw [hinput] at hcons
          cases hcons
          rcases peekU8_apply t with ⟨hnil, -⟩ | ⟨c, cs, t', hcons', hpeek', hview', -⟩
          · rw [hinput'] at hnil
            cases hnil
          · rw [hinput'] at hcons'
            cases hcons'
            unfold expectU8
            rw [bind_of_ok hpeek, bind_of_ok hpeek']
            refine Lockstep.ite (E := AnyError) (fun _ => ?_) (fun _ => .throw trivial) r' t'
              (h.congr hview hview')
            exact .bind confined_readU8 fun _ => .pure ()

/-- Within a section decoding runs in lockstep. -/
theorem confined_congruence : Reader.Congruence AnyError k (Reader.Confined x y stop k) where
  refl _ := trivial
  readU8 := confined_readU8
  expectU8 := confined_expectU8
  offset h := h.parted.offset
  limit h := h.limit
  limit_le h := h.limit_le
  enter {r t} n h hn := by
    have hoffset := h.parted.offset
    have hlimit := h.limit
    have hle := h.limit_le
    refine ⟨⟨h.parted.inputs, hoffset⟩, ?_, ?_, ?_⟩
    · simp only
      omega
    · simp only
      omega
    · rcases h.within with hle' | hnil
      · exact Or.inl (Nat.le_trans hn hle')
      · exact Or.inr hnil
  leave h h' :=
    ⟨⟨h'.parted.inputs, h'.parted.offset⟩, h.limit, h.limit_le, h.within⟩

/-! ### Between two sections -/

namespace Reader.Between

variable {r t r' t' : Reader}

/-- Both readers have advanced. -/
theorem advance (h : r.Between x y stop k t) (hparted : r'.Parted x y stop k t')
    (hr : r.Advances r') (ht : t.Advances t') : r'.Between x y stop k t' :=
  ⟨hparted, ht.ending.trans (h.ending.trans hr.ending.symm), hr.limit.trans h.limit,
    ht.limit.trans h.limit', h.room, h.room'⟩

theorem offset_le (h : r.Between x y stop k t) : r.offset ≤ stop := by
  obtain ⟨q, -, -, hstop⟩ := h.parted.inputs
  omega

/-- The readers enter the body of a section that does not reach over the place where
they part. -/
theorem enter (h : r.Between x y stop k t) {n : ℕ} (hn : n < 2 ^ 32)
    (hwithin : r.offset + n ≤ stop ∨ (x = [] ∧ y = [])) :
    r.offset + n ≤ r.limit ∧ t.offset + n ≤ t.limit ∧
      ({ r with limit := r.offset + n } : Reader).Confined x y stop k
        { t with limit := t.offset + n } := by
  have hlimit := h.limit
  have hlimit' := h.limit'
  have hroom := h.room
  have hroom' := h.room'
  have hoffset := h.parted.offset
  have hle := h.offset_le
  refine ⟨by omega, by omega, ⟨h.parted.inputs, hoffset⟩, ?_, ?_, hwithin⟩
  · simp only
    omega
  · simp only
    omega

end Reader.Between

/-- Reading a byte in front of the same bytes. -/
theorem between_readU8 (hnil : x = [] ∧ y = []) :
    Respects Eq (Reader.Between x y stop k) readU8 := by
  intro r t h
  have hlimit := h.limit
  have hlimit' := h.limit'
  have hroom := h.room
  have hroom' := h.room'
  have hoffset := h.parted.offset
  have hle := h.offset_le
  rcases h.parted.readU8 (by omega) (Or.inl hnil) with ⟨b, r', t', hr, ht, hparted, hadv, hadv'⟩ |
    ⟨e, e', r', t', hr, ht, hview, hview', heq⟩
  · rw [hr, ht]
    exact .ok b (h.advance hparted hadv hadv')
  · rw [hr, ht]
    exact .error (heq h.ending) (h.advance (h.parted.congr hview hview') (.of_view hview)
      (.of_view hview'))

/-! ### Sections -/

/-- The body of a section after its size. -/
def readSectionRest (env : LoadEnv) (kind : SectionKind) (size : U32) : DecodeModuleM Unit := do
  let start ← plain offset
  withLimit LoadState.wasm (fun s wasm => { s with wasm := wasm })
    ValidationError.toSectionDecodeError size.toNat
    (mapError (fun e => e.withSection kind) (readSection env size.toNat kind))
  let stop ← plain offset
  if stop - start ≠ size.toNat then throw (ValidationError.malformedSectionSize.withSection kind)
  else pure ()

theorem readSectionBody_of_size {env : LoadEnv} {kind : SectionKind} {size : U32}
    {s t : LoadState} (h : decoding readU32 s = .ok size t) :
    readSectionBody env kind s = readSectionRest env kind size t :=
  bind_of_ok (plain_eq_ok.2 h)

/-- A round of the loop over the sections. -/
theorem readSections_of_kind {env : LoadEnv} {fuel : ℕ} {last kind next : SectionKind}
    {seen : Bool} {s t : LoadState} (hkind : decoding SectionKind.read s = .ok kind t)
    (horder : checkOrder last kind = .ok next) :
    readSections env (fuel + 1) last seen s = (readSectionBody env kind >>= fun _ =>
      readSections env fuel next (seen || decide (kind = .code))) t := by
  conv_lhs => unfold readSections
  rw [hkind]
  simp only [horder]
  rfl

theorem readSections_of_order {env : LoadEnv} {fuel : ℕ} {last kind : SectionKind} {seen : Bool}
    {s t : LoadState} {e : ValidationError} (hkind : decoding SectionKind.read s = .ok kind t)
    (horder : checkOrder last kind = .error e) :
    readSections env (fuel + 1) last seen s = .error e.toSectionDecodeError t := by
  conv_lhs => unfold readSections
  rw [hkind]
  simp only [horder]
  rfl

/-- Two steps of a load end alike. -/
abbrev EndAlike (x y : List U8) (stop k : ℕ) (o o' : Outcome SectionDecodeError LoadState α) :
    Prop :=
  o.Alike (fun _ _ => True) (LoadState.Like (Reader.Between x y stop k)) o'

theorem alike_limitedSection {env : LoadEnv} {kind : SectionKind} {n : ℕ} {s t : LoadState}
    (h : s.Like (Reader.Between x y stop k) t) (hn : n < 2 ^ 32)
    (hwithin : s.wasm.offset + n ≤ stop ∨ (x = [] ∧ y = [])) :
    EndAlike x y stop k
      (withLimit LoadState.wasm (fun s wasm => { s with wasm := wasm })
        ValidationError.toSectionDecodeError n
        (mapError (fun e => e.withSection kind) (readSection env n kind)) s)
      (withLimit LoadState.wasm (fun s wasm => { s with wasm := wasm })
        ValidationError.toSectionDecodeError n
        (mapError (fun e => e.withSection kind) (readSection env n kind)) t) := by
  obtain ⟨hle, hle', hconfined⟩ := h.wasm.enter hn hwithin
  have hlimit := h.wasm.limit
  have hlimit' := h.wasm.limit'
  have hleave : ∀ u v : LoadState, u.Like (Reader.Confined x y stop k) v →
      (s.enter n).wasm.Advances u.wasm → (t.enter n).wasm.Advances v.wasm →
        (s.leave u).Like (Reader.Between x y stop k) (t.leave v) := by
    intro u v huv hadv hadv'
    refine ⟨h.wasm.advance ?_ (hadv.limited hle) (hadv'.limited hle'), huv.store, huv.code,
      huv.module⟩
    exact ⟨huv.wasm.parted.inputs, huv.wasm.parted.offset⟩
  have hsection : Respects AnyError (LoadState.Like (Reader.Confined x y stop k))
      (readSection env n kind) := respects_readSection confined_congruence env n kind
  have hlockstep : @Lockstep _ _ _ _ _ (fun _ _ => True)
      (LoadState.Like (Reader.Confined x y stop k))
      (mapError (fun e => e.withSection kind) (readSection env n kind))
      (mapError (fun e => e.withSection kind) (readSection env n kind)) :=
    hsection.mapError fun _ _ _ => trivial
  have hinner := hlockstep (s.enter n) (t.enter n) ⟨hconfined, h.store, h.code, h.module⟩
  have hadv := (Advancing.section_ env n kind).mapError (f := fun e => e.withSection kind)
    (s.enter n)
  have hadv' := (Advancing.section_ env n kind).mapError (f := fun e => e.withSection kind)
    (t.enter n)
  unfold withLimit
  simp only
  rw [if_pos ⟨by omega, hle⟩, if_pos ⟨by omega, hle'⟩]
  unfold LoadState.enter at hinner hadv hadv'
  generalize mapError _ (readSection env n kind) _ = o at hinner hadv ⊢
  generalize mapError _ (readSection env n kind) _ = o' at hinner hadv' ⊢
  cases hinner with
  | ok a huv => exact .ok a (hleave _ _ huv hadv hadv')
  | error he huv => exact .error trivial (hleave _ _ huv hadv hadv')
  | panic => exact .panic
  | diverge => exact .diverge

/-- A section after its size has been read. -/
theorem alike_afterSize {env : LoadEnv} {kind : SectionKind} {size : U32} {s t : LoadState}
    (h : s.Like (Reader.Between x y stop k) t)
    (hwithin : s.wasm.offset + size.toNat ≤ stop ∨ (x = [] ∧ y = [])) :
    EndAlike x y stop k (readSectionRest env kind size s) (readSectionRest env kind size t) := by
  unfold readSectionRest
  rw [bind_of_ok (plain_offset_apply s), bind_of_ok (plain_offset_apply t), bind_apply, bind_apply]
  have hlimited := @alike_limitedSection _ _ _ _ env kind _ _ _ h size.isLt hwithin
  generalize withLimit _ _ _ _ _ s = o at hlimited ⊢
  generalize withLimit _ _ _ _ _ t = o' at hlimited ⊢
  cases hlimited with
  | @ok a u v huv =>
      simp only
      rw [bind_of_ok (plain_offset_apply u), bind_of_ok (plain_offset_apply v),
        huv.wasm.parted.offset,
        h.wasm.parted.offset, Nat.add_sub_add_right]
      exact Lockstep.ite (E := fun _ _ => True) (fun _ => .throw trivial)
        (fun _ => .pure ()) u v huv
  | error he huv => exact .error trivial huv
  | panic => exact .panic
  | diverge => exact .diverge

/-- Both loads are in front of the bytes `q`, and then of `x` and `y`. -/
structure LoadState.Before (q x y : List U8) (stop k : ℕ) (s t : LoadState) : Prop where
  like : s.Like (Reader.Between x y stop k) t
  input : s.wasm.input = q ++ x
  input' : t.wasm.input = q ++ y

namespace LoadState.Before

variable {s t : LoadState} {q : List U8}

theorem stop_eq (h : s.Before q x y stop k t) : s.wasm.offset + q.length = stop :=
  h.like.wasm.parted.stop_eq h.input

theorem room (h : s.Before q x y stop k t) : s.wasm.offset + q.length ≤ s.wasm.limit := by
  have hstop := h.stop_eq
  have hroom := h.like.wasm.room
  rw [h.like.wasm.limit]
  omega

theorem room' (h : s.Before q x y stop k t) : t.wasm.offset + q.length ≤ t.wasm.limit := by
  have hstop := h.stop_eq
  have hroom := h.like.wasm.room'
  rw [h.like.wasm.limit', h.like.wasm.parted.offset]
  omega

/-- Both loads have read the bytes `bs`. -/
theorem after {bs : List U8} {r r' : Reader} (h : s.Before (bs ++ q) x y stop k t)
    (hr : r.view = s.wasm.view.after bs (q ++ x)) (hr' : r'.view = t.wasm.view.after bs (q ++ y)) :
    LoadState.Before q x y stop k { s with wasm := r } { t with wasm := r' } := by
  obtain ⟨hinput, hending, -, hlimit⟩ := Reader.of_after hr
  obtain ⟨hinput', hending', -, hlimit'⟩ := Reader.of_after hr'
  have hwasm := h.like.wasm
  refine ⟨⟨⟨hwasm.parted.after h.stop_eq hr hr', ?_, hlimit.trans hwasm.limit,
    hlimit'.trans hwasm.limit', hwasm.room, hwasm.room'⟩, h.like.store, h.like.code, h.like.module⟩,
    hinput, hinput'⟩
  exact hending'.trans (hwasm.ending.trans hending.symm)

/-- Both loads read the same size. -/
theorem readSize {bs : List U8} {n : ℕ} (h : s.Before (bs ++ q) x y stop k t) (hn : Declares bs n) :
    ∃ size s' t', decoding readU32 s = .ok size s' ∧ decoding readU32 t = .ok size t' ∧
      size.toNat = n ∧ s'.Before q x y stop k t' := by
  have hroom := h.room
  have hroom' := h.room'
  rw [List.length_append] at hroom hroom'
  obtain ⟨v, r, hr, hv, hview⟩ := hn.read (h.input.trans (List.append_assoc _ _ _)) (by omega)
  obtain ⟨v', r', hr', hv', hview'⟩ := hn.read (h.input'.trans (List.append_assoc _ _ _)) (by omega)
  obtain rfl : v = v' := BitVec.eq_of_toNat_eq (hv.trans hv'.symm)
  exact ⟨v, _, _, zoom_of_ok hr, zoom_of_ok hr', hv, h.after hview hview'⟩

theorem readKind {kind : SectionKind} (h : s.Before (kind.id :: q) x y stop k t) :
    ∃ s' t', decoding SectionKind.read s = .ok kind s' ∧ decoding SectionKind.read t = .ok kind t' ∧
      s'.Before q x y stop k t' := by
  have hroom := h.room
  have hroom' := h.room'
  rw [List.length_cons] at hroom hroom'
  obtain ⟨r, hr, hview⟩ := sectionKind_of_input h.input (by omega)
  obtain ⟨r', hr', hview'⟩ := sectionKind_of_input h.input' (by omega)
  exact ⟨_, _, zoom_of_ok hr, zoom_of_ok hr', @after _ _ _ _ _ _ _ [kind.id] _ _ h hview hview'⟩

end LoadState.Before

/-- A section that is accepted leaves what comes after its body. -/
theorem readSectionBody_input {env : LoadEnv} {kind : SectionKind} {size body rest : List U8}
    {s u : LoadState} (hsize : Declares size body.length)
    (hinput : s.wasm.input = size ++ (body ++ rest))
    (hlimit : s.wasm.offset + size.length ≤ s.wasm.limit)
    (h : readSectionBody env kind s = .ok () u) : u.wasm.input = rest := by
  obtain ⟨n, s₁, v, hread, -, hsection, rfl, hexact⟩ := readSectionBody_eq_ok h
  obtain ⟨n', r, hr, hn, hview⟩ := hsize.read hinput hlimit
  obtain ⟨r', hr', rfl⟩ := zoom_eq_ok.1 hread
  cases hr.symm.trans hr'
  obtain ⟨hbody, -⟩ := Reader.of_after hview
  obtain ⟨bs, hbs⟩ := Reader.Consumed.of_advances (readSection_advances hsection)
  have happend : body ++ rest = bs ++ v.wasm.input := hbody.symm.trans hbs.input
  have hoffset : v.wasm.offset = r.offset + bs.length := hbs.offset
  have hlength : body.length = bs.length := by
    simp only at hexact
    omega
  exact (List.append_inj happend hlength).2.symm

/-- A section in front of the place where the binaries part. -/
theorem LoadState.Before.section_ {env : LoadEnv} {raw : RawSection} {q : List U8} {s t : LoadState}
    (hraw : Declares raw.size raw.body.length) (h : s.Before (raw.bytes ++ q) x y stop k t) :
    ∃ s₁ t₁, decoding SectionKind.read s = .ok raw.kind s₁ ∧
      decoding SectionKind.read t = .ok raw.kind t₁ ∧
      s₁.Before (raw.size ++ (raw.body ++ q)) x y stop k t₁ ∧
      EndAlike x y stop k (readSectionBody env raw.kind s₁) (readSectionBody env raw.kind t₁) ∧
      ∀ u v, readSectionBody env raw.kind s₁ = .ok () u →
        readSectionBody env raw.kind t₁ = .ok () v →
        u.wasm.input = q ++ x ∧ v.wasm.input = q ++ y := by
  have hbytes : raw.bytes ++ q = raw.kind.id :: (raw.size ++ (raw.body ++ q)) := by
    simp [RawSection.bytes]
  rw [hbytes] at h
  obtain ⟨s₁, t₁, hs, ht, h₁⟩ := h.readKind
  obtain ⟨size, s₂, t₂, hs₂, ht₂, hsize, h₂⟩ := h₁.readSize hraw
  have hroom := h₁.room
  have hroom' := h₁.room'
  rw [List.length_append] at hroom hroom'
  refine ⟨s₁, t₁, hs, ht, h₁, ?_, fun u v hu hv => ⟨?_, ?_⟩⟩
  · rw [readSectionBody_of_size hs₂, readSectionBody_of_size ht₂]
    have hstop := h₂.stop_eq
    rw [List.length_append] at hstop
    exact alike_afterSize h₂.like (Or.inl (by omega))
  · refine readSectionBody_input hraw ?_ (by omega) hu
    rw [h₁.input, List.append_assoc, List.append_assoc]
  · refine readSectionBody_input hraw ?_ (by omega) hv
    rw [h₁.input', List.append_assoc, List.append_assoc]

/-- A load reads a list of sections. -/
inductive SectionsRun (env : LoadEnv) :
    LoadState → SectionKind → List RawSection → LoadState → SectionKind → Prop where
  | nil (s : LoadState) (last : SectionKind) : SectionsRun env s last [] s last
  | cons {s s₁ s₂ t : LoadState} {last next last' : SectionKind} {raw : RawSection}
      {raws : List RawSection} : decoding SectionKind.read s = .ok raw.kind s₁ →
      checkOrder last raw.kind = .ok next → readSectionBody env raw.kind s₁ = .ok () s₂ →
      s.wasm.Consumed raw.bytes s₂.wasm → SectionsRun env s₂ next raws t last' →
      SectionsRun env s last (raw :: raws) t last'

theorem Reader.Consumed.of_advances_append {r t : Reader} {bs : List U8} (h : r.Advances t)
    (hinput : r.input = bs ++ t.input) : r.Consumed bs t := by
  refine ⟨hinput, ?_⟩
  have hoffset := h.offset
  rw [hinput, List.length_append] at hoffset
  omega

/-- Whether there is a code section. -/
def hasCode (raws : List RawSection) : Bool := raws.any fun raw => raw.kind = .code

/-- Two loads of binaries with the same first sections fail alike in one of them, or
come to the place where the binaries part in the same state. -/
theorem LoadState.Before.sections {env : LoadEnv} {raws : List RawSection} {last : SectionKind}
    {seen : Bool} {fuel fuel' : ℕ} {s t : LoadState}
    (hraws : ∀ raw ∈ raws, Declares raw.size raw.body.length)
    (h : s.Before (raws.flatMap RawSection.bytes) x y stop k t)
    (hfuel : s.wasm.input.length < fuel) (hfuel' : t.wasm.input.length < fuel') :
    (∃ u v last' n n', SectionsRun env s last raws u last' ∧ u.Before [] x y stop k v ∧
        u.wasm.input.length < n ∧ v.wasm.input.length < n' ∧
        readSections env fuel last seen s = readSections env n last' (seen || hasCode raws) u ∧
        readSections env fuel' last seen t = readSections env n' last' (seen || hasCode raws) v) ∨
      (readSections env fuel last seen s).isOk = false ∧
        (readSections env fuel last seen s).Alike (fun _ _ => True)
          (LoadState.Like (Reader.Between x y stop k)) (readSections env fuel' last seen t) := by
  induction raws generalizing last seen fuel fuel' s t with
  | nil =>
      refine Or.inl ⟨s, t, last, fuel, fuel', .nil s last, h, hfuel, hfuel', ?_, ?_⟩
      · rw [hasCode, List.any_nil, Bool.or_false]
      · rw [hasCode, List.any_nil, Bool.or_false]
  | cons raw raws ih =>
      obtain ⟨fuel, rfl⟩ : ∃ n, fuel = n + 1 := Nat.exists_eq_succ_of_ne_zero (by omega)
      obtain ⟨fuel', rfl⟩ : ∃ n, fuel' = n + 1 := Nat.exists_eq_succ_of_ne_zero (by omega)
      rw [List.flatMap_cons] at h
      obtain ⟨s₁, t₁, hs, ht, h₁, hbody, hinputs⟩ :=
        @section_ _ _ _ _ env _ _ _ _ (hraws raw List.mem_cons_self) h
      cases horder : checkOrder last raw.kind with
      | error e =>
          rw [readSections_of_order hs horder, readSections_of_order ht horder]
          exact Or.inr ⟨rfl, .error trivial h₁.like⟩
      | ok next =>
          rw [readSections_of_kind hs horder, readSections_of_kind ht horder]
          cases hs₂ : readSectionBody env raw.kind s₁ with
          | ok a u =>
              rw [hs₂] at hbody
              generalize ht₂ : readSectionBody env raw.kind t₁ = o' at hbody
              cases hbody with
              | @ok _ _ v huv =>
                obtain ⟨hinput, hinput'⟩ := hinputs u v hs₂ ht₂
                have hlt := sectionKind_consumes hs
                have hlt' := sectionKind_consumes ht
                have hle := (readSectionBody_advances hs₂).length_le
                have hle' := (readSectionBody_advances ht₂).length_le
                rw [bind_of_ok hs₂, bind_of_ok ht₂]
                have hcode : hasCode (raw :: raws) =
                    (decide (raw.kind = .code) || hasCode raws) := rfl
                rw [hcode, ← Bool.or_assoc]
                have hfuel₁ : u.wasm.input.length < fuel := by omega
                have hfuel₁' : v.wasm.input.length < fuel' := by omega
                rcases ih (fun raw' hraw' => hraws raw' (List.mem_cons_of_mem _ hraw'))
                  ⟨huv, hinput, hinput'⟩ hfuel₁ hfuel₁'
                  with ⟨u', v', last', n, n', hrun, h'⟩ | hfail
                · have hconsumed : s.wasm.Consumed raw.bytes u.wasm := by
                    refine .of_advances_append ?_ ?_
                    · exact (advances_sectionKind hs).trans (readSectionBody_advances hs₂)
                    · rw [h.input, hinput, List.append_assoc]
                  exact Or.inl ⟨u', v', last', n, n', .cons hs horder hs₂ hconsumed hrun, h'⟩
                · exact Or.inr hfail
          | error e u =>
              rw [hs₂] at hbody
              generalize ht₂ : readSectionBody env raw.kind t₁ = o' at hbody
              cases hbody with
              | error _ huv =>
                rw [bind_of_error hs₂, bind_of_error ht₂]
                exact Or.inr ⟨rfl, .error trivial huv⟩
          | panic =>
              rw [hs₂] at hbody
              generalize ht₂ : readSectionBody env raw.kind t₁ = o' at hbody
              cases hbody
              rw [bind_apply, bind_apply, hs₂, ht₂]
              exact Or.inr ⟨rfl, .panic⟩
          | diverge =>
              rw [hs₂] at hbody
              generalize ht₂ : readSectionBody env raw.kind t₁ = o' at hbody
              cases hbody
              rw [bind_apply, bind_apply, hs₂, ht₂]
              exact Or.inr ⟨rfl, .diverge⟩

/-! ### The same sections at different offsets -/

theorem between_decoding {x : ReaderM α} (hx : ByteDecoder x) :
    Respects Eq (LoadState.Like (Reader.Between [] [] stop k)) (decoding x) :=
  .zoom (fun _ _ h => h.wasm) (hx.respects (fun _ => rfl) (between_readU8 ⟨rfl, rfl⟩))
    fun _ _ _ _ h h' => ⟨h', h.store, h.code, h.module⟩

theorem respects_sectionBody (env : LoadEnv) (kind : SectionKind) :
    Respects (fun _ _ => True) (LoadState.Like (Reader.Between [] [] stop k))
      (readSectionBody env kind) := by
  refine Lockstep.bind (f := readSectionRest env kind) (g := readSectionRest env kind) ?_ ?_
  · exact .mapError (between_decoding byteDecoder_readU32) fun _ _ _ => trivial
  · exact fun size s t h => alike_afterSize h (Or.inr ⟨rfl, rfl⟩)

/-- Two loads end alike when they stop in front of the same bytes, whatever sections they
have read; else both are in front of a section of the same kind. -/
theorem alike_round (env : LoadEnv) (seen : Bool) {s t : LoadState}
    (h : s.Like (Reader.Between [] [] stop k) t) :
    (∃ kind u v, decoding SectionKind.read s = .ok kind u ∧
      decoding SectionKind.read t = .ok kind v ∧
        u.Like (Reader.Between [] [] stop k) v) ∨
      ∀ last last' fuel fuel', (readSections env (fuel + 1) last seen s).Alike (fun _ _ => True)
        (LoadState.Like (Reader.Between [] [] stop k))
          (readSections env (fuel' + 1) last' seen t) := by
  have hkind := between_decoding byteDecoder_sectionKind s t h
  cases hs : decoding SectionKind.read s with
  | ok kind u =>
      rw [hs] at hkind
      generalize ht : decoding SectionKind.read t = o' at hkind
      cases hkind with
      | ok _ huv => exact Or.inl ⟨kind, u, _, rfl, rfl, huv⟩
  | error e u =>
      rw [hs] at hkind
      generalize ht : decoding SectionKind.read t = o' at hkind
      refine Or.inr fun last last' fuel fuel' => ?_
      cases hkind with
      | error he huv =>
        subst he
        unfold readSections
        rw [hs, ht]
        cases e <;> first | exact .ok seen huv | exact .error trivial huv
  | panic =>
      rw [hs] at hkind
      generalize ht : decoding SectionKind.read t = o' at hkind
      refine Or.inr fun last last' fuel fuel' => ?_
      cases hkind
      unfold readSections
      rw [hs, ht]
      exact .panic
  | diverge =>
      rw [hs] at hkind
      generalize ht : decoding SectionKind.read t = o' at hkind
      refine Or.inr fun last last' fuel fuel' => ?_
      cases hkind
      unfold readSections
      rw [hs, ht]
      exact .diverge

/-- Both loads read the body of a section and go on alike. -/
theorem alike_body {env : LoadEnv} {kind : SectionKind} {f g : DecodeModuleM Bool} {s t : LoadState}
    (h : EndAlike x y stop k (readSectionBody env kind s) (readSectionBody env kind t))
    (hrest : ∀ u v, readSectionBody env kind s = .ok () u → readSectionBody env kind t = .ok () v →
      u.Like (Reader.Between x y stop k) v →
        (f u).Alike (fun _ _ => True) (LoadState.Like (Reader.Between x y stop k)) (g v)) :
    ((readSectionBody env kind >>= fun _ => f) s).Alike (fun _ _ => True)
      (LoadState.Like (Reader.Between x y stop k))
        ((readSectionBody env kind >>= fun _ => g) t) := by
  rw [bind_apply, bind_apply]
  cases hs : readSectionBody env kind s <;> rw [hs] at h <;>
    generalize ht : readSectionBody env kind t = o' at h <;> cases h
  · next huv => exact hrest _ _ hs ht huv
  · next huv => exact .error trivial huv
  · exact .panic
  · exact .diverge

/-- The same sections are read alike, at whatever offset they are. -/
theorem alike_readSections {env : LoadEnv} {last : SectionKind} {seen : Bool} {fuel fuel' : ℕ}
    {s t : LoadState} (h : s.Like (Reader.Between [] [] stop k) t)
    (hfuel : s.wasm.input.length < fuel) (hfuel' : t.wasm.input.length < fuel') :
    (readSections env fuel last seen s).Alike (fun _ _ => True)
      (LoadState.Like (Reader.Between [] [] stop k)) (readSections env fuel' last seen t) := by
  induction fuel generalizing fuel' last seen s t with
  | zero => exact absurd hfuel (Nat.not_lt_zero _)
  | succ fuel ih =>
      obtain ⟨fuel', rfl⟩ : ∃ n, fuel' = n + 1 := Nat.exists_eq_succ_of_ne_zero (by omega)
      rcases alike_round env seen h with ⟨kind, u, v, hs, ht, huv⟩ | hend
      · have hlt := sectionKind_consumes hs
        have hlt' := sectionKind_consumes ht
        cases horder : checkOrder last kind with
        | error e =>
            rw [readSections_of_order hs horder, readSections_of_order ht horder]
            exact .error trivial huv
        | ok next =>
            rw [readSections_of_kind hs horder, readSections_of_kind ht horder]
            refine alike_body (respects_sectionBody env kind u v huv) fun u' v' hu hv huv' => ?_
            have hle := (readSectionBody_advances hu).length_le
            have hle' := (readSectionBody_advances hv).length_le
            exact ih huv' (by omega) (by omega)
      · exact hend _ _ _ _

/-! ### Headers -/

/-- The part of the header that does not read the stream. -/
def checkHeader (name : Name) : DecodeModuleM Unit := do
  let s ← get
  plain (ofExcept (checkName name s.store))
  plain (newVec name.length)

theorem respects_checkHeader {R : Reader → Reader → Prop} (name : Name) :
    Respects (fun _ _ => True) (LoadState.Like R) (checkHeader name) := by
  refine .get_bind fun s t hst => ?_
  rw [hst.store]
  refine .bind ?_ fun _ => ?_
  · exact .mapError (E := AnyError) (Respects.ofExcept (fun _ => trivial) _) fun _ _ _ => trivial
  · exact .mapError (E := AnyError) (respects_newVec (fun _ => trivial) _) fun _ _ _ => trivial

/-- After the bytes of the header its checks are left. -/
theorem readHeader_of_input {name : Name} {s : LoadState} {q : List U8}
    (hinput : s.wasm.input = headerBytes ++ q) (hlimit : s.wasm.offset + 8 ≤ s.wasm.limit) :
    ∃ r, readHeader name s = checkHeader name { s with wasm := r } ∧
      r.view = s.wasm.view.after headerBytes q := by
  have hmagic : s.wasm.input = [0x00, 0x61, 0x73, 0x6D] ++ ([0x01, 0x00, 0x00, 0x00] ++ q) := hinput
  obtain ⟨r₁, hr₁, hview₁⟩ := stripBytes_of_input hmagic (by simpa using by omega)
  obtain ⟨hinput₁, -, hoffset₁, hlimit₁⟩ := Reader.of_after hview₁
  obtain ⟨r₂, hr₂, hview₂⟩ := stripBytes_of_input hinput₁ (by
    rw [hoffset₁, hlimit₁]
    simpa using by omega)
  have hread₁ : plain (decoding (stripBytes 4)) s =
      .ok [0x00, 0x61, 0x73, 0x6D] { s with wasm := r₁ } := plain_eq_ok.2 (zoom_of_ok hr₁)
  have hread₂ : plain (decoding (stripBytes 4)) { s with wasm := r₁ } =
      .ok [0x01, 0x00, 0x00, 0x00] { s with wasm := r₂ } := plain_eq_ok.2 (zoom_of_ok hr₂)
  refine ⟨r₂, ?_, ?_⟩
  · unfold readHeader
    rw [bind_of_ok hread₁, if_neg (by simp), bind_of_ok hread₂, if_neg (by simp)]
    rfl
  · rw [hview₂, hview₁, Reader.View.after_append]
    rfl

theorem checkHeader_eq_ok {name : Name} {s t : LoadState} (h : checkHeader name s = .ok () t) :
    t.wasm = s.wasm ∧ t.module = s.module := by
  unfold checkHeader at h
  rw [bind_of_ok (get_apply s)] at h
  obtain ⟨_, u, hname, h⟩ := bind_eq_ok.1 h
  obtain ⟨-, rfl⟩ := ofExcept_eq_ok.1 (plain_eq_ok.1 hname)
  have hvec := plain_eq_ok.1 h
  exact ⟨(newVec_wasm hvec).symm, (Guarded.ok (quiet_newVec _) (.refl s) hvec).1.module⟩

end SpaceWasm
