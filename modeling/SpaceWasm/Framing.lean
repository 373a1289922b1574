import SpaceWasm.Chunking
import SpaceWasm.Progress

/-!
# The frames of a binary

A binary is a header and a sequence of sections, and a code section is a count and
a sequence of function bodies; both are framed by their sizes. A decoder that
accepts a binary has consumed every section and every body exactly, and a limited
read, whether it succeeds or fails, stays within its limit and restores the one
around it.
-/

namespace SpaceWasm

open Fallible

variable {α : Type}

/-! ### Consumed bytes -/

/-- Between `r` and `t` exactly the bytes `bs` are consumed. -/
structure Reader.Consumed (r : Reader) (bs : List U8) (t : Reader) : Prop where
  input : r.input = bs ++ t.input
  offset : t.offset = r.offset + bs.length

namespace Reader.Consumed

variable {r t u : Reader} {bs cs : List U8}

theorem nil (h : t.view = r.view) : r.Consumed [] t :=
  ⟨(congrArg View.input h).symm, congrArg View.offset h⟩

theorem trans (h : r.Consumed bs t) (h' : t.Consumed cs u) : r.Consumed (bs ++ cs) u := by
  refine ⟨?_, ?_⟩
  · rw [h.input, h'.input, List.append_assoc]
  · rw [h'.offset, h.offset, List.length_append, Nat.add_assoc]

theorem of_advances (h : r.Advances t) : ∃ bs, r.Consumed bs t := by
  obtain ⟨bs, hbs⟩ := h.suffix
  refine ⟨bs, hbs.symm, ?_⟩
  have hoffset := h.offset
  rw [← hbs, List.length_append] at hoffset
  omega

end Reader.Consumed

/-- A decoder that returns consumes some bytes. -/
theorem consumed_decoding {x : ReaderM α} (hx : Decoder x) {s t : LoadState} {a : α}
    (h : decoding x s = .ok a t) : ∃ bs, s.wasm.Consumed bs t.wasm := by
  obtain ⟨r, hr, rfl⟩ := zoom_eq_ok.1 h
  have hread := hx.reads.apply s.wasm
  rw [hr] at hread
  exact Reader.Consumed.of_advances hread

theorem consumed_readU8 {r t : Reader} {b : U8} (h : readU8 r = .ok b t) : r.Consumed [b] t := by
  rcases readU8_apply r with ⟨-, hr⟩ | ⟨-, -, r', hr, -⟩ | ⟨-, c, cs, r', hinput, hr, hview⟩
  · cases hr.symm.trans h
  · cases hr.symm.trans h
  · cases hr.symm.trans h
    exact ⟨hinput.trans (congrArg (b :: ·) (congrArg Reader.View.input hview).symm),
      congrArg Reader.View.offset hview⟩

/-- The bytes that `strip_bytes` returns are those it consumes. -/
theorem consumed_stripBytes {n : ℕ} {r t : Reader} {bs : List U8} (h : stripBytes n r = .ok bs t) :
    r.Consumed bs t := by
  induction n generalizing r bs with
  | zero =>
      cases h
      exact .nil rfl
  | succ n ih =>
      unfold stripBytes at h
      rw [collect_succ] at h
      obtain ⟨b, u, hb, h⟩ := bind_eq_ok.1 h
      obtain ⟨cs, v, hcs, h⟩ := bind_eq_ok.1 h
      cases h
      exact (consumed_readU8 hb).trans (ih hcs)

/-! ### Sections and bodies -/

/-- The bytes `bs` are a `u32` with the value `n`. -/
def Declares (bs : List U8) (n : ℕ) : Prop :=
  ∃ r v t, readU32 r = .ok v t ∧ r.Consumed bs t ∧ v.toNat = n

/-- An entry of a code section: the bytes of its size, and its body. -/
structure RawBody where
  size : List U8
  body : List U8

/-- A section: its kind, the bytes of its size, its body and, for a code section, the
entries of the body. -/
structure RawSection where
  kind : SectionKind
  size : List U8
  body : List U8
  entries : List RawBody

def RawBody.bytes (e : RawBody) : List U8 := e.size ++ e.body

/-- The id byte of a kind of section. -/
def SectionKind.id (kind : SectionKind) : U8 := BitVec.ofNat 8 kind.toNat

def RawSection.bytes (raw : RawSection) : List U8 := raw.kind.id :: (raw.size ++ raw.body)

/-- The entry has exactly its declared size. -/
def RawBody.Framed (e : RawBody) : Prop := Declares e.size e.body.length

/-- The section has exactly its declared size, and so has each entry of a code section,
which are as many as it says. -/
structure RawSection.Framed (raw : RawSection) : Prop where
  size : Declares raw.size raw.body.length
  entries : raw.kind = .code → ∃ count, Declares count raw.entries.length ∧
    raw.body = count ++ raw.entries.flatMap RawBody.bytes
  framed : ∀ e ∈ raw.entries, e.Framed
  others : raw.kind ≠ .code → raw.entries = []

theorem declares_of_decoding {s t : LoadState} {n : U32} (h : decoding readU32 s = .ok n t) :
    ∃ bs, Declares bs n.toNat ∧ s.wasm.Consumed bs t.wasm := by
  obtain ⟨bs, hbs⟩ := consumed_decoding decoder_readU32 h
  obtain ⟨r, hr, rfl⟩ := zoom_eq_ok.1 h
  exact ⟨bs, ⟨s.wasm, n, r, hr, hbs, rfl⟩, hbs⟩

theorem consumed_sectionKind {s t : LoadState} {kind : SectionKind}
    (h : decoding SectionKind.read s = .ok kind t) : s.wasm.Consumed [kind.id] t.wasm := by
  obtain ⟨r, hr, rfl⟩ := zoom_eq_ok.1 h
  obtain ⟨id, r', hread, hr⟩ := bind_eq_ok.1 hr
  obtain ⟨hkind, rfl⟩ := ofExcept_eq_ok.1 hr
  have hid : id = kind.id := by
    unfold SectionKind.convert at hkind
    split at hkind <;> first
      | cases hkind
        exact BitVec.eq_of_toNat_eq (by simpa [SectionKind.id, SectionKind.toNat])
      | cases hkind
  rw [← hid]
  exact consumed_readU8 hread

/-! ### Function bodies -/

/-- A limited run that returns, its start and its end. -/
theorem withLimit_eq_ok {ε σ : Type} {view : σ → Reader} {update : σ → Reader → σ}
    {inject : ValidationError → ε} {n : ℕ} {x : Fallible ε σ α} {s t : σ} {a : α}
    (h : withLimit view update inject n x s = .ok a t) :
    (view s).offset + n ≤ (view s).limit ∧
      ∃ u, x (update s { view s with limit := (view s).offset + n }) = .ok a u ∧
        t = update u { view u with limit := (view s).limit } := by
  unfold withLimit at h
  simp only at h
  by_cases hn : (view s).offset + n ≤ usizeMax ∧ (view s).offset + n ≤ (view s).limit
  · rw [if_pos hn] at h
    generalize hr : x _ = o at h
    cases o with
    | ok b u =>
        cases h
        exact ⟨hn.2, u, rfl, rfl⟩
    | error | panic | diverge => cases h
  · rw [if_neg hn] at h
    cases h

/-- A limited quiet step consumes at most its limit. -/
theorem consumed_limited {P : LoadState → α → Prop} {x : LoadM α} (hx : ∀ s, Quiet s x (P s))
    {n : ℕ}
    {s t : LoadState} {a : α} (h : limited n x s = .ok a t) :
    ∃ bs, s.wasm.Consumed bs t.wasm ∧ bs.length ≤ n := by
  obtain ⟨hn, u, hr, rfl⟩ := withLimit_eq_ok h
  have hadvance := (Guarded.ok (hx (s.enter n)) (.refl _) hr).1.wasm
  obtain ⟨bs, hbs⟩ := Reader.Consumed.of_advances hadvance
  refine ⟨bs, ⟨hbs.input, hbs.offset⟩, ?_⟩
  have hwithin := hadvance.within
  have hoffset := hbs.offset
  simp only [LoadState.enter] at hwithin hoffset
  omega

/-- An entry of a code section is consumed to its declared size. -/
theorem consumed_readFunctionCode {env : LoadEnv} {i : ℕ} {s t : LoadState}
    (h : readFunctionCode env i s = .ok () t) :
    ∃ e : RawBody, e.Framed ∧ s.wasm.Consumed e.bytes t.wasm := by
  obtain ⟨size, s₁, hsize, h⟩ := bind_eq_ok.1 h
  obtain ⟨start, _, hstart, h⟩ := bind_eq_ok.1 h
  cases hstart
  obtain ⟨_, _, hget, h⟩ := bind_eq_ok.1 h
  cases hget
  obtain ⟨f, _, hf, h⟩ := bind_eq_ok.1 h
  obtain ⟨-, rfl⟩ := unwrap_eq_ok.1 hf
  obtain ⟨_, s₂, hset, h⟩ := bind_eq_ok.1 h
  cases hset
  obtain ⟨g, s₃, hbody, h⟩ := bind_eq_ok.1 h
  obtain ⟨sizeBytes, hdeclares, hsizeBytes⟩ := declares_of_decoding hsize
  obtain ⟨body, hconsumed, hle⟩ := consumed_limited (fun s => quiet_functionBody env _) hbody
  by_cases hstack : 0xFFFF < 2 + g.localSize + g.stackUsage
  · rw [if_pos hstack] at h
    cases h
  · rw [if_neg hstack] at h
    obtain ⟨_, s₄, hset, h⟩ := bind_eq_ok.1 h
    cases hset
    obtain ⟨stop, _, hstop, h⟩ := bind_eq_ok.1 h
    cases hstop
    by_cases hexact : (s₃.wasm.offset - s₁.wasm.offset) % 2 ^ 32 ≠ size.toNat
    · rw [if_pos hexact] at h
      cases h
    · rw [if_neg hexact] at h
      cases h
      -- the difference is below 2^32, so that the comparison is exact
      have hlength : body.length = size.toNat := by
        have hoffset : s₃.wasm.offset = s₁.wasm.offset + body.length := hconsumed.offset
        have hlt := size.isLt
        have hmod := Decidable.not_not.1 hexact
        rw [hoffset, Nat.add_sub_cancel_left, Nat.mod_eq_of_lt (by omega)] at hmod
        exact hmod
      refine ⟨⟨sizeBytes, body⟩, ?_, hsizeBytes.trans hconsumed⟩
      rw [RawBody.Framed, hlength]
      exact hdeclares

theorem consumed_readFunctionCodes {env : LoadEnv} {n i : ℕ} {s t : LoadState}
    (h : readFunctionCodes env n i s = .ok () t) :
    ∃ entries : List RawBody, entries.length = n ∧ (∀ e ∈ entries, e.Framed) ∧
      s.wasm.Consumed (entries.flatMap RawBody.bytes) t.wasm := by
  induction n generalizing i s with
  | zero =>
      cases h
      exact ⟨[], rfl, nofun, .nil rfl⟩
  | succ n ih =>
      obtain ⟨_, u, hr, h⟩ := bind_eq_ok.1 h
      obtain ⟨e, he, hconsumed⟩ := consumed_readFunctionCode hr
      obtain ⟨entries, hlength, hframed, hrest⟩ := ih h
      refine ⟨e :: entries, by rw [List.length_cons, hlength], ?_, ?_⟩
      · rintro e' he'
        rcases List.mem_cons.1 he' with rfl | he'
        · exact he
        · exact hframed e' he'
      · rw [List.flatMap_cons]
        exact hconsumed.trans hrest

/-- A code section has as many entries as the module has functions. -/
theorem consumed_readCodeSection {env : LoadEnv} {s t : LoadState}
    (h : readCodeSection env s = .ok () t) :
    ∃ (count : List U8) (entries : List RawBody), Declares count entries.length ∧
      entries.length = s.module.functions.length ∧ (∀ e ∈ entries, e.Framed) ∧
        s.wasm.Consumed (count ++ entries.flatMap RawBody.bytes) t.wasm := by
  obtain ⟨n, s₁, hn, h⟩ := bind_eq_ok.1 h
  obtain ⟨_, _, hget, h⟩ := bind_eq_ok.1 h
  cases hget
  by_cases hcount : n.toNat ≠ s₁.module.functions.length
  · rw [if_pos hcount] at h
    cases h
  · rw [if_neg hcount] at h
    obtain ⟨count, hdeclares, hconsumed⟩ := declares_of_decoding hn
    obtain ⟨entries, hlength, hframed, hrest⟩ := consumed_readFunctionCodes h
    obtain ⟨r, -, rfl⟩ := zoom_eq_ok.1 hn
    refine ⟨count, entries, hlength ▸ hdeclares, ?_, hframed, hconsumed.trans hrest⟩
    exact hlength.trans (Decidable.not_not.1 hcount)

/-! ### The sequence of sections -/

theorem plain_eq_ok {x : LoadM α} {s t : LoadState} {a : α} :
    plain x s = .ok a t ↔ x s = .ok a t :=
  mapError_eq_ok

/-- The body of a section that is accepted. -/
theorem readSectionBody_eq_ok {env : LoadEnv} {kind : SectionKind} {s t : LoadState}
    (h : readSectionBody env kind s = .ok () t) :
    ∃ size s₁ u, decoding readU32 s = .ok size s₁ ∧
      s₁.wasm.offset + size.toNat ≤ s₁.wasm.limit ∧
      readSection env size.toNat kind (s₁.enter size.toNat) = .ok () u ∧ t = s₁.leave u ∧
        u.wasm.offset - s₁.wasm.offset = size.toNat := by
  obtain ⟨size, s₁, hsize, h⟩ := bind_eq_ok.1 h
  obtain ⟨start, _, hstart, h⟩ := bind_eq_ok.1 h
  cases hstart
  obtain ⟨_, s₂, hlimit, h⟩ := bind_eq_ok.1 h
  obtain ⟨stop, _, hstop, h⟩ := bind_eq_ok.1 h
  cases hstop
  obtain ⟨hn, u, hr, rfl⟩ := withLimit_eq_ok hlimit
  by_cases hexact : u.wasm.offset - s₁.wasm.offset ≠ size.toNat
  · rw [if_pos hexact] at h
    cases h
  · rw [if_neg hexact] at h
    cases h
    exact ⟨size, s₁, u, plain_eq_ok.1 hsize, hn, mapError_eq_ok.1 hr, rfl,
      Decidable.not_not.1 hexact⟩

theorem readSection_advances {env : LoadEnv} {size : ℕ} {kind : SectionKind} {s t : LoadState}
    (h : readSection env size kind s = .ok () t) : s.wasm.Advances t.wasm :=
  (Guarded.ok (readSection_frame (W := .all) env size
    (LoadState.sectionWrites_all env kind s)) rfl h).1.wasm

/-- The body of a section is consumed to its declared size. -/
theorem consumed_readSectionBody {env : LoadEnv} {kind : SectionKind} {s t : LoadState}
    (h : readSectionBody env kind s = .ok () t) :
    ∃ raw : RawSection, raw.kind = kind ∧ raw.Framed ∧
      s.wasm.Consumed (raw.size ++ raw.body) t.wasm ∧
        (kind = .code → raw.entries.length = s.module.functions.length) := by
  obtain ⟨size, s₁, u, hsize, -, hr, rfl, hexact⟩ := readSectionBody_eq_ok h
  obtain ⟨sizeBytes, hdeclares, hsizeBytes⟩ := declares_of_decoding hsize
  have hmodule : s₁.module = s.module := by
    obtain ⟨r, -, rfl⟩ := zoom_eq_ok.1 hsize
    rfl
  by_cases hcode : kind = .code
  · subst hcode
    obtain ⟨count, entries, hcount, hlength, hframed, hconsumed⟩ := consumed_readCodeSection hr
    have hbody : s₁.wasm.Consumed (count ++ entries.flatMap RawBody.bytes) (s₁.leave u).wasm :=
      ⟨hconsumed.input, hconsumed.offset⟩
    refine ⟨⟨.code, sizeBytes, _, entries⟩, rfl, ⟨?_, fun _ => ⟨count, hcount, rfl⟩, hframed,
      fun h => absurd rfl h⟩, hsizeBytes.trans hbody, fun _ => hlength.trans ?_⟩
    · have hoffset : u.wasm.offset = s₁.wasm.offset + _ := hconsumed.offset
      rw [hoffset, Nat.add_sub_cancel_left] at hexact
      rw [hexact]
      exact hdeclares
    · exact congrArg (fun m : Module => m.functions.length) hmodule
  · obtain ⟨body, hconsumed⟩ := Reader.Consumed.of_advances (readSection_advances hr)
    have hbody : s₁.wasm.Consumed body (s₁.leave u).wasm := ⟨hconsumed.input, hconsumed.offset⟩
    refine ⟨⟨kind, sizeBytes, body, []⟩, rfl, ⟨?_, fun h => absurd h hcode, nofun, fun _ => rfl⟩,
      hsizeBytes.trans hbody, fun h => absurd h hcode⟩
    have hoffset : u.wasm.offset = s₁.wasm.offset + _ := hconsumed.offset
    rw [hoffset, Nat.add_sub_cancel_left] at hexact
    rw [hexact]
    exact hdeclares

/-- The stream is at its end, or as far as an offset goes. -/
def Reader.AtEnd (r : Reader) : Prop := r.input = [] ∨ r.limit ≤ r.offset

/-- The loop over the sections stops when there is no byte to read. -/
theorem atEnd_of_eof {s t : LoadState} (h : decoding SectionKind.read s = .error .eof t) :
    s.wasm.Consumed [] t.wasm ∧ t.wasm.AtEnd ∧ t.module = s.module := by
  unfold decoding zoom SectionKind.read at h
  rw [bind_apply] at h
  rcases readU8_apply s.wasm with ⟨hlimit, hr⟩ | ⟨-, hinput, r', hr, hview⟩ |
      ⟨-, b, bs, r', -, hr, -⟩
  · rw [hr] at h
    cases h
    exact ⟨.nil rfl, Or.inr hlimit, rfl⟩
  · rw [hr] at h
    injection h with he ht
    subst ht
    exact ⟨.nil hview, Or.inl ((congrArg Reader.View.input hview).trans hinput), rfl⟩
  · rw [hr] at h
    simp only at h
    cases hkind : SectionKind.convert b with
    | ok kind =>
        rw [hkind] at h
        cases h
    | error e =>
        rw [hkind] at h
        injection h with he
        subst he
        unfold SectionKind.convert at hkind
        split at hkind <;> cases hkind

/-- Sections that are not custom come in the order of their kinds, each at most once. -/
def InOrder (raws : List RawSection) : Prop :=
  ((raws.map RawSection.kind).filter fun kind => kind ≠ .custom).Pairwise fun kind next =>
    kind.toNat < next.toNat

/-- The sections of a run of the loop that starts after a section of kind `last`. -/
structure FramedRun (last : SectionKind) (seenCode : Bool) (s : LoadState) (raws : List RawSection)
    (result : Bool) (t : LoadState) : Prop where
  consumed : s.wasm.Consumed (raws.flatMap RawSection.bytes) t.wasm
  atEnd : t.wasm.AtEnd
  framed : ∀ raw ∈ raws, raw.Framed
  order : InOrder raws
  after : ∀ raw ∈ raws, raw.kind ≠ .custom → last.toNat < raw.kind.toNat
  seen : result = (seenCode || raws.any fun raw => raw.kind = .code)
  functions : SectionKind.function.toNat ≤ last.toNat →
    t.module.functions.length = s.module.functions.length
  entries : (∃ raw ∈ raws, raw.kind = .code) →
    (raws.flatMap RawSection.entries).length = t.module.functions.length

theorem checkOrder_le {last kind next : SectionKind} (h : checkOrder last kind = .ok next) :
    last.toNat ≤ next.toNat := by
  obtain ⟨-, rfl⟩ | ⟨-, hlt, rfl⟩ := checkOrder_eq_ok.1 h
  · exact Nat.le_refl _
  · exact Nat.le_of_lt hlt

theorem FramedRun.nil {last : SectionKind} {seenCode : Bool} {s t : LoadState}
    (h : decoding SectionKind.read s = .error .eof t) :
    FramedRun last seenCode s [] seenCode t := by
  obtain ⟨hconsumed, hend, hmodule⟩ := atEnd_of_eof h
  exact ⟨hconsumed, hend, nofun, List.Pairwise.nil, nofun, by simp,
    fun _ => by rw [hmodule], by simp⟩

/-- A section in front of a run. -/
theorem FramedRun.cons {env : LoadEnv} {last kind next : SectionKind} {seenCode result : Bool}
    {raws : List RawSection} {s u v t : LoadState} (hr : decoding SectionKind.read s = .ok kind u)
    (horder : checkOrder last kind = .ok next) (hbody : readSectionBody env kind u = .ok () v)
    (h : FramedRun next (seenCode || decide (kind = .code)) v raws result t) :
    ∃ raw, FramedRun last seenCode s (raw :: raws) result t := by
  obtain ⟨raw, rfl, hframed, hconsumed, hentries⟩ := consumed_readSectionBody hbody
  have hwithin := Guarded.ok (readSectionBody_frame (W := .all) env fun _ _ _ =>
    LoadState.sectionWrites_all env raw.kind _) rfl hbody
  have hmodule : u.module = s.module := by
    obtain ⟨r, -, rfl⟩ := zoom_eq_ok.1 hr
    rfl
  have hlength : raw.kind ≠ .function →
      v.module.functions.length = s.module.functions.length := by
    intro hkind
    rw [← hmodule]
    simpa using congrArg List.length (hwithin.module.decls hkind)
  refine ⟨raw, ?_, h.atEnd, ?_, ?_, ?_, ?_, ?_, ?_⟩
  · rw [List.flatMap_cons]
    exact ((consumed_sectionKind hr).trans hconsumed).trans h.consumed
  · rintro raw' hraw'
    rcases List.mem_cons.1 hraw' with rfl | hraw'
    · exact hframed
    · exact h.framed raw' hraw'
  · by_cases hcustom : raw.kind = .custom
    · simpa [InOrder, hcustom] using h.order
    · obtain ⟨hcustom', -⟩ | ⟨-, -, rfl⟩ := checkOrder_eq_ok.1 horder
      · exact absurd hcustom' hcustom
      · rw [InOrder, List.map_cons, List.filter_cons_of_pos (by simpa using hcustom)]
        refine List.Pairwise.cons (fun kind hkind => ?_) h.order
        obtain ⟨hmem, hkind⟩ := List.mem_filter.1 hkind
        obtain ⟨raw', hraw', rfl⟩ := List.mem_map.1 hmem
        exact h.after raw' hraw' (by simpa using hkind)
  · rintro raw' hraw' hcustom
    rcases List.mem_cons.1 hraw' with rfl | hraw'
    · obtain ⟨hcustom', -⟩ | ⟨-, hlt, -⟩ := checkOrder_eq_ok.1 horder
      · exact absurd hcustom' hcustom
      · exact hlt
    · exact Nat.lt_of_le_of_lt (checkOrder_le horder) (h.after raw' hraw' hcustom)
  · rw [h.seen, List.any_cons, Bool.or_assoc]
  · intro hlast
    rw [h.functions (Nat.le_trans hlast (checkOrder_le horder)), hlength]
    intro hkind
    obtain ⟨hcustom, -⟩ | ⟨-, hlt, -⟩ := checkOrder_eq_ok.1 horder
    · rw [hkind] at hcustom
      cases hcustom
    · rw [hkind] at hlt
      exact absurd hlt (Nat.not_lt.2 hlast)
  · rintro ⟨raw', hraw', hcode⟩
    rw [List.flatMap_cons, List.length_append]
    by_cases hkind : raw.kind = .code
    · obtain ⟨hcustom, -⟩ | ⟨-, -, rfl⟩ := checkOrder_eq_ok.1 horder
      · rw [hkind] at hcustom
        cases hcustom
      · have hrest : raws.flatMap RawSection.entries = [] := by
          refine List.flatMap_eq_nil_iff.2 fun raw' hraw' =>
            (h.framed raw' hraw').others fun hcode => ?_
          have hlt := h.after raw' hraw' (by rw [hcode]; decide)
          rw [hcode, hkind] at hlt
          exact Nat.lt_irrefl _ hlt
        rw [hrest, List.length_nil, Nat.add_zero, hentries hkind,
          h.functions (by rw [hkind]; decide), hlength (by rw [hkind]; decide), hmodule]
    · rw [hframed.others hkind, List.length_nil, Nat.zero_add]
      refine h.entries ⟨raw', ?_, hcode⟩
      rcases List.mem_cons.1 hraw' with rfl | hraw'
      · exact absurd hcode hkind
      · exact hraw'

theorem consumed_readSections {env : LoadEnv} {fuel : ℕ} {last : SectionKind}
    {seenCode result : Bool}
    {s t : LoadState} (h : readSections env fuel last seenCode s = .ok result t) :
    ∃ raws, FramedRun last seenCode s raws result t := by
  induction fuel generalizing last seenCode s with
  | zero => cases h
  | succ fuel ih =>
      unfold readSections at h
      cases hr : decoding SectionKind.read s with
      | error e u =>
          rw [hr] at h
          cases e <;> first | (cases h; done) | skip
          cases h
          exact ⟨[], .nil hr⟩
      | panic =>
          rw [hr] at h
          cases h
      | diverge =>
          rw [hr] at h
          cases h
      | ok kind u =>
          rw [hr] at h
          obtain ⟨next, u', horder, h⟩ := bind_eq_ok.1 h
          obtain ⟨hnext, rfl⟩ := ofExcept_eq_ok.1 (plain_eq_ok.1 horder)
          obtain ⟨_, v, hbody, h⟩ := bind_eq_ok.1 h
          obtain ⟨raws, hraws⟩ := ih h
          obtain ⟨raw, hraw⟩ := FramedRun.cons hr hnext hbody hraws
          exact ⟨raw :: raws, hraw⟩

/-! ### Limits -/

/-- A limited read of `n` bytes that starts in `s` stays within them, and the limit
around it is restored. -/
def LoadState.StaysWithin {ε : Type} (s : LoadState) (n : ℕ) : Outcome ε LoadState α → Prop
  | .ok _ t => t.wasm.offset ≤ s.wasm.offset + n ∧ t.wasm.limit = s.wasm.limit
  | .error _ t => t.wasm.offset ≤ s.wasm.offset + n ∧ t.wasm.limit = s.wasm.limit
  | .panic => True
  | .diverge => True

/-- A step that only advances the stream, whether it succeeds or fails. -/
def Advancing {ε : Type} (x : Fallible ε LoadState α) : Prop := ∀ s,
  match x s with
  | .ok _ t => s.wasm.Advances t.wasm
  | .error _ t => s.wasm.Advances t.wasm
  | .panic => True
  | .diverge => True

section Advancing

variable {β ε ε' : Type}

theorem Advancing.pure (a : α) : Advancing (Pure.pure a : Fallible ε LoadState α) :=
  fun s => .refl s.wasm

theorem Advancing.throw (e : ε) : Advancing (Fallible.throw e : Fallible ε LoadState α) :=
  fun s => .refl s.wasm

theorem Advancing.bind {x : Fallible ε LoadState α} {f : α → Fallible ε LoadState β}
    (hx : Advancing x) (hf : ∀ a, Advancing (f a)) : Advancing (x >>= f) := by
  intro s
  have h := hx s
  rw [bind_apply]
  cases hr : x s <;> rw [hr] at h
  · next a t =>
    have h' := hf a t
    simp only at h h' ⊢
    cases hr' : f a t <;> rw [hr'] at h'
    · exact h.trans h'
    · exact h.trans h'
    · trivial
    · trivial
  · exact h
  · trivial
  · trivial

theorem Advancing.ite {p : Prop} [Decidable p] {x y : Fallible ε LoadState α} (hx : Advancing x)
    (hy : Advancing y) : Advancing (if p then x else y) := by
  split
  · exact hx
  · exact hy

theorem Advancing.gets (f : LoadState → α) : Advancing (Fallible.gets f : Fallible ε LoadState α) :=
  fun s => .refl s.wasm

theorem Advancing.collect {x : Fallible ε LoadState α} (hx : Advancing x) (n : ℕ) :
    Advancing (Fallible.collect n x) := by
  induction n with
  | zero => exact .pure []
  | succ n ih => exact .bind hx fun a => .bind ih fun as => .pure (a :: as)

theorem Advancing.mapError {f : ε → ε'} {x : Fallible ε LoadState α} (hx : Advancing x) :
    Advancing (Fallible.mapError f x) := by
  intro s
  have h := hx s
  unfold Fallible.mapError
  cases hr : x s <;> rw [hr] at h
  · exact h
  · exact h
  · trivial
  · trivial

theorem Advancing.quiet {P : LoadState → α → Prop} {x : LoadM α} (h : ∀ s, Quiet s x (P s)) :
    Advancing x := by
  intro s
  have hs := h s s (.refl s)
  cases hr : x s <;> rw [hr] at hs
  · exact hs.1.wasm
  · exact hs.wasm
  · trivial
  · trivial

theorem Advancing.section_ (env : LoadEnv) (size : ℕ) (kind : SectionKind) :
    Advancing (readSection env size kind) := by
  intro s
  have hs := readSection_frame env size (LoadState.sectionWrites_all env kind s) s rfl
  cases hr : readSection env size kind s <;> rw [hr] at hs
  · exact hs.1.wasm
  · exact hs.wasm
  · trivial
  · trivial

theorem Advancing.decoding {x : ReaderM α} (hx : Decoder x) : Advancing (decoding x) :=
  .quiet fun _ => quiet_decoding hx

/-- A limited read stays within its limit. -/
theorem Advancing.staysWithin {x : Fallible ε LoadState α} (hx : Advancing x)
    (inject : ValidationError → ε) (n : ℕ) (s : LoadState) :
    s.StaysWithin n
      (withLimit LoadState.wasm (fun s wasm => { s with wasm := wasm }) inject n x s) := by
  unfold withLimit
  simp only
  by_cases hn : s.wasm.offset + n ≤ usizeMax ∧ s.wasm.offset + n ≤ s.wasm.limit
  · rw [if_pos hn]
    have h := hx (s.enter n)
    unfold LoadState.enter at h
    have hwithin : ∀ t : LoadState,
        ({ s.wasm with limit := s.wasm.offset + n } : Reader).Advances t.wasm →
          t.wasm.offset ≤ s.wasm.offset + n := by
      intro t ht
      have hle := ht.within
      simp only at hle
      omega
    cases hr : x _ <;> rw [hr] at h
    · next a t => exact ⟨hwithin t h, rfl⟩
    · next e t => exact ⟨hwithin t h, rfl⟩
    · trivial
    · trivial
  · rw [if_neg hn]
    exact ⟨Nat.le_add_right _ _, rfl⟩

theorem Advancing.limited {x : LoadM α} (hx : Advancing x) (n : ℕ) : Advancing (limited n x) := by
  intro s
  unfold SpaceWasm.limited withLimit
  simp only
  by_cases hn : s.wasm.offset + n ≤ usizeMax ∧ s.wasm.offset + n ≤ s.wasm.limit
  · rw [if_pos hn]
    have h := hx (s.enter n)
    unfold LoadState.enter at h
    cases hr : x _ <;> rw [hr] at h
    · exact h.limited hn.2
    · exact h.limited hn.2
    · trivial
    · trivial
  · rw [if_neg hn]
    exact .refl s.wasm

end Advancing

/-- Every client of the reader advances it, and restores its limit. -/
theorem Program.advancing (p : Program α) : Advancing p.run := by
  induction p with
  | pure a => exact .pure a
  | throw e => exact .throw e
  | offset => exact .gets _
  | readU8 => exact .decoding .readU8
  | expectU8 expected => exact .decoding (.expectU8 expected)
  | stripBytes n => exact .decoding (decoder_stripBytes n)
  | readU32 => exact .decoding decoder_readU32
  | readI32 => exact .decoding decoder_readI32
  | readI64 => exact .decoding decoder_readI64
  | skip n => exact .decoding (decoder_skip n)
  | readVecIn element ih =>
      refine .bind (.decoding decoder_readU32) fun len => .bind (.gets _) fun remaining => ?_
      exact .ite (.throw _) (.bind (.quiet fun _ => quiet_newVec _) fun _ => .collect ih _)
  | readVecStack size element ih =>
      refine .bind (.decoding decoder_readU32) fun len => .bind (.gets _) fun remaining => ?_
      exact .ite (.throw _) (.collect ih _)
  | withLimit n body ih => exact .limited ih n
  | bind x f ihx ihf => exact .bind ihx ihf
  | attempt x ih =>
      intro s
      have h := ih s
      unfold Program.run SpaceWasm.attempt
      cases hr : x.run s <;> rw [hr] at h
      · exact h
      · exact h
      · trivial
      · trivial

/-! ### Framing -/

/-- The magic number and the version. -/
def headerBytes : List U8 := [0x00, 0x61, 0x73, 0x6D, 0x01, 0x00, 0x00, 0x00]

theorem newVec_wasm {n : ℕ} {s t : LoadState} (h : newVec n s = .ok () t) : s.wasm = t.wasm := by
  unfold newVec at h
  split at h
  · obtain ⟨c, -, rfl⟩ := zoom_eq_ok.1 h
    rfl
  · cases h
    rfl

theorem consumed_readHeader {name : Name} {s t : LoadState} (h : readHeader name s = .ok () t) :
    s.wasm.Consumed headerBytes t.wasm := by
  obtain ⟨magic, s₁, hmagic, h⟩ := bind_eq_ok.1 h
  obtain ⟨r₁, hr₁, rfl⟩ := zoom_eq_ok.1 (plain_eq_ok.1 hmagic)
  have h₁ := consumed_stripBytes hr₁
  by_cases hm : magic ≠ [0x00, 0x61, 0x73, 0x6D]
  · rw [if_pos hm] at h
    cases h
  · rw [if_neg hm] at h
    obtain ⟨version, s₂, hversion, h⟩ := bind_eq_ok.1 h
    obtain ⟨r₂, hr₂, rfl⟩ := zoom_eq_ok.1 (plain_eq_ok.1 hversion)
    have h₂ := consumed_stripBytes hr₂
    by_cases hv : version ≠ [0x01, 0x00, 0x00, 0x00]
    · rw [if_pos hv] at h
      cases h
    · rw [if_neg hv] at h
      rw [Decidable.not_not.1 hm] at h₁
      rw [Decidable.not_not.1 hv] at h₂
      obtain ⟨_, _, hget, h⟩ := bind_eq_ok.1 h
      cases hget
      obtain ⟨_, _, hname, h⟩ := bind_eq_ok.1 h
      obtain ⟨-, rfl⟩ := ofExcept_eq_ok.1 (plain_eq_ok.1 hname)
      have hvec : _ = t.wasm := newVec_wasm (plain_eq_ok.1 h)
      rw [← hvec]
      exact h₁.trans h₂

/-- The frames of a stream that a load accepts. -/
theorem framed_of_new {env : LoadEnv} {name : Name} {stream : WasmStream} {t u : LoadTarget}
    {m : Module} (h : Module.new env name (Reader.new stream) t = .ok m u) :
    ∃ raws : List RawSection,
      stream.bytes.take usizeMax = headerBytes ++ raws.flatMap RawSection.bytes ∧
        (∀ raw ∈ raws, raw.Framed) ∧ InOrder raws ∧
          m.functions.length = (raws.flatMap RawSection.entries).length := by
  obtain ⟨s₁, seenCode, s₂, hheader, hsections, hnone, rfl, rfl⟩ := Module.new_eq_ok h
  obtain ⟨raws, hraws⟩ := consumed_readSections hsections
  have hconsumed := (consumed_readHeader hheader).trans hraws.consumed
  have hwasm : (Reader.new stream).Advances s₂.wasm :=
    (Guarded.ok (readHeader_frame name) rfl hheader).wasm.trans
      (Guarded.ok (readSections_frame env _ .custom false (Nat.lt_succ_self _)
        (LoadState.loadWrites_all env .custom s₁)) rfl hsections).wasm
  refine ⟨raws, ?_, hraws.framed, hraws.order, ?_⟩
  · have hinput : stream.bytes = headerBytes ++ raws.flatMap RawSection.bytes ++ s₂.wasm.input :=
      hconsumed.input
    have hoffset : s₂.wasm.offset =
        0 + (headerBytes ++ raws.flatMap RawSection.bytes).length := hconsumed.offset
    have hwithin := hwasm.within
    have hlimit : s₂.wasm.limit = usizeMax := hwasm.limit
    change _ ≤ max 0 usizeMax at hwithin
    rw [hinput]
    rcases hraws.atEnd with hend | hend
    · rw [hend, List.append_nil, List.take_of_length_le (by omega)]
    · rw [hlimit] at hend
      exact List.take_left' (by omega)
  · by_cases hcode : ∃ raw ∈ raws, raw.kind = .code
    · exact (hraws.entries hcode).symm
    · have hentries : raws.flatMap RawSection.entries = [] :=
        List.flatMap_eq_nil_iff.2 fun raw hraw =>
          (hraws.framed raw hraw).others fun h => hcode ⟨raw, hraw, h⟩
      have hseen : seenCode = false := by
        rw [hraws.seen, Bool.false_or, List.any_eq_false]
        exact fun raw hraw h => hcode ⟨raw, hraw, by simpa using h⟩
      rw [hentries, hnone hseen]
      rfl

/-- Framing is exact. A stream that a load accepts is the header and a sequence of
sections in order, each of its declared size, and so are the function bodies of the
code section, one for each declared function. Whether it is accepted or not, a read
limited to a section or to a body, however limits are nested, stays within it and
restores the limit around it. -/
theorem framing_exact :
    (∀ env name stream t m u, Module.new env name (Reader.new stream) t = .ok m u →
        ∃ raws : List RawSection,
          stream.bytes.take usizeMax = headerBytes ++ raws.flatMap RawSection.bytes ∧
            (∀ raw ∈ raws, raw.Framed) ∧ InOrder raws ∧
              m.functions.length = (raws.flatMap RawSection.entries).length) ∧
      (∀ env kind size (s : LoadState), s.StaysWithin size
        (withLimit LoadState.wasm (fun s wasm => { s with wasm := wasm })
          ValidationError.toSectionDecodeError size
          (mapError (fun e => e.withSection kind) (readSection env size kind)) s)) ∧
      (∀ env f size (s : LoadState),
        s.StaysWithin size (limited size (readFunctionBody env f) s)) ∧
      ∀ {α : Type} (p : Program α) n (s : LoadState), s.StaysWithin n (limited n p.run s) := by
  refine ⟨fun _ _ _ _ _ _ h => framed_of_new h, fun env kind size s => ?_, fun env f size s => ?_,
    fun p n s => p.advancing.staysWithin id n s⟩
  · exact (Advancing.section_ env size kind).mapError.staysWithin _ size s
  · exact (Advancing.quiet fun _ => quiet_functionBody env f).staysWithin id size s

/-- A type section, a function section and a code section with one empty body. -/
def thunkModule : List U8 := headerBytes ++
  [0x01, 0x04, 0x01, 0x60, 0x00, 0x00, 0x03, 0x02, 0x01, 0x00, 0x0A, 0x04, 0x01, 0x02, 0x00, 0x0B]

theorem thunkModule_framed :
    ∃ m u, Module.new simpleEnv [] (Reader.new (.ofBytes thunkModule)) ⟨emptyStore, emptyBuilder⟩ =
        .ok m u ∧
      ∃ raws : List RawSection,
        (WasmStream.ofBytes thunkModule).bytes.take usizeMax =
            headerBytes ++ raws.flatMap RawSection.bytes ∧
          (∀ raw ∈ raws, raw.Framed) ∧ InOrder raws ∧
            m.functions.length = (raws.flatMap RawSection.entries).length := by
  have hok : (Module.new simpleEnv [] (Reader.new (.ofBytes thunkModule))
    ⟨emptyStore, emptyBuilder⟩).isOk = true := by decide +kernel
  obtain ⟨m, u, h⟩ := Outcome.isOk_iff.1 hok
  exact ⟨m, u, h, framing_exact.1 _ _ _ _ _ _ h⟩

end SpaceWasm
