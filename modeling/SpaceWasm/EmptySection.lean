import SpaceWasm.Splice

/-!
# Empty sections

A vector section with count zero defines nothing. A binary may have such a section
at its place in the order of the sections, and loads as it does without it, with two
exceptions: an empty table section after an imported table is taken for a second
table, and an empty memory section makes the loader forget an imported memory.
-/

namespace SpaceWasm

open Fallible

/-- The kinds of the sections that are vectors. -/
def SectionKind.isVector : SectionKind → Bool
  | .custom => false
  | .start => false
  | .code => false
  | _ => true

/-- A vector section with count zero: the bytes of its size and of its count. -/
structure EmptySection where
  kind : SectionKind
  size : List U8
  count : List U8
  vector : kind.isVector = true
  sized : Declares size count.length
  empty : Declares count 0

def EmptySection.raw (e : EmptySection) : RawSection := ⟨e.kind, e.size, e.count, []⟩

/-- The section has its declared size, whatever its body is. -/
def RawSection.Sized (raw : RawSection) : Prop := Declares raw.size raw.body.length

/-- Bytes that may come after a section of kind `kind`: custom sections, which may break
off, and then one that is later in the order, if any. -/
inductive ComesAfter (kind : SectionKind) : List U8 → Prop where
  | nil : ComesAfter kind []
  | later {id : U8} {rest : List U8} : kind.toNat < id.toNat → ComesAfter kind (id :: rest)
  | custom {raw : RawSection} {rest : List U8} : raw.kind = .custom → raw.Sized →
      ComesAfter kind rest → ComesAfter kind (raw.bytes ++ rest)
  | broken {rest : List U8} : (∀ (raw : RawSection) rest', raw.kind = .custom → raw.Sized →
      SectionKind.custom.id :: rest ≠ raw.bytes ++ rest') →
      ComesAfter kind (SectionKind.custom.id :: rest)

/-- A binary, and a place in the order of its sections for an empty section of a kind
that it does not have. -/
structure Insertion where
  before : List RawSection
  added : EmptySection
  after : List U8
  sized : ∀ raw ∈ before, raw.Sized
  earlier : ∀ raw ∈ before, raw.kind.toNat < added.kind.toNat
  later : ComesAfter added.kind after

namespace Insertion

/-- The binary without the empty section. -/
def original (i : Insertion) : List U8 :=
  headerBytes ++ (i.before.flatMap RawSection.bytes ++ i.after)

/-- The binary with the empty section. -/
def extended (i : Insertion) : List U8 :=
  headerBytes ++ (i.before.flatMap RawSection.bytes ++ (i.added.raw.bytes ++ i.after))

end Insertion

/-- A reader of the body of a section. -/
def bodyReader (body : List U8) : Reader :=
  { Reader.new (.ofBytes body) with limit := body.length }

/-- The declarations in the body of an import section. -/
def importDecls (body : List U8) : List ImportDecl :=
  (readImportDecls (bodyReader body)).value?.getD []

/-- The section imports a table. -/
def RawSection.ImportsTable (raw : RawSection) : Prop :=
  raw.kind = .import_ ∧ ∃ d ∈ importDecls raw.body, d.desc.isTable = true

/-- The section imports a memory. -/
def RawSection.ImportsMemory (raw : RawSection) : Prop :=
  raw.kind = .import_ ∧ ∃ d ∈ importDecls raw.body, d.desc.isMemory = true

/-- The empty section is the table section of a module that imports its table, or the
memory section of one that imports its memory. -/
def Insertion.Clashes (i : Insertion) : Prop :=
  (i.added.kind = .table ∧ ∃ raw ∈ i.before, raw.ImportsTable) ∨
    (i.added.kind = .memory ∧ ∃ raw ∈ i.before, raw.ImportsMemory)

/-- A load accepts the header and the sections before the empty one. -/
def Insertion.Reached (i : Insertion) (env : LoadEnv) (name : Name) (stream : WasmStream)
    (t : LoadTarget) : Prop :=
  ∃ w u last, readHeader name (t.start name (Reader.new stream)) = .ok () w ∧
    SectionsRun env w .custom i.before u last

/-- Two loads end alike: both succeed with the same module, or neither does, and they
have done the same to the store and to the code. -/
def SameLoad (o o' : Outcome ParseError LoadTarget Module) : Prop :=
  o.Alike (fun _ _ => True) Eq o'

/-! ### Reading an empty section -/

/-- The module has nothing of what the sections of kind `kind` define. -/
def Module.Lacks (m : Module) : SectionKind → Prop
  | .custom => True
  | .type => m.types = []
  | .import_ => m.imports = []
  | .function => m.functions = []
  | .table => m.table = none
  | .memory => m.memory = none
  | .global => m.globals = []
  | .export_ => m.exports = []
  | .start => True
  | .element => True
  | .code => True
  | .data => True

section Empty

variable {env : LoadEnv} {s : LoadState} {count rest : List U8}

/-- The count of an empty section is read as zero. -/
theorem Declares.readZero (h : Declares count 0) (hinput : s.wasm.input = count ++ rest)
    (hlimit : s.wasm.offset + count.length ≤ s.wasm.limit) :
    ∃ v r, decoding readU32 s = .ok v { s with wasm := r } ∧ v.toNat = 0 ∧
      r.view = s.wasm.view.after count rest := by
  obtain ⟨v, r, hr, hv, hview⟩ := h.read hinput hlimit
  exact ⟨v, r, zoom_of_ok hr, hv, hview⟩

theorem readVec_of_zero {α : Type} {x : LoadM α} {v : U32} {t : LoadState}
    (hread : decoding readU32 s = .ok v t) (hv : v.toNat = 0) : readVec x s = .ok [] t := by
  unfold readVec
  rw [bind_of_ok hread, bind_of_ok (gets_apply _ _), hv, if_neg (Nat.not_lt_zero _)]
  rfl

/-- An empty section changes nothing, unless the module has something that it could
define. -/
theorem readSection_empty {kind : SectionKind} {size : ℕ} (hvector : kind.isVector = true)
    (hcount : Declares count 0) (hinput : s.wasm.input = count ++ rest)
    (hlimit : s.wasm.offset + count.length ≤ s.wasm.limit) (hlacks : s.module.Lacks kind) :
    ∃ r, readSection env size kind s = .ok () { s with wasm := r } ∧
      r.view = s.wasm.view.after count rest := by
  obtain ⟨v, r, hread, hv, hview⟩ := hcount.readZero hinput hlimit
  refine ⟨r, ?_, hview⟩
  obtain ⟨wasm, store, code, ⟨name, types, functions, table, memory, globals, imports, exports,
      start⟩⟩
    := s
  cases kind with
  | custom | start | code => cases hvector
  | type =>
      obtain rfl : types = [] := hlacks
      exact bind_of_ok (readVec_of_zero hread hv)
  | import_ =>
      obtain rfl : imports = [] := hlacks
      exact bind_of_ok (readVec_of_zero hread hv)
  | function =>
      obtain rfl : functions = [] := hlacks
      exact bind_of_ok (readVec_of_zero hread hv)
  | table =>
      obtain rfl : table = none := hlacks
      change readTableSection _ = _
      unfold readTableSection
      rw [bind_of_ok (get_apply _), if_neg (by simp), bind_of_ok hread, hv, if_pos rfl]
      rfl
  | memory =>
      obtain rfl : memory = none := hlacks
      change readMemorySection env _ = _
      unfold readMemorySection
      rw [bind_of_ok hread, hv, if_neg (by decide), if_pos rfl]
      rfl
  | global =>
      obtain rfl : globals = [] := hlacks
      exact bind_of_ok (readVec_of_zero hread hv)
  | export_ =>
      obtain rfl : exports = [] := hlacks
      change readExportSection _ = _
      unfold readExportSection
      rw [bind_of_ok hread, hv]
      rfl
  | element =>
      change readElementSection env _ = _
      unfold readElementSection
      rw [bind_of_ok hread, hv]
      rfl
  | data =>
      change readDataSection env _ = _
      unfold readDataSection
      rw [bind_of_ok hread, hv, if_pos rfl]
      rfl

/-- An empty table section fails when there is a table. -/
theorem readSection_emptyTable {size : ℕ} (h : s.module.table ≠ none) :
    readSection env size .table s = .error .multipleTables s := by
  change readTableSection s = _
  unfold readTableSection
  rw [bind_of_ok (get_apply s), if_pos h]
  rfl

/-- An empty memory section drops the memory. -/
theorem readSection_emptyMemory {size : ℕ} (hcount : Declares count 0)
    (hinput : s.wasm.input = count ++ rest)
    (hlimit : s.wasm.offset + count.length ≤ s.wasm.limit) :
    ∃ r, readSection env size .memory s =
        .ok () { s with wasm := r, module := { s.module with memory := none } } ∧
      r.view = s.wasm.view.after count rest := by
  obtain ⟨v, r, hread, hv, hview⟩ := hcount.readZero hinput hlimit
  refine ⟨r, ?_, hview⟩
  change readMemorySection env s = _
  unfold readMemorySection
  rw [bind_of_ok hread, hv, if_neg (by decide), if_pos rfl]
  rfl

end Empty

/-! ### The sections before -/

section Before

variable {env : LoadEnv} {last last' kind : SectionKind} {raws : List RawSection} {s t : LoadState}

theorem module_sectionKind (h : decoding SectionKind.read s = .ok kind t) :
    t.module = s.module := by
  obtain ⟨r, -, rfl⟩ := zoom_eq_ok.1 h
  rfl

theorem changes_sectionBody (h : readSectionBody env kind s = .ok () t) :
    s.module.Changes kind t.module :=
  (Guarded.ok (readSectionBody_frame (W := .all) env fun _ _ _ =>
    LoadState.sectionWrites_all env kind _) rfl h).module

theorem SectionsRun.last_lt (h : SectionsRun env s last raws t last')
    (hraws : ∀ raw ∈ raws, raw.kind.toNat < kind.toNat) (hlast : last.toNat < kind.toNat) :
    last'.toNat < kind.toNat := by
  induction h with
  | nil => exact hlast
  | cons _ horder _ _ _ ih =>
      refine ih (fun raw hraw => hraws raw (List.mem_cons_of_mem _ hraw)) ?_
      obtain ⟨-, rfl⟩ | ⟨-, -, rfl⟩ := checkOrder_eq_ok.1 horder
      · exact hlast
      · exact hraws _ List.mem_cons_self

/-- A section of an earlier kind does not define what a later kind does, apart from the
tables and the memories among the imports. -/
theorem Module.Lacks.changes {m m' : Module} {kind' : SectionKind} (h : m.Lacks kind)
    (hchanges : m.Changes kind' m') (hlt : kind'.toNat < kind.toNat) (htable : kind ≠ .table)
    (hmemory : kind ≠ .memory) : m'.Lacks kind := by
  have hne : ∀ {other : SectionKind}, kind.toNat ≤ other.toNat → kind' ≠ other := by
    rintro other hle rfl
    omega
  cases kind with
  | custom | start | element | code | data => trivial
  | type => exact (hchanges.types (hne (by decide))).trans h
  | import_ => exact (hchanges.imports (hne (by decide))).trans h
  | function => exact (hchanges.functions (hne (by decide)) (hne (by decide))).trans h
  | table => exact absurd rfl htable
  | memory => exact absurd rfl hmemory
  | global => exact (hchanges.globals (hne (by decide))).trans h
  | export_ => exact (hchanges.exports (hne (by decide))).trans h

theorem SectionsRun.lacks (h : SectionsRun env s last raws t last')
    (hraws : ∀ raw ∈ raws, raw.kind.toNat < kind.toNat) (htable : kind ≠ .table)
    (hmemory : kind ≠ .memory) (hlacks : s.module.Lacks kind) : t.module.Lacks kind := by
  induction h with
  | nil => exact hlacks
  | cons hkind _ hbody _ _ ih =>
      refine ih (fun raw hraw => hraws raw (List.mem_cons_of_mem _ hraw)) ?_
      refine Module.Lacks.changes ?_ (changes_sectionBody hbody) (hraws _ List.mem_cons_self) htable
        hmemory
      rw [module_sectionKind hkind]
      exact hlacks

/-- The import section of a binary gives the module the tables and the memories that its
body declares. -/
theorem readSectionBody_import {size body rest : List U8} (hsize : Declares size body.length)
    (hinput : s.wasm.input = size ++ (body ++ rest))
    (hroom : s.wasm.offset + size.length ≤ s.wasm.limit) (hlimit : s.wasm.limit = usizeMax)
    (h : readSectionBody env .import_ s = .ok () t) :
    (t.module.table ≠ none ↔
        s.module.table ≠ none ∨ ∃ d ∈ importDecls body, d.desc.isTable = true) ∧
      (t.module.memory ≠ none ↔
        s.module.memory ≠ none ∨ ∃ d ∈ importDecls body, d.desc.isMemory = true) := by
  obtain ⟨n, s₁, v, hread, hn, hsection, rfl, -⟩ := readSectionBody_eq_ok h
  obtain ⟨n', r, hr, hn', hview⟩ := hsize.read hinput hroom
  obtain ⟨r', hr', rfl⟩ := zoom_eq_ok.1 hread
  cases hr.symm.trans hr'
  obtain ⟨hbody, -, -, hr_limit⟩ := Reader.of_after hview
  obtain ⟨decls, u, hdecls, htable, hmemory⟩ := readImportSection_eq_ok hsection
  -- the declarations are the same in the binary and in the body alone
  have hconfined : (bodyReader body).Confined [] rest body.length r.offset
      { r with limit := r.offset + n.toNat } := by
    refine ⟨⟨⟨body, ?_, hbody, ?_⟩, ?_⟩, ?_, ?_, Or.inl (Nat.le_refl _)⟩
    · exact (WasmStream.bytes_ofBytes body).trans (List.append_nil body).symm
    · exact Nat.zero_add _
    · exact (Nat.zero_add _).symm
    · exact (congrArg (r.offset + ·) hn').trans (Nat.add_comm _ _)
    · rw [hr_limit, hlimit] at hn
      exact hn
  have halike := confined_congruence.decoder decoder_readImportDecls _ _ hconfined
  have hdecls' : readImportDecls { r with limit := r.offset + n.toNat } = .ok decls u := hdecls
  rw [hdecls'] at halike
  have himport : importDecls body = decls := by
    unfold importDecls
    generalize readImportDecls (bodyReader body) = o at halike
    cases halike
    rfl
  rw [himport]
  exact ⟨htable, hmemory⟩

/-- A section gives the module the table and the memory that it imports. -/
theorem imports_of_section {raw : RawSection} {u : LoadState}
    (hkind : decoding SectionKind.read s = .ok raw.kind u)
    (hbody : readSectionBody env raw.kind u = .ok () t)
    (hconsumed : s.wasm.Consumed raw.bytes t.wasm)
    (hlimit : s.wasm.limit = usizeMax) (hsized : raw.Sized) :
    (raw.kind ≠ .table →
        (t.module.table ≠ none ↔ s.module.table ≠ none ∨ raw.ImportsTable)) ∧
      (raw.kind ≠ .memory →
        (t.module.memory ≠ none ↔ s.module.memory ≠ none ∨ raw.ImportsMemory)) := by
  rw [← module_sectionKind hkind]
  by_cases himport : raw.kind = .import_
  · have hadvance := (advances_sectionKind hkind).trans (readSectionBody_advances hbody)
    have hfirst := consumed_sectionKind hkind
    have hinput : u.wasm.input = raw.size ++ (raw.body ++ t.wasm.input) := by
      have heq : [raw.kind.id] ++ u.wasm.input = raw.bytes ++ t.wasm.input :=
        hfirst.input.symm.trans hconsumed.input
      simpa [RawSection.bytes] using heq
    have hroom : u.wasm.offset + raw.size.length ≤ u.wasm.limit := by
      have hwithin := hadvance.within
      have hoffset := hfirst.offset
      have hoffset' := hconsumed.offset
      rw [RawSection.bytes, List.length_cons, List.length_append] at hoffset'
      rw [(advances_sectionKind hkind).limit]
      simp only [List.length_singleton] at hoffset
      omega
    rw [himport] at hbody
    have himports := readSectionBody_import hsized hinput hroom
      ((advances_sectionKind hkind).limit.trans hlimit) hbody
    simpa [RawSection.ImportsTable, RawSection.ImportsMemory, himport] using himports
  · have hchanges := changes_sectionBody hbody
    refine ⟨fun hne => ?_, fun hne => ?_⟩
    · rw [hchanges.table himport hne]
      simp [RawSection.ImportsTable, himport]
    · rw [hchanges.memory himport hne]
      simp [RawSection.ImportsMemory, himport]

/-- After the sections before it the module has a table if one of them declares one. -/
theorem SectionsRun.table_iff (h : SectionsRun env s last raws t last')
    (hlimit : s.wasm.limit = usizeMax) (hsized : ∀ raw ∈ raws, raw.Sized)
    (hraws : ∀ raw ∈ raws, raw.kind ≠ .table) :
    t.module.table ≠ none ↔ s.module.table ≠ none ∨ ∃ raw ∈ raws, raw.ImportsTable := by
  induction h with
  | nil => simp
  | cons hkind _ hbody hconsumed _ ih =>
      have hadvance := (advances_sectionKind hkind).trans (readSectionBody_advances hbody)
      have himports := imports_of_section hkind hbody hconsumed hlimit (hsized _ List.mem_cons_self)
      rw [ih (hadvance.limit.trans hlimit)
        (fun raw hraw => hsized raw (List.mem_cons_of_mem _ hraw))
        fun raw hraw => hraws raw (List.mem_cons_of_mem _ hraw),
        himports.1 (hraws _ List.mem_cons_self)]
      simp only [List.exists_mem_cons_iff, or_assoc]

/-- The same for the memory. -/
theorem SectionsRun.memory_iff (h : SectionsRun env s last raws t last')
    (hlimit : s.wasm.limit = usizeMax) (hsized : ∀ raw ∈ raws, raw.Sized)
    (hraws : ∀ raw ∈ raws, raw.kind ≠ .memory) :
    t.module.memory ≠ none ↔ s.module.memory ≠ none ∨ ∃ raw ∈ raws, raw.ImportsMemory := by
  induction h with
  | nil => simp
  | cons hkind _ hbody hconsumed _ ih =>
      have hadvance := (advances_sectionKind hkind).trans (readSectionBody_advances hbody)
      have himports := imports_of_section hkind hbody hconsumed hlimit (hsized _ List.mem_cons_self)
      rw [ih (hadvance.limit.trans hlimit)
        (fun raw hraw => hsized raw (List.mem_cons_of_mem _ hraw))
        fun raw hraw => hraws raw (List.mem_cons_of_mem _ hraw),
        himports.2 (hraws _ List.mem_cons_self)]
      simp only [List.exists_mem_cons_iff, or_assoc]

end Before

/-! ### The sections after -/

section After

variable {env : LoadEnv} {last kind : SectionKind} {seen : Bool} {fuel fuel' stop k : ℕ}
  {rest : List U8} {s t : LoadState}

theorem toNat_id (kind : SectionKind) : kind.id.toNat = kind.toNat := by
  cases kind <;> rfl

/-- A section of a later kind is in order. -/
theorem checkOrder_of_lt {last new : SectionKind} (h : last.toNat < new.toNat) :
    checkOrder last new = .ok new := by
  refine checkOrder_eq_ok.2 (Or.inr ⟨?_, h, rfl⟩)
  rintro rfl
  exact absurd h (Nat.not_lt_zero _)

theorem checkOrder_custom (last : SectionKind) : checkOrder last .custom = .ok last :=
  checkOrder_eq_ok.2 (Or.inl ⟨rfl, rfl⟩)

/-- The bytes that come after are loaded alike, also when a section of kind `kind` has
come before them in the second load. -/
theorem alike_after (env : LoadEnv) (seen : Bool) (hafter : ComesAfter kind rest)
    (hlast : last.toNat < kind.toNat)
    (h : s.Before rest [] [] stop k t) (hfuel : s.wasm.input.length < fuel)
    (hfuel' : t.wasm.input.length < fuel') :
    (readSections env fuel last seen s).Alike (fun _ _ => True)
      (LoadState.Like (Reader.Between [] [] stop k)) (readSections env fuel' kind seen t) := by
  induction hafter generalizing seen fuel fuel' s t with
  | nil =>
      obtain ⟨fuel, rfl⟩ : ∃ n, fuel = n + 1 := Nat.exists_eq_succ_of_ne_zero (by omega)
      obtain ⟨fuel', rfl⟩ : ∃ n, fuel' = n + 1 := Nat.exists_eq_succ_of_ne_zero (by omega)
      rcases alike_round env seen h.like with ⟨kind', u, v, hs, -, -⟩ | hend
      · have hlt := sectionKind_consumes hs
        rw [h.input] at hlt
        exact absurd hlt (Nat.not_lt_zero _)
      · exact hend _ _ _ _
  | @later id rest hid =>
      obtain ⟨fuel, rfl⟩ : ∃ n, fuel = n + 1 := Nat.exists_eq_succ_of_ne_zero (by omega)
      obtain ⟨fuel', rfl⟩ : ∃ n, fuel' = n + 1 := Nat.exists_eq_succ_of_ne_zero (by omega)
      rcases alike_round env seen h.like with ⟨kind', u, v, hs, ht, huv⟩ | hend
      · have hkind : id.toNat = kind'.toNat := by
          have hinput := h.input.symm.trans (consumed_sectionKind hs).input
          rw [List.append_nil] at hinput
          obtain ⟨rfl, -⟩ := List.cons.inj hinput
          exact toNat_id kind'
        have hlt := sectionKind_consumes hs
        have hlt' := sectionKind_consumes ht
        rw [readSections_of_kind hs (checkOrder_of_lt (by omega)),
          readSections_of_kind ht (checkOrder_of_lt (by omega))]
        refine alike_body (respects_sectionBody env kind' u v huv) fun u' v' hu hv huv' => ?_
        have hle := (readSectionBody_advances hu).length_le
        have hle' := (readSectionBody_advances hv).length_le
        exact alike_readSections huv' (by omega) (by omega)
      · exact hend _ _ _ _
  | @custom raw rest hcustom hsized _ ih =>
      obtain ⟨fuel, rfl⟩ : ∃ n, fuel = n + 1 := Nat.exists_eq_succ_of_ne_zero (by omega)
      obtain ⟨fuel', rfl⟩ : ∃ n, fuel' = n + 1 := Nat.exists_eq_succ_of_ne_zero (by omega)
      obtain ⟨u, v, hs, ht, -, hbody, hinputs⟩ :=
        @LoadState.Before.section_ _ _ _ _ env _ _ _ _ hsized h
      have hlt := sectionKind_consumes hs
      have hlt' := sectionKind_consumes ht
      rw [hcustom] at hs ht hbody hinputs
      rw [readSections_of_kind hs (checkOrder_custom last),
        readSections_of_kind ht (checkOrder_custom _)]
      refine alike_body hbody fun u' v' hu hv huv => ?_
      obtain ⟨hinput, hinput'⟩ := hinputs u' v' hu hv
      have hle := (readSectionBody_advances hu).length_le
      have hle' := (readSectionBody_advances hv).length_le
      exact ih _ ⟨huv, hinput, hinput'⟩ (by omega) (by omega)
  | @broken rest hbroken =>
      obtain ⟨fuel, rfl⟩ : ∃ n, fuel = n + 1 := Nat.exists_eq_succ_of_ne_zero (by omega)
      obtain ⟨fuel', rfl⟩ : ∃ n, fuel' = n + 1 := Nat.exists_eq_succ_of_ne_zero (by omega)
      obtain ⟨u, v, hs, ht, huv⟩ := h.readKind
      rw [readSections_of_kind hs (checkOrder_custom last),
        readSections_of_kind ht (checkOrder_custom _)]
      refine alike_body (respects_sectionBody env .custom u v huv.like) fun u' v' hu hv huv' => ?_
      -- a custom section that is accepted is not broken
      obtain ⟨raw, hcustom, hframed, hconsumed, -⟩ := consumed_readSectionBody hu
      refine absurd ?_ (hbroken raw u'.wasm.input hcustom hframed.size)
      have hinput := huv.input.symm.trans hconsumed.input
      rw [List.append_nil] at hinput
      rw [hinput, RawSection.bytes, hcustom, List.cons_append]

end After

/-! ### The empty section -/

section Added

variable {env : LoadEnv} {last : SectionKind} {seen : Bool} {fuel : ℕ} {rest : List U8}
  {s : LoadState} {e : EmptySection}

theorem withLimit_of_ok {ε : Type} {inject : ValidationError → ε} {n : ℕ}
    {x : Fallible ε LoadState Unit} {u : LoadState}
    (hn : s.wasm.offset + n ≤ usizeMax ∧ s.wasm.offset + n ≤ s.wasm.limit)
    (h : x (s.enter n) = .ok () u) :
    withLimit LoadState.wasm (fun s wasm => { s with wasm := wasm }) inject n x s =
      .ok () (s.leave u) := by
  unfold LoadState.enter at h
  unfold withLimit
  simp only
  rw [if_pos hn, h]
  rfl

/-- The body of an empty section is its count. -/
theorem EmptySection.readBody (e : EmptySection) {m : Module}
    (hinput : s.wasm.input = e.size ++ (e.count ++ rest))
    (hroom : s.wasm.offset + (e.size.length + e.count.length) ≤ s.wasm.limit)
    (hlimit : s.wasm.limit ≤ usizeMax)
    (hread : ∀ (t : LoadState) size, t.wasm.input = e.count ++ rest →
      t.wasm.offset + e.count.length ≤ t.wasm.limit → t.module = s.module →
        ∃ r, readSection env size e.kind t = .ok () { t with wasm := r, module := m } ∧
          r.view = t.wasm.view.after e.count rest) :
    ∃ r, readSectionBody env e.kind s = .ok () { s with wasm := r, module := m } ∧
      r.view = s.wasm.view.after (e.size ++ e.count) rest := by
  obtain ⟨n, r, hr, hn, hview⟩ := e.sized.read hinput (by omega)
  obtain ⟨hinput', -, hoffset, hlimit'⟩ := Reader.of_after hview
  obtain ⟨r', hread, hview'⟩ := hread (LoadState.enter { s with wasm := r } n.toNat) n.toNat hinput'
    (by simp [LoadState.enter, hn]) rfl
  obtain ⟨-, -, hoffset', -⟩ := Reader.of_after hview'
  refine ⟨{ r' with limit := r.limit }, ?_, ?_⟩
  · have hsize : decoding readU32 s = .ok n { s with wasm := r } := zoom_of_ok hr
    have hwithin := @withLimit_of_ok { s with wasm := r } _ ValidationError.toSectionDecodeError
      n.toNat _ _ ⟨by simp only; omega, by simp only; omega⟩
      (mapError_eq_ok.2 hread : mapError (fun e' => e'.withSection e.kind) _ _ = _)
    rw [readSectionBody_of_size hsize]
    unfold readSectionRest
    rw [bind_of_ok (plain_offset_apply _), bind_of_ok hwithin, bind_of_ok (plain_offset_apply _),
      if_neg]
    · rfl
    · have hoffset' : r'.offset = r.offset + e.count.length := hoffset'
      simp only [LoadState.leave]
      omega
  · have hlimited : ({ r' with limit := r.limit } : Reader).view =
        { r'.view with limit := r.limit } :=
      rfl
    rw [hlimited, hview', ← Reader.View.after_append, ← hview]
    rfl

/-- A round of the loop that reads an empty section. -/
theorem EmptySection.round (e : EmptySection) (env : LoadEnv) (seen : Bool) (fuel : ℕ) {m : Module}
    (hinput : s.wasm.input = e.raw.bytes ++ rest)
    (hroom : s.wasm.offset + e.raw.bytes.length ≤ s.wasm.limit) (hlimit : s.wasm.limit ≤ usizeMax)
    (hlast : last.toNat < e.kind.toNat)
    (hread : ∀ (t : LoadState) size, t.wasm.input = e.count ++ rest →
      t.wasm.offset + e.count.length ≤ t.wasm.limit → t.module = s.module →
        ∃ r, readSection env size e.kind t = .ok () { t with wasm := r, module := m } ∧
          r.view = t.wasm.view.after e.count rest) :
    ∃ r, readSections env (fuel + 1) last seen s =
        readSections env fuel e.kind seen { s with wasm := r, module := m } ∧
      r.view = s.wasm.view.after e.raw.bytes rest := by
  have hbytes : e.raw.bytes = [e.kind.id] ++ (e.size ++ e.count) := rfl
  rw [hbytes, List.length_append, List.length_append, List.length_singleton] at hroom
  have hhead : s.wasm.input = e.kind.id :: (e.size ++ (e.count ++ rest)) := by
    rw [hinput, hbytes, List.append_assoc, List.append_assoc]
    rfl
  obtain ⟨r, hr, hview⟩ := sectionKind_of_input hhead (by omega)
  obtain ⟨hinput', -, hoffset', hlimit'⟩ := Reader.of_after hview
  rw [List.length_singleton] at hoffset'
  have hkind : decoding SectionKind.read s = .ok e.kind { s with wasm := r } := zoom_of_ok hr
  obtain ⟨r', hbody, hview'⟩ := e.readBody (s := { s with wasm := r }) (m := m) hinput'
    (by simp only; omega) (by simp only; omega) hread
  have hcode : decide (e.kind = .code) = false := by
    have hvector := e.vector
    cases hk : e.kind <;> rw [hk] at hvector <;> first | rfl | cases hvector
  refine ⟨r', ?_, ?_⟩
  · rw [readSections_of_kind hkind (checkOrder_of_lt hlast), bind_of_ok hbody, hcode, Bool.or_false]
  · rw [hview', hview, hbytes, ← List.append_assoc, Reader.View.after_append]

/-- After a table an empty table section fails. -/
theorem EmptySection.round_table (e : EmptySection) (hkind : e.kind = .table)
    (hinput : s.wasm.input = e.raw.bytes ++ rest)
    (hroom : s.wasm.offset + e.raw.bytes.length ≤ s.wasm.limit)
    (hlast : last.toNat < e.kind.toNat) (htable : s.module.table ≠ none) :
    (readSections env (fuel + 1) last seen s).isOk = false := by
  by_contra hok
  obtain ⟨b, t, h⟩ := Outcome.isOk_iff.1 (Bool.not_eq_false _ ▸ hok)
  have hbytes : e.raw.bytes = [e.kind.id] ++ (e.size ++ e.count) := rfl
  rw [hbytes, List.length_append, List.length_singleton] at hroom
  have hhead : s.wasm.input = e.kind.id :: (e.size ++ (e.count ++ rest)) := by
    rw [hinput, hbytes, List.append_assoc, List.append_assoc]
    rfl
  obtain ⟨r, hr, -⟩ := sectionKind_of_input hhead (by omega)
  have hread : decoding SectionKind.read s = .ok e.kind { s with wasm := r } := zoom_of_ok hr
  rw [readSections_of_kind hread (checkOrder_of_lt hlast), hkind] at h
  obtain ⟨_, u, hbody, -⟩ := bind_eq_ok.1 h
  obtain ⟨n, s₁, v, hsize, -, hsection, -, -⟩ := readSectionBody_eq_ok hbody
  obtain ⟨r', -, rfl⟩ := zoom_eq_ok.1 hsize
  have hfail := @readSection_emptyTable env
    (LoadState.enter ⟨r', s.store, s.code, s.module⟩ n.toNat) n.toNat htable
  cases hfail.symm.trans hsection

end Added

/-! ### Loads -/

theorem SameLoad.isOk_eq {o o' : Outcome ParseError LoadTarget Module} (h : SameLoad o o') :
    o.isOk = o'.isOk := by
  cases h <;> rfl

theorem SameLoad.value_eq {o o' : Outcome ParseError LoadTarget Module} (h : SameLoad o o') :
    o.value? = o'.value? := by
  cases h <;> rfl

/-- Loads whose sections are read alike end alike. -/
theorem alike_readBody {env : LoadEnv} {R : Reader → Reader → Prop} {s t : LoadState}
    (h : (readSections env (s.wasm.input.length + 1) .custom false s).Alike (fun _ _ => True)
      (LoadState.Like R) (readSections env (t.wasm.input.length + 1) .custom false t)) :
    (readBody env s).Alike (fun _ _ => True) (LoadState.Like R) (readBody env t) := by
  unfold readBody
  rw [bind_of_ok (get_apply s), bind_of_ok (get_apply t), bind_apply, bind_apply]
  generalize readSections env _ .custom false s = o at h ⊢
  generalize readSections env _ .custom false t = o' at h ⊢
  cases h with
  | @ok seen u v huv =>
      simp only
      rw [bind_of_ok (get_apply u), bind_of_ok (get_apply v), huv.module]
      exact Lockstep.ite (E := fun _ _ => True) (fun _ => .throw trivial) (fun _ => .pure _) u v huv
  | error he huv => exact .error trivial huv
  | panic => exact .panic
  | diverge => exact .diverge

theorem sameLoad_of_alike {env : LoadEnv} {name : Name} {R : Reader → Reader → Prop} {r r' : Reader}
    {t : LoadTarget}
    (h : (Module.read env name (t.start name r)).Alike (fun _ _ => True) (LoadState.Like R)
      (Module.read env name (t.start name r'))) :
    SameLoad (Module.new env name r t) (Module.new env name r' t) := by
  unfold Module.new SameLoad
  unfold LoadTarget.start at h
  generalize Module.read env name _ = o at h ⊢
  generalize Module.read env name _ = o' at h ⊢
  cases h with
  | ok m huv =>
      simp only
      rw [huv.store, huv.code]
      exact .ok m rfl
  | error he huv =>
      simp only
      rw [huv.store, huv.code]
      exact .error trivial rfl
  | panic => exact .panic
  | diverge => exact .diverge

/-- From the memory section on the loop does not set the memory of the module. -/
theorem readSections_memory {env : LoadEnv} {last : SectionKind} {seen result : Bool} {fuel : ℕ}
    {s t : LoadState} (hlast : SectionKind.memory.toNat ≤ last.toNat)
    (h : readSections env fuel last seen s = .ok result t) : t.module.memory = s.module.memory := by
  induction fuel generalizing last seen s with
  | zero => cases h
  | succ fuel ih =>
      cases hkind : decoding SectionKind.read s with
      | ok kind u =>
          cases horder : checkOrder last kind with
          | error e =>
              rw [readSections_of_order hkind horder] at h
              cases h
          | ok next =>
              rw [readSections_of_kind hkind horder] at h
              obtain ⟨_, v, hbody, h⟩ := bind_eq_ok.1 h
              have hle := checkOrder_le horder
              have hne : kind ≠ .import_ ∧ kind ≠ .memory := by
                obtain ⟨rfl, -⟩ | ⟨-, hlt, -⟩ := checkOrder_eq_ok.1 horder
                · exact ⟨nofun, nofun⟩
                · refine ⟨?_, ?_⟩ <;> rintro rfl <;> simp [SectionKind.toNat] at hlast hlt <;> omega
              rw [ih (by omega) h, (changes_sectionBody hbody).memory hne.1 hne.2,
                module_sectionKind hkind]
      | error e u =>
          unfold readSections at h
          rw [hkind] at h
          obtain ⟨-, -, hmodule⟩ : _ ∧ _ ∧ t.module = s.module := by
            cases e <;> first | (cases h; exact atEnd_of_eof hkind) | cases h
          rw [hmodule]
      | panic =>
          unfold readSections at h
          rw [hkind] at h
          cases h
      | diverge =>
          unfold readSections at h
          rw [hkind] at h
          cases h

section Insertion

variable {i : Insertion} {env : LoadEnv} {name : Name} {t : LoadTarget}
  {stream stream' : WasmStream}

/-- The two loads in front of their headers. -/
theorem Insertion.start (hbytes : stream.bytes = i.original) (hbytes' : stream'.bytes = i.extended)
    (hending : stream'.ending = stream.ending)
    (hlength : i.extended.length + 2 ^ 32 ≤ usizeMax) :
    (t.start name (Reader.new stream)).Before
      (headerBytes ++ i.before.flatMap RawSection.bytes) i.after (i.added.raw.bytes ++ i.after)
      (headerBytes ++ i.before.flatMap RawSection.bytes).length 0
      (t.start name (Reader.new stream')) := by
  have hinput : (Reader.new stream).input =
      headerBytes ++ i.before.flatMap RawSection.bytes ++ i.after := by
    rw [Reader.input_new, hbytes, Insertion.original, List.append_assoc]
  have hinput' : (Reader.new stream').input =
      headerBytes ++ i.before.flatMap RawSection.bytes ++ (i.added.raw.bytes ++ i.after) := by
    rw [Reader.input_new, hbytes', Insertion.extended, List.append_assoc]
  unfold Insertion.extended at hlength
  simp only [List.length_append] at hlength
  refine ⟨⟨⟨⟨⟨_, hinput, hinput', ?_⟩, rfl⟩, hending, rfl, rfl, ?_, ?_⟩, rfl, rfl, rfl⟩, hinput,
    hinput'⟩
  · exact Nat.zero_add _
  · simp only [List.length_append]
    omega
  · simp only [List.length_append]
    omega

/-- Both loads read the header. -/
theorem LoadState.Before.header {q x y : List U8} {stop k : ℕ} {s t : LoadState} (env : LoadEnv)
    (name : Name) (h : s.Before (headerBytes ++ q) x y stop k t) :
    (∃ u v, readHeader name s = .ok () u ∧ readHeader name t = .ok () v ∧
        u.Before q x y stop k v ∧ u.module = s.module) ∨
      (Module.read env name s).isOk = false ∧
        (Module.read env name s).Alike (fun _ _ => True)
          (LoadState.Like (Reader.Between x y stop k))
          (Module.read env name t) := by
  have hroom := h.room
  have hroom' := h.room'
  have hlength : headerBytes.length = 8 := rfl
  rw [List.length_append, hlength] at hroom hroom'
  obtain ⟨r, hs, hr⟩ := readHeader_of_input
    (h.input.trans (List.append_assoc _ _ _)) (by omega)
  obtain ⟨r', ht, hr'⟩ := readHeader_of_input
    (h.input'.trans (List.append_assoc _ _ _)) (by omega)
  have hafter := h.after hr hr'
  have hcheck := respects_checkHeader name _ _ hafter.like
  rw [← hs, ← ht] at hcheck
  rw [Module.read_eq, bind_apply, bind_apply]
  cases hu : readHeader name s <;> rw [hu] at hcheck <;>
    generalize hv : readHeader name t = o' at hcheck <;> cases hcheck
  · next u v huv =>
    obtain ⟨hwasm, hmodule⟩ := checkHeader_eq_ok (hs.symm.trans hu)
    obtain ⟨hwasm', -⟩ := checkHeader_eq_ok (ht.symm.trans hv)
    refine Or.inl ⟨u, v, rfl, rfl, ⟨huv, ?_, ?_⟩, hmodule⟩
    · rw [hwasm]
      exact hafter.input
    · rw [hwasm']
      exact hafter.input'
  · next huv => exact Or.inr ⟨rfl, .error trivial huv⟩
  · exact Or.inr ⟨rfl, .panic⟩
  · exact Or.inr ⟨rfl, .diverge⟩

theorem isOk_new (env : LoadEnv) (name : Name) (r : Reader) (t : LoadTarget) :
    (Module.new env name r t).isOk = (Module.read env name (t.start name r)).isOk := by
  unfold Module.new LoadTarget.start
  generalize Module.read env name _ = o
  cases o <;> rfl

theorem isOk_readBody {env : LoadEnv} {w : LoadState}
    (h : (readSections env (w.wasm.input.length + 1) .custom false w).isOk = false) :
    (readBody env w).isOk = false := by
  unfold readBody
  rw [bind_of_ok (get_apply w), bind_apply]
  generalize readSections env _ .custom false w = o at h ⊢
  cases o with
  | ok => cases h
  | error | panic | diverge => rfl

/-- The loop over the sections of a load has come to the state `u` between two sections. -/
structure Reaches (env : LoadEnv) (name : Name) (s u : LoadState) (last : SectionKind) (seen : Bool)
    (w : LoadState) (n : ℕ) : Prop where
  header : readHeader name s = .ok () w
  sections : readSections env (w.wasm.input.length + 1) .custom false w =
    readSections env n last seen u
  fuel : u.wasm.input.length < n

theorem read_of_header {env : LoadEnv} {name : Name} {s w : LoadState}
    (h : readHeader name s = .ok () w) : Module.read env name s = readBody env w := by
  rw [Module.read_eq, bind_of_ok h]

theorem Reaches.read {env : LoadEnv} {name : Name} {s u w : LoadState} {last : SectionKind}
    {seen : Bool} {n : ℕ} (h : Reaches env name s u last seen w n) :
    Module.read env name s = readBody env w :=
  read_of_header h.header

/-- The two loads fail alike before they come to the empty section, or come to it in the
same state. -/
theorem Insertion.meet (env : LoadEnv) (name : Name) (t : LoadTarget)
    (hbytes : stream.bytes = i.original) (hbytes' : stream'.bytes = i.extended)
    (hending : stream'.ending = stream.ending)
    (hlength : i.extended.length + 2 ^ 32 ≤ usizeMax) :
    (∃ u v last seen w w' n n' stop, SectionsRun env w .custom i.before u last ∧
        u.Before [] i.after (i.added.raw.bytes ++ i.after) stop 0 v ∧
        w.module = Module.empty name ∧ w.wasm.limit = usizeMax ∧
        Reaches env name (t.start name (Reader.new stream)) u last seen w n ∧
        Reaches env name (t.start name (Reader.new stream')) v last seen w' n') ∨
      (Module.new env name (Reader.new stream) t).isOk = false ∧
        SameLoad (Module.new env name (Reader.new stream) t)
          (Module.new env name (Reader.new stream') t) := by
  have hstart := @i.start name t _ _ hbytes hbytes' hending hlength
  rcases hstart.header env name with ⟨w, w', hw, hw', hbefore, hmodule⟩ | ⟨hfail, halike⟩
  · rcases @LoadState.Before.sections _ _ _ _ env _ .custom false _ _ _ _ i.sized hbefore
      (Nat.lt_succ_self _) (Nat.lt_succ_self _) with
      ⟨u, v, last, n, n', hrun, huv, hn, hn', hs, ht⟩ | ⟨hfail, halike⟩
    · exact Or.inl ⟨u, v, last, _, w, w', n, n', _, hrun, huv, hmodule, hbefore.like.wasm.limit,
        ⟨hw, hs, hn⟩, ⟨hw', ht, hn'⟩⟩
    · have hbody := alike_readBody halike
      rw [← read_of_header hw, ← read_of_header hw'] at hbody
      refine Or.inr ⟨?_, sameLoad_of_alike hbody⟩
      rw [isOk_new, read_of_header hw]
      exact isOk_readBody hfail
  · refine Or.inr ⟨?_, sameLoad_of_alike halike⟩
    rw [isOk_new]
    exact hfail

/-- After the empty section both loads are in front of the same bytes. -/
theorem LoadState.Before.added {rest bs : List U8} {stop : ℕ} {u v : LoadState} {r : Reader}
    (h : u.Before [] rest (bs ++ rest) stop 0 v) (hr : r.view = v.wasm.view.after bs rest) :
    u.Before rest [] [] (stop + rest.length) bs.length { v with wasm := r } := by
  obtain ⟨hinput, hending, hoffset, hlimit⟩ := Reader.of_after hr
  have hwasm := h.like.wasm
  have hroom := hwasm.room
  have hroom' := hwasm.room'
  have hstop := h.stop_eq
  have hzero := hwasm.parted.offset
  rw [List.length_append] at hroom'
  refine ⟨⟨⟨⟨⟨rest, ?_, ?_, ?_⟩, ?_⟩, ?_, hwasm.limit, ?_, ?_, ?_⟩, h.like.store, h.like.code,
    h.like.module⟩, ?_, ?_⟩
  · rw [h.input, List.append_nil]
    rfl
  · rw [List.append_nil]
    exact hinput
  · simp only [List.length_nil] at hstop
    omega
  · rw [hoffset, hzero]
    rfl
  · exact hending.trans hwasm.ending
  · exact hlimit.trans hwasm.limit'
  · simp only [List.length_nil]
    omega
  · simp only [List.length_nil]
    omega
  · rw [h.input, List.append_nil]
    rfl
  · rw [List.append_nil]
    exact hinput

/-- The first load alone, in front of the rest of its binary. -/
theorem LoadState.Before.left {rest y : List U8} {stop : ℕ} {u v : LoadState}
    (h : u.Before [] rest y stop 0 v) : u.Before rest [] [] (stop + rest.length) 0 u := by
  have hwasm := h.like.wasm
  have hroom := hwasm.room
  have hstop := h.stop_eq
  have hinput : u.wasm.input = rest ++ [] := h.input.trans (List.append_nil rest).symm
  simp only [List.length_nil] at hstop
  refine ⟨⟨⟨⟨⟨rest, hinput, hinput, ?_⟩, rfl⟩, rfl, hwasm.limit, hwasm.limit, ?_, ?_⟩, rfl,
    rfl, rfl⟩,
    hinput, hinput⟩
  · omega
  · exact hroom
  · exact hroom

/-- There is room for the empty section. -/
theorem LoadState.Before.room_added {rest bs : List U8} {stop : ℕ} {u v : LoadState}
    (h : u.Before [] rest (bs ++ rest) stop 0 v) :
    v.wasm.offset + bs.length ≤ v.wasm.limit ∧ v.wasm.limit ≤ usizeMax := by
  have hwasm := h.like.wasm
  have hroom' := hwasm.room'
  have hstop := h.stop_eq
  have hzero := hwasm.parted.offset
  rw [List.length_append] at hroom'
  rw [hwasm.limit']
  simp only [List.length_nil] at hstop
  omega

/-- The module lacks what the empty section could define, unless an import clashes
with that. -/
theorem Insertion.lacks {u w : LoadState} {last : SectionKind} (hclash : ¬i.Clashes)
    (hrun : SectionsRun env w .custom i.before u last) (hmodule : w.module = Module.empty name)
    (hlimit : w.wasm.limit = usizeMax) : u.module.Lacks i.added.kind := by
  have hvector := i.added.vector
  by_cases htable : i.added.kind = .table
  · rw [htable]
    by_contra hne
    have hearlier := i.earlier
    rw [htable] at hearlier
    have hiff := hrun.table_iff hlimit i.sized fun raw hraw heq => by
      have := hearlier raw hraw
      rw [heq] at this
      exact Nat.lt_irrefl _ this
    rw [hmodule] at hiff
    rcases hiff.1 hne with hnone | himport
    · exact hnone rfl
    · exact hclash (Or.inl ⟨htable, himport⟩)
  · by_cases hmemory : i.added.kind = .memory
    · rw [hmemory]
      by_contra hne
      have hearlier := i.earlier
      rw [hmemory] at hearlier
      have hiff := hrun.memory_iff hlimit i.sized fun raw hraw heq => by
        have := hearlier raw hraw
        rw [heq] at this
        exact Nat.lt_irrefl _ this
      rw [hmodule] at hiff
      rcases hiff.1 hne with hnone | himport
      · exact hnone rfl
      · exact hclash (Or.inr ⟨hmemory, himport⟩)
    · refine hrun.lacks i.earlier htable hmemory ?_
      rw [hmodule]
      cases i.added.kind <;> first | rfl | trivial

/-- An empty section is neutral if no load comes to it or it clashes with no import. -/
theorem Insertion.neutral (hbytes : stream.bytes = i.original)
    (hbytes' : stream'.bytes = i.extended)
    (hending : stream'.ending = stream.ending)
    (hlength : i.extended.length + 2 ^ 32 ≤ usizeMax)
    (hclash : ¬(i.Clashes ∧ i.Reached env name stream t)) :
    SameLoad (Module.new env name (Reader.new stream) t)
      (Module.new env name (Reader.new stream') t) := by
  rcases i.meet env name t hbytes hbytes' hending hlength with
    ⟨u, v, last, seen, w, w', n, n', stop, hrun, huv, hmodule, hlimit, hs, ht⟩ | ⟨-, hsame⟩
  · have hlast := hrun.last_lt i.earlier (by
      have hvector := i.added.vector
      cases hk : i.added.kind <;> rw [hk] at hvector <;> first | decide | cases hvector)
    have hreached : i.Reached env name stream t := ⟨w, u, last, hs.header, hrun⟩
    have hlacks := i.lacks (fun h => hclash ⟨h, hreached⟩) hrun hmodule hlimit
    rw [← huv.like.module] at hlacks
    obtain ⟨n', rfl⟩ : ∃ m, n' = m + 1 := Nat.exists_eq_succ_of_ne_zero (by have := ht.fuel; omega)
    obtain ⟨hroom, hmax⟩ := huv.room_added
    obtain ⟨r, hround, hview⟩ := i.added.round env seen n' (m := v.module)
      huv.input' hroom hmax hlast fun s size hinput hlimit hm => by
        obtain ⟨r, hr, hview⟩ := @readSection_empty env s _ _ _ size i.added.vector
          i.added.empty hinput hlimit (hm ▸ hlacks)
        exact ⟨r, by rw [hr, ← hm], hview⟩
    have hfuel' :
        ({ v with wasm := r, module := v.module } : LoadState).wasm.input.length < n' := by
      have hfuel := ht.fuel
      rw [huv.input', List.nil_append, List.length_append] at hfuel
      have hpos : 0 < i.added.raw.bytes.length := Nat.succ_pos _
      rw [(Reader.of_after hview).1]
      omega
    have hafter := alike_after env seen i.later hlast (huv.added hview) hs.fuel hfuel'
    rw [← hround, ← hs.sections, ← ht.sections] at hafter
    have hbody := alike_readBody hafter
    rw [← hs.read, ← ht.read] at hbody
    exact sameLoad_of_alike hbody
  · exact hsame

theorem Reaches.of_isOk {u w : LoadState} {last : SectionKind} {seen : Bool} {n : ℕ} {r : Reader}
    (h : Reaches env name (t.start name r) u last seen w n)
    (hok : (Module.new env name r t).isOk = true) :
    ∃ b s, readSections env n last seen u = .ok b s ∧
      ∃ t', Module.new env name r t = .ok s.module t' := by
  obtain ⟨m, t', hnew⟩ := Outcome.isOk_iff.1 hok
  have hread : Module.read env name (t.start name r) = readBody env w := h.read
  unfold Module.new at hnew ⊢
  unfold LoadTarget.start at hread
  rw [hread] at hnew ⊢
  unfold readBody at hnew ⊢
  rw [bind_of_ok (get_apply w)] at hnew ⊢
  cases hs : readSections env (w.wasm.input.length + 1) .custom false w with
  | ok b s =>
      refine ⟨b, s, h.sections.symm.trans hs, ?_⟩
      rw [bind_of_ok hs, bind_of_ok (get_apply s)] at hnew ⊢
      by_cases hcount : b = false ∧ s.module.functions ≠ []
      · rw [if_pos hcount] at hnew
        cases hnew
      · rw [if_neg hcount]
        exact ⟨_, rfl⟩
  | error | panic | diverge =>
      rw [bind_apply, hs] at hnew
      cases hnew

/-- An empty table section after an imported table makes the load fail. -/
theorem Insertion.fails (hbytes : stream.bytes = i.original) (hbytes' : stream'.bytes = i.extended)
    (hending : stream'.ending = stream.ending)
    (hlength : i.extended.length + 2 ^ 32 ≤ usizeMax) (hkind : i.added.kind = .table)
    (himport : ∃ raw ∈ i.before, raw.ImportsTable)
    (hok : (Module.new env name (Reader.new stream) t).isOk = true) :
    (Module.new env name (Reader.new stream') t).isOk = false := by
  rcases i.meet env name t hbytes hbytes' hending hlength with
    ⟨u, v, last, seen, w, w', n, n', stop, hrun, huv, hmodule, hlimit, hs, ht⟩ | ⟨hfail, -⟩
  · have hlast := hrun.last_lt i.earlier (by rw [hkind]; decide)
    have htable := (hrun.table_iff hlimit i.sized fun raw hraw heq => by
      have := i.earlier raw hraw
      rw [heq, hkind] at this
      exact Nat.lt_irrefl _ this).2 (Or.inr himport)
    rw [← huv.like.module] at htable
    obtain ⟨n', rfl⟩ : ∃ m, n' = m + 1 := Nat.exists_eq_succ_of_ne_zero (by have := ht.fuel; omega)
    rw [isOk_new, ht.read]
    refine isOk_readBody ?_
    rw [ht.sections]
    exact i.added.round_table hkind huv.input' huv.room_added.1 hlast htable
  · rw [hfail] at hok
    cases hok

/-- An empty memory section after an imported memory takes the memory away. -/
theorem Insertion.forgets (hbytes : stream.bytes = i.original)
    (hbytes' : stream'.bytes = i.extended)
    (hending : stream'.ending = stream.ending)
    (hlength : i.extended.length + 2 ^ 32 ≤ usizeMax) (hkind : i.added.kind = .memory)
    (himport : ∃ raw ∈ i.before, raw.ImportsMemory)
    (hok : (Module.new env name (Reader.new stream) t).isOk = true) :
    ¬SameLoad (Module.new env name (Reader.new stream) t)
      (Module.new env name (Reader.new stream') t) := by
  intro hsame
  have hok' := hsame.isOk_eq ▸ hok
  rcases i.meet env name t hbytes hbytes' hending hlength with
    ⟨u, v, last, seen, w, w', n, n', stop, hrun, huv, hmodule, hlimit, hs, ht⟩ | ⟨hfail, -⟩
  · have hlast := hrun.last_lt i.earlier (by rw [hkind]; decide)
    have hmemory := (hrun.memory_iff hlimit i.sized fun raw hraw heq => by
      have := i.earlier raw hraw
      rw [heq, hkind] at this
      exact Nat.lt_irrefl _ this).2 (Or.inr himport)
    obtain ⟨n', rfl⟩ : ∃ m, n' = m + 1 := Nat.exists_eq_succ_of_ne_zero (by have := ht.fuel; omega)
    obtain ⟨b, s, hsections, t₁, hnew⟩ := hs.of_isOk hok
    obtain ⟨b', s', hsections', t₂, hnew'⟩ := ht.of_isOk hok'
    -- the first load ends with the imported memory
    have hkeeps : s.module.memory = u.module.memory := by
      have halike := alike_after env seen i.later hlast huv.left hs.fuel hs.fuel
      rw [hsections] at halike
      generalize hr : readSections env n i.added.kind seen u = o at halike
      cases halike with
      | ok _ hlike =>
        rw [← hlike.module]
        exact readSections_memory (by rw [hkind]) hr
    -- and the second one without
    have hnone : s'.module.memory = none := by
      obtain ⟨hroom, hmax⟩ := huv.room_added
      obtain ⟨r, hround, -⟩ := i.added.round env seen n'
        (m := { v.module with memory := none }) huv.input' hroom hmax hlast
        fun s size hinput hlimit hm => by
          obtain ⟨r, hr, hview⟩ := @readSection_emptyMemory env s _ _ size
            i.added.empty hinput hlimit
          exact ⟨r, by rw [hkind, hr, ← hm], hview⟩
      rw [hround] at hsections'
      exact readSections_memory (by rw [hkind]) hsections'
    rw [hnew, hnew'] at hsame
    have hmodule : s.module = s'.module := Option.some.inj hsame.value_eq
    rw [← hkeeps, hmodule, hnone] at hmemory
    exact hmemory rfl
  · rw [hfail] at hok
    cases hok

end Insertion

/-- An empty section is neutral, unless a load comes to it and it is the table section of
a module that imports its table or the memory section of one that imports its memory.
Then a binary that loads without it or with it does not load the same way with it. -/
theorem emptySection_neutral (i : Insertion) (env : LoadEnv) (name : Name) (t : LoadTarget)
    (stream stream' : WasmStream) (hbytes : stream.bytes = i.original)
    (hbytes' : stream'.bytes = i.extended) (hending : stream'.ending = stream.ending)
    (hlength : i.extended.length + 2 ^ 32 ≤ usizeMax) :
    (¬(i.Clashes ∧ i.Reached env name stream t) →
      SameLoad (Module.new env name (Reader.new stream) t)
        (Module.new env name (Reader.new stream') t)) ∧
    ((Module.new env name (Reader.new stream) t).isOk = true ∨
        (Module.new env name (Reader.new stream') t).isOk = true →
      (SameLoad (Module.new env name (Reader.new stream) t)
          (Module.new env name (Reader.new stream') t) ↔
        ¬(i.Clashes ∧ i.Reached env name stream t))) := by
  have hneutral := @Insertion.neutral i env name t _ _ hbytes hbytes' hending hlength
  refine ⟨hneutral, fun hok => ⟨fun hsame hclash => ?_, hneutral⟩⟩
  have hok : (Module.new env name (Reader.new stream) t).isOk = true :=
    hok.elim id fun h => hsame.isOk_eq.trans h
  rcases hclash.1 with ⟨hkind, himport⟩ | ⟨hkind, himport⟩
  · have hfails := i.fails hbytes hbytes' hending hlength hkind himport hok
    rw [← hsame.isOk_eq, hok] at hfails
    cases hfails
  · exact i.forgets hbytes hbytes' hending hlength hkind himport hok hsame

/-! ### A module that imports its table -/

theorem declares_byte {b : U8} (hb : b.toNat < 128) : Declares [b] b.toNat := by
  have hinput : (Reader.new (.ofBytes [b])).input = [b] := WasmStream.bytes_ofBytes [b]
  obtain ⟨t, ht, hview⟩ := readU8_of_input hinput (by decide : 0 < usizeMax)
  obtain ⟨hinput', -, hoffset, -⟩ := Reader.of_after hview
  refine ⟨_, BitVec.ofNat 32 (lebPayload b), t, ?_, ⟨?_, hoffset⟩, ?_⟩
  · unfold readU32
    rw [bind_of_ok ht, if_pos (by simp [lebContinues]; omega)]
    rfl
  · rw [hinput, hinput']
    rfl
  · rw [lebPayload, Nat.mod_eq_of_lt hb, BitVec.toNat_ofNat, Nat.mod_eq_of_lt (by omega)]

/-- A host module with a table. -/
def tableHost : HostSetup := {
  maxModules := 8
  hostModules := [⟨[0x68], [], [], [], [⟨[0x74], 0, ⟨1, none⟩⟩]⟩]
  memories := []
  tables := [[.uninitialized]]
  hostModules_le := by decide
  functions_le := by simp
  globals_le := by simp
  memory_le := by simp
  table_le := by simp
  memory := by simp
  table := by simp }

def tableStore : Store :=
  ⟨[], 8, tableHost.hostModules, [Memory.zero], [[.uninitialized], []], 0, 1⟩

theorem tableStore_eq : tableHost.store = .ok tableStore := rfl

/-- An import section with the table of the host module. -/
def tableImport : RawSection :=
  ⟨.import_, [0x09], [0x01, 0x01, 0x68, 0x01, 0x74, 0x01, 0x70, 0x00, 0x01], []⟩

theorem tableImport_sized : ∀ raw ∈ [tableImport], raw.Sized := by
  intro raw hraw
  obtain rfl := List.mem_singleton.1 hraw
  exact declares_byte (b := 0x09) (by decide)

/-- An empty section of one of the kinds after the import section. -/
def emptySection (kind : SectionKind) (h : kind.isVector = true) : EmptySection :=
  ⟨kind, [0x01], [0x00], h, declares_byte (b := 0x01) (by decide),
    declares_byte (b := 0x00) (by decide)⟩

/-- The module with the import alone, and an empty section after it. -/
def importThen (kind : SectionKind) (h : kind.isVector = true) (hlt : 2 < kind.toNat) :
    Insertion := {
  before := [tableImport]
  added := emptySection kind h
  after := []
  sized := tableImport_sized
  earlier := by
    intro raw hraw
    obtain rfl := List.mem_singleton.1 hraw
    exact hlt
  later := .nil }

/-- An empty table section after the import makes the module invalid. -/
theorem emptyTable_not_neutral :
    tableHost.store = .ok tableStore ∧
      ¬SameLoad
        (Module.new simpleEnv []
          (Reader.new (.ofBytes (importThen .table rfl (by decide)).original))
          ⟨tableStore, emptyBuilder⟩)
        (Module.new simpleEnv []
          (Reader.new (.ofBytes (importThen .table rfl (by decide)).extended))
          ⟨tableStore, emptyBuilder⟩) := by
  refine ⟨tableStore_eq, fun h => ?_⟩
  have hok := h.isOk_eq
  revert hok
  decide +kernel

/-- An empty memory section after it is neutral. -/
theorem emptyMemory_neutral :
    SameLoad
      (Module.new simpleEnv [] (Reader.new (.ofBytes (importThen .memory rfl (by decide)).original))
        ⟨tableStore, emptyBuilder⟩)
      (Module.new simpleEnv [] (Reader.new (.ofBytes (importThen .memory rfl (by decide)).extended))
        ⟨tableStore, emptyBuilder⟩) := by
  refine (emptySection_neutral (importThen .memory rfl (by decide)) simpleEnv []
    ⟨tableStore, emptyBuilder⟩
    _ _ (WasmStream.bytes_ofBytes _) (WasmStream.bytes_ofBytes _) (by decide +kernel)
    (by decide +kernel)).1 ?_
  rintro ⟨⟨hkind, -⟩ | ⟨-, raw, hraw, -, d, hd, hmem⟩, -⟩
  · cases hkind
  · obtain rfl := List.mem_singleton.1 hraw
    have hnone : (importDecls tableImport.body).any (fun d => d.desc.isMemory) = false := by
      decide +kernel
    exact List.any_eq_false.1 hnone d hd hmem

end SpaceWasm
