import SpaceWasm.History
import SpaceWasm.Requests

/-!
# Counts are checked before vectors are allocated

A count in front of a vector can be far larger than the rest of the module. `read_vec`
checks it, and all vectors of a load but one are read by it. The export section has a
loop of its own, without the check: what the allocator is asked for is bounded if and
only if no export section that the decoder comes to announces more exports than it has
bytes.
-/

namespace SpaceWasm

open Fallible

/-! ### Parts of a load without requests -/

section Silent

variable (env : LoadEnv)

theorem silent_linking {α : Type} (f : Store → LinkM α) : Silent (linking f) :=
  .bind .get fun _ => .zoom fun _ _ => rfl

theorem silent_readConstant : Silent (readConstant env) :=
  .bind .get fun _ => .bind (.zoom fun _ _ => rfl) fun value => .unwrap value

theorem silent_setFunction (i : ℕ) (f : Func) : Silent (setFunction i f) := .modify fun _ => rfl

theorem silent_readCustomSection (size : ℕ) : Silent (readCustomSection size) := by
  refine .bind (.gets _) fun start => .bind (.decoding _) fun _ => .bind (.gets _) fun stop => ?_
  exact .ite (.throw _) (.limited _ (.decoding _))

theorem silent_readImport : Silent Import.read := by
  refine .bind (.decoding _) fun moduleName => .bind (.decoding _) fun name => ?_
  exact .bind (.decoding _) fun desc => .bind .get fun s => silent_linking _

theorem silent_importMemory (kind : MemoryKind) : Silent (importMemory kind) := by
  intro s
  unfold importMemory
  rw [bind_of_ok (get_apply s)]
  by_cases h : s.module.memory ≠ none
  · rw [if_pos h]
    rfl
  · rw [if_neg h]
    rfl

theorem silent_importTable (kind : TableKind) : Silent (importTable kind) := by
  intro s
  unfold importTable
  rw [bind_of_ok (get_apply s)]
  by_cases h : s.module.table ≠ none
  · rw [if_pos h]
    rfl
  · rw [if_neg h]
    rfl

theorem silent_present {β : Type} (o : Option β) : Silent (present o) :=
  .bind (.unwrap o) fun _ => .pure ()

theorem silent_resolveImport (i : Import) : Silent (resolveImport i) := by
  cases i with
  | memory module index =>
      exact .bind (silent_importMemory _) fun _ => .bind .get fun s => silent_present _
  | hostMemory module index =>
      exact .bind (silent_importMemory _) fun _ => .bind .get fun s => silent_present _
  | table module index =>
      exact .bind (silent_importTable _) fun _ => .bind .get fun s => silent_present _
  | hostTable module index =>
      exact .bind (silent_importTable _) fun _ => .bind .get fun s => silent_present _
  | _ => exact .pure ()

theorem silent_readFuncDecl : Silent readFuncDecl := by
  refine .bind (.decoding _) fun tyIdx => .bind .get fun s => .bind (.okOr _ _) fun ty => ?_
  exact .ite (.throw _) (.ite (.throw _) (.pure _))

theorem silent_readGlobal : Silent (Global.read env) := by
  refine .bind (.decoding _) fun type => .bind (silent_readConstant env) fun init => ?_
  exact .ite (.throw _) (.pure _)

theorem silent_checkStart (ty : FuncType) : Silent (checkStart ty) := .ite (.throw _) (.pure ())

theorem silent_readStartSection : Silent readStartSection := by
  refine .bind (.decoding _) fun idx => .bind .get fun s => .bind (.okOr _ _) fun r => ?_
  cases r with
  | module index =>
      refine .bind (.unwrap _) fun f => .bind (.unwrap _) fun ty => ?_
      exact .bind (silent_checkStart ty) fun _ => .modify fun _ => rfl
  | host module index => exact .bind (.throw _) fun _ => .modify fun _ => rfl
  | extern_ module index =>
      refine .bind (.unwrap _) fun m => .bind (.unwrap _) fun f => .bind (.unwrap _) fun ty => ?_
      exact .bind (silent_checkStart ty) fun _ => .modify fun _ => rfl

theorem silent_getTableMut : Silent (getTableMut env) := by
  refine .bind .get fun s => ?_
  cases s.module.table with
  | none => exact .pure none
  | some kind =>
      cases kind with
      | owned table ty => exact .bind (.pure _) fun _ => .ite (.pure _) (.throw _)
      | import_ i =>
          exact .bind (.unwrap _) fun _ => .bind (.pure _) fun _ => .ite (.pure _) (.throw _)
      | importHost i =>
          exact .bind (.unwrap _) fun _ => .bind (.pure _) fun _ => .ite (.pure _) (.throw _)

theorem silent_segmentOffset (e : ValidationError) (v : Value) : Silent (segmentOffset e v) := by
  cases v with
  | i32 i => exact .pure i
  | _ => exact .throw e

theorem silent_readElementFunc (index : ℕ) : Silent (readElementFunc env index) := by
  refine .bind (.decoding _) fun idx => .bind .get fun s => .bind (.okOr _ _) fun r => ?_
  refine .bind (silent_getTableMut env) fun table => ?_
  cases table with
  | none => exact .throw _
  | some table => exact .bind (.unwrap _) fun entries => .ite (.throw _) (.modify fun _ => rfl)

theorem silent_readElementFuncs (n index : ℕ) : Silent (readElementFuncs env n index) := by
  induction n generalizing index with
  | zero => exact .pure ()
  | succ n ih => exact .bind (silent_readElementFunc env index) fun _ => ih (index + 1)

theorem silent_readElement : Silent (readElement env) := by
  refine .bind (.decoding _) fun table => .ite (.throw _) ?_
  refine .bind (silent_readConstant env) fun value => ?_
  refine .bind (silent_segmentOffset _ value) fun offset => .bind (.decoding _) fun initLen => ?_
  refine .bind (silent_getTableMut env) fun table => ?_
  have hfuncs := silent_readElementFuncs env initLen.toNat offset.toNat
  cases table with
  | none => exact .bind (.throw _) fun _ => hfuncs
  | some table =>
      refine .bind .get fun s => .bind (.unwrap _) fun entries => ?_
      refine .ite (.bind (.throw _) fun _ => hfuncs) ?_
      exact .ite (.bind (.throw _) fun _ => hfuncs) (.bind (.pure ()) fun _ => hfuncs)

theorem silent_memoryResult {α : Type} (x : Except MemoryError α) : Silent (memoryResult x) := by
  cases x with
  | ok a => exact .pure a
  | error e => exact .throw _

theorem silent_storeBytes (mem : MemRef) (addr : ℕ) (data : List U8) :
    Silent (storeBytes mem addr data) := by
  intro s
  unfold storeBytes
  rw [bind_of_ok (get_apply s)]
  cases s.store.memories[mem]? with
  | none => trivial
  | some m =>
      cases h : m.store addr data with
      | ok m' => simp [bind_apply, h, memoryResult]
      | error e => simp [bind_apply, h, memoryResult]

theorem silent_readDataBytes (mem : MemRef) (offset : U32) (n i : ℕ) :
    Silent (readDataBytes mem offset n i) := by
  induction n generalizing i with
  | zero => exact .pure ()
  | succ n ih =>
      refine .bind (silent_memoryResult _) fun addr => .bind (.decoding _) fun b => ?_
      exact .bind (silent_storeBytes mem addr [b]) fun _ => ih (i + 1)

theorem silent_readData (memory : MemRef) : Silent (readData env memory) := by
  refine .bind (.decoding _) fun mem => .ite (.throw _) (.bind .get fun s => .ite (.throw _) ?_)
  refine .bind (silent_readConstant env) fun value => ?_
  refine .bind (silent_segmentOffset _ value) fun offset => .bind (.decoding _) fun len => ?_
  refine .bind (silent_readDataBytes memory offset _ 0) fun _ => ?_
  exact .ite (silent_storeBytes memory _ []) (.pure ())

theorem silent_readDataSection : Silent (readDataSection env) := by
  refine .bind (.decoding _) fun len => .ite (.pure ()) (.bind .get fun s => ?_)
  cases s.module.memory with
  | none => exact .throw _
  | some kind =>
      cases kind with
      | owned mem => exact .bind (.pure _) fun memory => .iterate (silent_readData env memory) _
      | import_ i => exact .bind (.unwrap _) fun memory => .iterate (silent_readData env memory) _
      | importHost i =>
          exact .bind (.unwrap _) fun memory => .iterate (silent_readData env memory) _

theorem silent_readElementSection : Silent (readElementSection env) :=
  .bind (.decoding _) fun _ => .iterate (silent_readElement env) _

end Silent

/-! ### Sections that obey -/

def vettedName : Vetted Name.read :=
  (Vetted.readVec (.silent (.decoding readU8))).bind fun _ => .silent (.ite (.pure _) (.throw _))

def vettedFuncType : Vetted FuncType.read :=
  (Vetted.silent (.decoding readU8)).bind fun _ => .ite
    ((Vetted.readVec (.silent (.decoding ValType.read))).bind fun _ =>
      (Vetted.readVec (.silent (.decoding ValType.read))).bind fun _ =>
        .silent (.ite (.throw _) (.pure _)))
    (.silent (.throw _))

def vettedFunctionCode (env : LoadEnv) (i : ℕ) : Vetted (readFunctionCode env i) :=
  (Vetted.silent (.decoding readU32)).bind fun size =>
  (Vetted.silent (.gets _)).bind fun _ =>
  (Vetted.silent .get).bind fun _ =>
  (Vetted.silent (.unwrap _)).bind fun _ =>
  (Vetted.silent (silent_setFunction i _)).bind fun _ =>
  (Vetted.limited size.toNat
    ((Vetted.readVec (.silent (.decoding readLocals))).bind fun _ =>
      (Vetted.silent (.okOr _ _)).bind fun _ =>
      .ite (.silent (.throw _))
        ((Vetted.other (.code env _)).bind fun _ => .silent (.pure _)))).bind fun f =>
  .ite (.silent (.throw _))
    (.silent (.bind (silent_setFunction i f) fun _ => .bind (.gets _) fun _ =>
      .ite (.throw _) (.pure ())))

def vettedFunctionCodes (env : LoadEnv) : (n i : ℕ) → Vetted (readFunctionCodes env n i)
  | 0, _ => .silent (.pure ())
  | n + 1, i => (vettedFunctionCode env i).bind fun _ => vettedFunctionCodes env n (i + 1)

def vettedCodeSection (env : LoadEnv) : Vetted (readCodeSection env) :=
  (Vetted.silent (.decoding readU32)).bind fun n => (Vetted.silent .get).bind fun _ =>
    .ite (.silent (.throw _)) (vettedFunctionCodes env n.toNat 0)

def vettedImportSection : Vetted readImportSection :=
  (Vetted.readVec (.silent silent_readImport)).bind fun imports =>
    .silent (.bind (.modify fun _ => rfl) fun _ => .forEach silent_resolveImport imports)

def vettedTypeSection : Vetted readTypeSection :=
  (Vetted.readVec vettedFuncType).bind fun _ => .silent (.modify fun _ => rfl)

def vettedFunctionSection : Vetted readFunctionSection :=
  (Vetted.readVec (.silent silent_readFuncDecl)).bind fun _ =>
    .silent (.ite (.throw _) (.modify fun _ => rfl))

def vettedTableSection : Vetted readTableSection :=
  (Vetted.silent .get).bind fun _ => .ite (.silent (.throw _))
    ((Vetted.silent (.decoding readU32)).bind fun _ => .ite (.silent (.modify fun _ => rfl))
      (.ite
        ((Vetted.silent (.decoding TableType.read)).bind fun ty =>
          (Vetted.other (.table ty.limits.min)).bind fun _ => .silent (.modify fun _ => rfl))
        (.silent (.throw _))))

def vettedMemorySection (env : LoadEnv) : Vetted (readMemorySection env) :=
  (Vetted.silent (.decoding readU32)).bind fun _ => .ite (.silent (.throw _))
    (.ite (.silent (.modify fun _ => rfl))
      ((Vetted.silent .get).bind fun _ => .ite (.silent (.throw _))
        ((Vetted.silent (.decoding MemType.read)).bind fun ty =>
          (Vetted.other (.memory env ty)).bind fun _ => .silent (.modify fun _ => rfl))))

def vettedGlobalSection (env : LoadEnv) : Vetted (readGlobalSection env) :=
  (Vetted.readVec (.silent (silent_readGlobal env))).bind fun _ =>
    .silent (.ite (.throw _) (.modify fun _ => rfl))

def vettedExport : Vetted Export.read :=
  vettedName.bind fun _ => .silent (.bind (.decoding _) fun _ => .bind .get fun _ =>
    .bind (.ofExcept _) fun _ => .pure _)

def vettedExports : (n : ℕ) → (out : List Export) → Vetted (readExports n out)
  | 0, out => .silent (.pure out)
  | n + 1, out => vettedExport.bind fun e =>
    .ite (.silent (.throw _)) (vettedExports n (out ++ [e]))

/-- `read_vec_stack` asks for nothing, and rejects a count that is too large as well. -/
theorem readVecStack_rejects {α : Type} {size : ℕ} {x : ReaderM α} {r t : Reader} {len : U32}
    (h : readU32 r = .ok len t) (hlen : t.bytesRemaining < len.toNat) :
    readVecStack size x r = .error .vecTooLong t := by
  unfold readVecStack
  rw [bind_of_ok h, bind_of_ok (gets_apply _ t), if_pos (Or.inr hlen)]
  rfl

/-! ### The export section -/

/-- `ExportSection::read` asks for the vector as soon as it has read the count. -/
def exportScript : Script readExportSection :=
  .counted fun len => .bind (.newVec len.toNat) fun _ =>
    .bind (vettedExports len.toNat []).script fun _ => .silent (.modify fun _ => rfl)

/-- The count of the export section that starts here, if it has one, is at most the
number of bytes that remain of the section after it. -/
def ExportsFit (s : LoadState) : Prop :=
  ∀ len t, decoding readU32 s = .ok len t → len.toNat ≤ t.wasm.bytesRemaining

theorem exportScript_obeys {s : LoadState} (h : ExportsFit s) :
    Obeys (· = .vecTooLong) (readExportSection s) (exportScript.events s) := by
  refine .counted fun len t ht => .cons ?_ (h len t ht)
  refine .bind (.newVec (h len t ht)) fun _ u _ => ?_
  exact .bind ((vettedExports len.toNat []).obeys u) fun _ _ _ => .nil

theorem exportScript_request {s t : LoadState} {len : U32} (hread : decoding readU32 s = .ok len t)
    (hlen : t.wasm.bytesRemaining < len.toNat) :
    .request len.toNat t.wasm.bytesRemaining ∈ exportScript.events s := by
  have hpos : 0 < len.toNat := Nat.lt_of_le_of_lt (Nat.zero_le _) hlen
  have hvec : .request len.toNat t.wasm.bytesRemaining ∈ (Script.newVec len.toNat).events t := by
    rw [Script.events, if_pos hpos]
    exact List.mem_singleton_self _
  exact Script.mem_counted hread (Script.mem_bind_left hvec)

/-! ### All sections -/

variable {env : LoadEnv} {last : SectionKind} {seen : Bool} {fuel : ℕ} {s : LoadState}

def sectionScript (env : LoadEnv) (size : ℕ) : (kind : SectionKind) →
    Script (readSection env size kind)
  | .custom => .silent (silent_readCustomSection size)
  | .type => vettedTypeSection.script
  | .import_ => vettedImportSection.script
  | .function => vettedFunctionSection.script
  | .table => vettedTableSection.script
  | .memory => (vettedMemorySection env).script
  | .global => (vettedGlobalSection env).script
  | .export_ => exportScript
  | .start => .silent silent_readStartSection
  | .element => .silent (silent_readElementSection env)
  | .code => (vettedCodeSection env).script
  | .data => .silent (silent_readDataSection env)

theorem sectionScript_obeys {size : ℕ} {kind : SectionKind} (h : kind = .export_ → ExportsFit s) :
    Obeys (· = .vecTooLong) (readSection env size kind s)
      ((sectionScript env size kind).events s) := by
  cases kind with
  | custom => exact .nil
  | type => exact vettedTypeSection.obeys s
  | import_ => exact vettedImportSection.obeys s
  | function => exact vettedFunctionSection.obeys s
  | table => exact vettedTableSection.obeys s
  | memory => exact (vettedMemorySection env).obeys s
  | global => exact (vettedGlobalSection env).obeys s
  | export_ => exact exportScript_obeys (h rfl)
  | start => exact .nil
  | element => exact .nil
  | code => exact (vettedCodeSection env).obeys s
  | data => exact .nil

def bodyScript (env : LoadEnv) (kind : SectionKind) : Script (readSectionBody env kind) :=
  .bind (.silent (.mapError _ (.decoding readU32))) fun size =>
  .bind (.silent (.mapError _ (.gets _))) fun _ =>
  .bind (.within ValidationError.toSectionDecodeError size.toNat
    (.mapError _ (sectionScript env size.toNat kind))) fun _ =>
  .silent (.bind (.mapError _ (.gets _)) fun _ => .ite (.throw _) (.pure ()))

theorem readSections_succ (env : LoadEnv) (fuel : ℕ) (last : SectionKind) (seen : Bool) :
    readSections env (fuel + 1) last seen =
      handle (decoding SectionKind.read)
        (fun e => if e = .eof then pure seen else throw e.toSectionDecodeError) (fun kind => do
          let last ← plain (ofExcept (checkOrder last kind))
          readSectionBody env kind
          readSections env fuel last (seen || decide (kind = SectionKind.code))) := by
  funext s
  simp only [readSections, handle]
  cases decoding SectionKind.read s with
  | error e t => cases e <;> rfl
  | ok | panic | diverge => rfl

def sectionsScript (env : LoadEnv) : (fuel : ℕ) → (last : SectionKind) → (seen : Bool) →
    Script (readSections env fuel last seen)
  | 0, _, _ => .silent .diverge
  | fuel + 1, last, seen =>
      .congr (readSections_succ env fuel last seen)
        (.handle (.silent (.decoding _)) (fun _ => .silent (.ite (.pure _) (.throw _))) fun kind =>
          .bind (.silent (.mapError _ (.ofExcept _))) fun last =>
          .bind (bodyScript env kind) fun _ => sectionsScript env fuel last _)

def headerScript (name : Name) : Script (readHeader name) :=
  .bind (.silent (.mapError _ (.decoding _))) fun _ => .ite (.silent (.throw _))
    (.bind (.silent (.mapError _ (.decoding _))) fun _ => .ite (.silent (.throw _))
      (.bind (.silent .get) fun _ =>
        .bind (.silent (.mapError _ (.ofExcept _))) fun _ => .other (.name name)))

def moduleScript (env : LoadEnv) (name : Name) : Script (Module.read env name) :=
  .congr (Module.read_eq env name)
    (.bind (headerScript name) fun _ =>
      .bind (.silent .get) fun s =>
      .bind (sectionsScript env (s.wasm.input.length + 1) .custom false) fun _ =>
      .silent (.bind .get fun _ => .ite (.throw _) (.pure _)))

/-- The counts and the vectors of a load. -/
def Module.vecEvents (env : LoadEnv) (name : Name) (wasm : Reader) (t : LoadTarget) :
    List VecEvent :=
  (moduleScript env name).events (t.start name wasm)

/-! ### Runs of sections -/

theorem bodyScript_obeys {kind : SectionKind}
    (h : kind = .export_ → ∀ size t, decoding readU32 s = .ok size t → t.Admits size.toNat →
      ExportsFit (t.enter size.toNat)) :
    Obeys (fun e : SectionDecodeError => e.err = .vecTooLong) (readSectionBody env kind s)
      ((bodyScript env kind).events s) := by
  refine .bind .nil fun size t ht => .bind .nil fun start u hu => ?_
  cases hu
  refine .bind (.within fun hadmits => .mapError ?_ (sectionScript_obeys fun hkind =>
    h hkind size t (mapError_eq_ok.1 ht) hadmits)) fun _ _ _ => .nil
  rintro _ rfl
  rfl

theorem bodyScript_request {size : U32} {t : LoadState} {ev : VecEvent}
    (hsize : decoding readU32 s = .ok size t) (hadmits : t.Admits size.toNat)
    (hev : ev ∈ exportScript.events (t.enter size.toNat)) :
    ev ∈ (bodyScript env .export_).events s := by
  refine Script.mem_bind_right (mapError_eq_ok.2 hsize) (Script.mem_bind_right rfl ?_)
  exact Script.mem_bind_left (Script.mem_within hadmits (Script.mem_mapError hev))

/-- Sections obey if the export sections among them have counts that fit. -/
theorem sectionsScript_obeys (hlimit : s.wasm.limit = usizeMax)
    (h : ∀ u, AtSection env s last .export_ u → u.wasm.limit ≤ usizeMax → ExportsFit u) :
    Obeys (fun e : SectionDecodeError => e.err = .vecTooLong) (readSections env fuel last seen s)
      ((sectionsScript env fuel last seen).events s) := by
  induction fuel generalizing last seen s with
  | zero => exact .nil
  | succ fuel ih =>
      refine .congr _ (.handle rfl (fun e t _ => .nil) fun kind t ht => ?_)
      refine .bind .nil fun next u hu => ?_
      obtain ⟨horder, rfl⟩ := ofExcept_eq_ok.1 (mapError_eq_ok.1 hu)
      refine .bind (bodyScript_obeys ?_) fun _ v hv => ih ?_ ?_
      · rintro rfl size w hw hadmits
        exact h _ (.here ht horder hw) hadmits.1
      · rw [(readSectionBody_advances hv).limit, (advances_sectionKind ht).limit, hlimit]
      · exact fun w hw => h w (.later ht horder hv hw)

/-- The events of an export section that the loop comes to. -/
theorem sectionsScript_request {kind : SectionKind} {u : LoadState} {ev : VecEvent}
    (hat : AtSection env s last kind u) (hkind : kind = .export_)
    (hfuel : s.wasm.input.length < fuel) (hlimit : s.wasm.limit = usizeMax)
    (hu : u.wasm.limit ≤ usizeMax) (hev : ev ∈ exportScript.events u) :
    ev ∈ (sectionsScript env fuel last seen).events s := by
  induction hat generalizing fuel seen with
  | @here s₀ s₁ s₂ last kind next size hread horder hsize =>
      subst hkind
      obtain ⟨fuel, rfl⟩ := Nat.exists_eq_succ_of_ne_zero (Nat.ne_of_gt (Nat.zero_lt_of_lt hfuel))
      have hadmits : s₂.Admits size.toNat := by
        have hlimit₂ := (Guarded.ok (quiet_decoding decoder_readU32) (.refl s₁) hsize).1.wasm.limit
        refine ⟨hu, ?_⟩
        rw [hlimit₂, (advances_sectionKind hread).limit, hlimit]
        exact hu
      have hnext : plain (ofExcept (checkOrder last .export_)) s₁ = .ok next s₁ :=
        mapError_eq_ok.2 (ofExcept_eq_ok.2 ⟨horder, rfl⟩)
      refine Script.mem_handle hread (Script.mem_bind_right hnext (Script.mem_bind_left ?_))
      exact bodyScript_request hsize hadmits hev
  | @later s₀ s₁ s₂ u last kind next kind' hread horder hbody hat ih =>
      obtain ⟨fuel, rfl⟩ := Nat.exists_eq_succ_of_ne_zero (Nat.ne_of_gt (Nat.zero_lt_of_lt hfuel))
      have hlt := sectionKind_consumes hread
      have hle := (readSectionBody_advances hbody).length_le
      have hnext : plain (ofExcept (checkOrder last kind)) s₁ = .ok next s₁ :=
        mapError_eq_ok.2 (ofExcept_eq_ok.2 ⟨horder, rfl⟩)
      refine Script.mem_handle hread (Script.mem_bind_right hnext ?_)
      refine Script.mem_bind_right hbody (ih hkind (by omega) ?_ hu hev)
      rw [(readSectionBody_advances hbody).limit, (advances_sectionKind hread).limit, hlimit]

/-! ### Loads -/

theorem headerScript_events (name : Name) (s : LoadState) : (headerScript name).events s = [] := by
  refine Script.events_bind_nil rfl fun magic t => Script.events_ite_nil rfl ?_
  refine Script.events_bind_nil rfl fun version u => Script.events_ite_nil rfl ?_
  exact Script.events_bind_nil rfl fun v w => Script.events_bind_nil rfl fun _ _ => rfl

/-- A load comes to the body of an export section, in the state `u`. -/
def GetsToExports (env : LoadEnv) (name : Name) (stream : WasmStream) (t : LoadTarget)
    (u : LoadState) : Prop :=
  ∃ w, readHeader name (t.start name (.new stream)) = .ok () w ∧
    AtSection env w .custom .export_ u ∧ u.wasm.limit ≤ usizeMax

theorem limit_readHeader {name : Name} {w : LoadState} (h : readHeader name s = .ok () w) :
    w.wasm.limit = s.wasm.limit :=
  (Guarded.ok (readHeader_frame name) rfl h).wasm.limit

theorem moduleScript_obeys {name : Name} (hlimit : s.wasm.limit = usizeMax)
    (h : ∀ w u, readHeader name s = .ok () w → AtSection env w .custom .export_ u →
      u.wasm.limit ≤ usizeMax → ExportsFit u) :
    Obeys (fun e : SectionDecodeError => e.err = .vecTooLong) (Module.read env name s)
      ((moduleScript env name).events s) := by
  refine .congr _ (.bind ?_ fun _ w hw => ?_)
  · rw [headerScript_events]
    exact .nil
  · refine .bind .nil fun v w' hv => ?_
    cases hv
    refine .bind (sectionsScript_obeys ?_ fun u hu => h w u hw hu) fun _ _ _ => .nil
    rw [limit_readHeader hw, hlimit]

theorem moduleScript_request {name : Name} {w u : LoadState} {ev : VecEvent}
    (hw : readHeader name s = .ok () w) (hat : AtSection env w .custom .export_ u)
    (hlimit : s.wasm.limit = usizeMax) (hu : u.wasm.limit ≤ usizeMax)
    (hev : ev ∈ exportScript.events u) : ev ∈ (moduleScript env name).events s := by
  unfold moduleScript
  rw [Script.events]
  refine Script.mem_bind_right hw (Script.mem_bind_right (get_apply w) (Script.mem_bind_left ?_))
  exact sectionsScript_request hat rfl (Nat.lt_succ_self _)
    ((limit_readHeader hw).trans hlimit) hu hev

/-- In a load of any stream, over any store, no vector with a count is larger than the
bytes that remain and a larger count is rejected before anything is asked for, if and
only if the export sections that the load comes to have counts that fit. -/
theorem vectors_bounded_iff (env : LoadEnv) (name : Name) (stream : WasmStream) (t : LoadTarget) :
    Obeys (fun e : ParseError => e.err.err = .vecTooLong) (Module.new env name (.new stream) t)
        (Module.vecEvents env name (.new stream) t) ↔
      ∀ u, GetsToExports env name stream t u → ExportsFit u := by
  have hlimit : (t.start name (.new stream)).wasm.limit = usizeMax := rfl
  constructor
  · rintro h u ⟨w, hw, hat, hu⟩ len v hread
    by_contra hlt
    have hlt' := Nat.lt_of_not_le hlt
    have hev := moduleScript_request hw hat hlimit hu (exportScript_request hread hlt')
    exact hlt (h.request _ _ hev)
  · intro h
    have hread : Obeys (fun e : SectionDecodeError => e.err = .vecTooLong)
        (Module.read env name (t.start name (.new stream))) _ :=
      moduleScript_obeys hlimit fun w u hw hat hu => h u ⟨w, hw, hat, hu⟩
    refine hread.of_error fun e s hs he => ⟨⟨BitVec.ofNat 32 s.wasm.offset, e⟩, ⟨s.store, s.code⟩,
      ?_, he⟩
    unfold Module.new
    unfold LoadTarget.start at hs
    rw [hs]

/-- An export section that announces 2 ^ 32 - 1 exports and ends there. -/
def hugeExports : WasmStream := .ofBytes
  [0x00, 0x61, 0x73, 0x6D, 0x01, 0x00, 0x00, 0x00, 0x07, 0x05, 0xFF, 0xFF, 0xFF, 0xFF, 0x0F]

/-- The allocator is asked for all of them. -/
theorem hugeExports_unbounded :
    Module.vecEvents simpleEnv [] (.new hugeExports) ⟨emptyStore, emptyBuilder⟩ =
        [.count (2 ^ 32 - 1) 0, .request (2 ^ 32 - 1) 0] ∧
      ¬Obeys (fun e : ParseError => e.err.err = .vecTooLong)
        (Module.new simpleEnv [] (.new hugeExports) ⟨emptyStore, emptyBuilder⟩)
        (Module.vecEvents simpleEnv [] (.new hugeExports) ⟨emptyStore, emptyBuilder⟩) := by
  have hevents : Module.vecEvents simpleEnv [] (.new hugeExports) ⟨emptyStore, emptyBuilder⟩ =
      [.count (2 ^ 32 - 1) 0, .request (2 ^ 32 - 1) 0] := by
    decide +kernel
  refine ⟨hevents, fun h => ?_⟩
  have hle := h.request (2 ^ 32 - 1) 0 (by rw [hevents]; simp)
  omega

end SpaceWasm
