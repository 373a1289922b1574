import SpaceWasm.Congruence
import SpaceWasm.LoadSteps

/-!
# Loading from readers that decoding cannot tell apart

A load takes the bytes of the module from its reader and from nowhere else, so
that two loads whose readers are related, in the sense of `Reader.Congruence`, and
that start with the same store and the same code run in lockstep. They succeed or
fail together and do the same to the store and to the code.
-/

namespace SpaceWasm

open Fallible

/-! ### Parts of a load -/

/-- Related streams, and the same store, code and module. -/
structure LoadState.Like (R : Reader → Reader → Prop) (s t : LoadState) : Prop where
  wasm : R s.wasm t.wasm
  store : t.store = s.store
  code : t.code = s.code
  module : t.module = s.module

variable {E : ValidationError → ValidationError → Prop} {k : ℕ} {R : Reader → Reader → Prop}
variable {α : Type}

/-- The same change to everything but the stream. -/
theorem LoadState.Like.map {s t : LoadState} (h : s.Like R t) (f : Store → Store)
    (g : Module → Module) :
    LoadState.Like R { s with store := f s.store, module := g s.module }
      { t with store := f t.store, module := g t.module } :=
  ⟨h.wasm, congrArg f h.store, h.code, congrArg g h.module⟩

/-- A change that does not depend on the stream. -/
theorem respects_modify {f : LoadState → LoadState}
    (h : ∀ r r' s c m, f ⟨r', s, c, m⟩ = { f ⟨r, s, c, m⟩ with wasm := r' }) :
    Respects E (LoadState.Like R) (modify f) := by
  refine .modify ?_
  rintro ⟨r, s, c, m⟩ ⟨r', s', c', m'⟩ ⟨hwasm, hstore, hcode, hmodule⟩
  simp only at hwasm hstore hcode hmodule
  subst hstore hcode hmodule
  have hr := congrArg LoadState.wasm (h r r s' c' m')
  rw [h r r' s' c' m']
  exact ⟨hr ▸ hwasm, rfl, rfl, rfl⟩

theorem respects_building (hE : ∀ e, E e e) (x : CodeM α) :
    Respects E (LoadState.Like R) (building x) := by
  rintro ⟨r, s, c, m⟩ ⟨r', s', c', m'⟩ ⟨hwasm, hstore, hcode, hmodule⟩
  simp only at hwasm hstore hcode hmodule
  subst hstore hcode hmodule
  unfold building zoom
  simp only
  cases x c' with
  | ok a u => exact .ok a ⟨hwasm, rfl, rfl, rfl⟩
  | error e u => exact .error (hE e) ⟨hwasm, rfl, rfl, rfl⟩
  | panic => exact .panic
  | diverge => exact .diverge

theorem respects_newVec (hE : ∀ e, E e e) (n : ℕ) :
    Respects E (LoadState.Like R) (newVec n) :=
  .ite (fun _ => respects_building hE _) fun _ => .pure ()

section Steps

variable (hR : Reader.Congruence E k R)

include hR

theorem respects_decoding {x : ReaderM α} (h : Decoder x) :
    Respects E (LoadState.Like R) (decoding x) :=
  .zoom (fun _ _ h => h.wasm) (hR.decoder h) fun _ _ _ _ h h' => ⟨h', h.store, h.code, h.module⟩

theorem respects_linking (f : Store → LinkM α) : Respects E (LoadState.Like R) (linking f) := by
  refine .get_bind fun s t hst => ?_
  rw [hst.store]
  intro s' t' hst'
  unfold zoom
  cases f s.store () with
  | ok a u => exact .ok a hst'
  | error e u => exact .error (hR.refl e) hst'
  | panic => exact .panic
  | diverge => exact .diverge

theorem respects_limited (n : ℕ) {f g : LoadM α} (h : Lockstep E (LoadState.Like R) f g) :
    Lockstep E (LoadState.Like R) (limited n f) (limited n g) :=
  hR.withLimit hR.refl (fun _ _ h => h.wasm) (fun _ _ _ _ h h' => ⟨h', h.store, h.code, h.module⟩)
    n h

/-- Offsets are compared with each other only. -/
theorem lockstep_offset {f g : ℕ → LoadM α}
    (h : ∀ n, Lockstep E (LoadState.Like R) (f n) (g (n + k))) :
    Lockstep E (LoadState.Like R) (offset >>= f) (offset >>= g) :=
  .gets_bind fun s t hst => by
    rw [hR.offset hst.wasm]
    exact h _

theorem respects_readVec {x : LoadM α} (h : Respects E (LoadState.Like R) x) :
    Respects E (LoadState.Like R) (readVec x) := by
  refine .bind (respects_decoding hR decoder_readU32) fun len => .gets_bind fun s t hst => ?_
  rw [hR.remaining hst.wasm]
  refine .ite (fun _ => .throw (hR.refl _)) fun _ => ?_
  exact .bind (respects_newVec hR.refl _) fun _ => .collect h _

end Steps

/-! ### Expressions -/

section Expressions

variable (hR : Reader.Congruence E k R) (env : LoadEnv)

include hR

theorem respects_readConstant : Respects E (LoadState.Like R) (readConstant env) := by
  refine .get_bind fun s t hst => ?_
  rw [hst.store, hst.module]
  refine .bind ?_ fun value => .unwrap value
  refine @Lockstep.zoom _ _ _ _ _ _ _ _ _ (Decoding.Like R) _ _ _ _ _ _
    (fun _ _ h => ⟨h.wasm, rfl⟩) ?_ fun _ _ _ _ h h' => ⟨h'.wasm, h.store, h.code, h.module⟩
  exact .bind (respects_readCode hR _) fun _ => .gets fun _ _ h => h.visitor.symm

theorem respects_readExpr (ctx : Func) : Respects E (LoadState.Like R) (readExpr env ctx) := by
  refine .bind (respects_building hR.refl _) fun e => .bind ?_ fun usage => ?_
  · refine @Lockstep.zoom _ _ _ _ _ _ _ _ _ (Decoding.Like R) _ _ _ _ _ _ ?_ ?_ ?_
    · rintro ⟨r, s, c, m⟩ ⟨r', s', c', m'⟩ ⟨hwasm, hstore, hcode, hmodule⟩
      simp only at hwasm hstore hcode hmodule
      subst hstore hcode hmodule
      exact ⟨hwasm, rfl⟩
    · exact .bind (respects_readCode hR _) fun _ => .gets fun _ _ h => by rw [h.visitor]
    · rintro s t u v h h'
      exact ⟨h'.wasm, h.store, by rw [h'.visitor], h.module⟩
  · exact .ite (fun _ => .throw (hR.refl _)) fun _ => .pure _

theorem respects_readFunctionCode (i : ℕ) :
    Respects E (LoadState.Like R) (readFunctionCode env i) := by
  refine .bind (respects_decoding hR decoder_readU32) fun size => lockstep_offset hR fun start => ?_
  refine .get_bind fun s t hst => ?_
  rw [hst.module]
  refine .bind (.unwrap _) fun f => .bind (respects_modify fun _ _ _ _ _ => rfl) fun _ => ?_
  refine .bind (respects_limited hR _ ?_) fun f => .ite (fun _ => .throw (hR.refl _)) fun _ => ?_
  · refine .bind (respects_readVec hR (respects_decoding hR decoder_readLocals)) fun locals => ?_
    refine .bind (.okOr _ (hR.refl _)) fun total => .ite (fun _ => .throw (hR.refl _)) fun _ => ?_
    exact .bind (respects_readExpr hR env _) fun _ => .pure _
  · refine .bind (respects_modify fun _ _ _ _ _ => rfl) fun _ => lockstep_offset hR fun stop => ?_
    rw [Nat.add_sub_add_right]
    exact .ite (fun _ => .throw (hR.refl _)) fun _ => .pure ()

end Expressions

/-! ### Sections -/

theorem respects_present {β : Type} (o : Option β) :
    Respects E (LoadState.Like R) (present o) :=
  .bind (.unwrap o) fun _ => .pure ()

section Sections

variable (hR : Reader.Congruence E k R)

include hR

theorem respects_readName : Respects E (LoadState.Like R) Name.read := by
  refine .bind (respects_readVec hR (respects_decoding hR .readU8)) fun bytes => ?_
  exact .ite (fun _ => .pure _) fun _ => .throw (hR.refl _)

theorem respects_readFuncType : Respects E (LoadState.Like R) FuncType.read := by
  refine .bind (respects_decoding hR .readU8) fun tag => .ite (fun _ => ?_) fun _ =>
    .throw (hR.refl _)
  refine .bind (respects_readVec hR (respects_decoding hR decoder_valType)) fun params => ?_
  refine .bind (respects_readVec hR (respects_decoding hR decoder_valType)) fun returns => ?_
  exact .ite (fun _ => .throw (hR.refl _)) fun _ => .pure _

theorem respects_readCustomSection (size : ℕ) :
    Respects E (LoadState.Like R) (readCustomSection size) := by
  refine lockstep_offset hR fun start => ?_
  refine .bind (respects_decoding hR decoder_readShortName) fun name => ?_
  refine lockstep_offset hR fun stop => ?_
  simp only [Nat.add_sub_add_right]
  refine .ite (fun _ => .throw (hR.refl _)) fun _ => ?_
  exact respects_limited hR _ (respects_decoding hR (decoder_skip _))

theorem respects_readImport : Respects E (LoadState.Like R) Import.read := by
  refine .bind (respects_decoding hR decoder_readShortName) fun moduleName => ?_
  refine .bind (respects_decoding hR decoder_readShortName) fun name => ?_
  refine .bind (respects_decoding hR decoder_importDesc) fun desc => .get_bind fun s t hst => ?_
  rw [hst.module]
  exact respects_linking hR _

theorem respects_importMemory (kind : MemoryKind) :
    Respects E (LoadState.Like R) (importMemory kind) := by
  refine .get_bind fun s t hst => ?_
  have hset := hst.map id fun m => { m with memory := some kind }
  rw [hst.module]
  refine .ite (fun _ => .throw (hR.refl _)) fun _ => ?_
  simp only [hst.module] at hset
  exact .set hset

theorem respects_importTable (kind : TableKind) :
    Respects E (LoadState.Like R) (importTable kind) := by
  refine .get_bind fun s t hst => ?_
  have hset := hst.map id fun m => { m with table := some kind }
  rw [hst.module]
  refine .ite (fun _ => .throw (hR.refl _)) fun _ => ?_
  simp only [hst.module] at hset
  exact .set hset

theorem respects_resolveImport (i : Import) : Respects E (LoadState.Like R) (resolveImport i) := by
  cases i with
  | memory m _ | hostMemory m _ =>
      refine .bind (respects_importMemory hR _) fun _ => .get_bind fun s t hst => ?_
      rw [hst.store]
      exact respects_present _
  | table m _ | hostTable m _ =>
      refine .bind (respects_importTable hR _) fun _ => .get_bind fun s t hst => ?_
      rw [hst.store]
      exact respects_present _
  | func | hostFunc | global | hostGlobal => exact .pure ()

theorem respects_readImportSection : Respects E (LoadState.Like R) readImportSection := by
  refine .bind (respects_readVec hR (respects_readImport hR)) fun imports => ?_
  exact .bind (respects_modify fun _ _ _ _ _ => rfl) fun _ => .forEach (respects_resolveImport hR) _

theorem respects_readTypeSection : Respects E (LoadState.Like R) readTypeSection :=
  .bind (respects_readVec hR (respects_readFuncType hR)) fun _ =>
    respects_modify fun _ _ _ _ _ => rfl

theorem respects_readFuncDecl : Respects E (LoadState.Like R) readFuncDecl := by
  refine .bind (respects_decoding hR decoder_idx) fun tyIdx => .get_bind fun s t hst => ?_
  rw [hst.module]
  refine .bind (.okOr _ (hR.refl _)) fun ty => ?_
  exact .ite (fun _ => .throw (hR.refl _)) fun _ => .ite (fun _ => .throw (hR.refl _)) fun _ =>
    .pure _

theorem respects_readFunctionSection : Respects E (LoadState.Like R) readFunctionSection := by
  refine .bind (respects_readVec hR (respects_readFuncDecl hR)) fun functions => ?_
  exact .ite (fun _ => .throw (hR.refl _)) fun _ => respects_modify fun _ _ _ _ _ => rfl

theorem respects_newTable (n : ℕ) : Respects E (LoadState.Like R) (newTable n) := by
  refine .bind (respects_building hR.refl _) fun _ => .get_bind fun s t hst => ?_
  have hset := hst.map (fun store =>
    { store with tables := store.tables ++ [List.replicate n .uninitialized] }) id
  rw [hst.store] at hset ⊢
  exact .bind (.set hset) fun _ => .pure _

theorem respects_readTableSection : Respects E (LoadState.Like R) readTableSection := by
  refine .get_bind fun s t hst => ?_
  rw [hst.module]
  refine .ite (fun _ => .throw (hR.refl _)) fun _ => ?_
  refine .bind (respects_decoding hR decoder_readU32) fun n => .ite (fun _ => ?_) fun _ => ?_
  · exact respects_modify fun _ _ _ _ _ => rfl
  · refine .ite (fun _ => ?_) fun _ => .throw (hR.refl _)
    refine .bind (respects_decoding hR decoder_tableType) fun ty => ?_
    exact .bind (respects_newTable hR _) fun _ => respects_modify fun _ _ _ _ _ => rfl

theorem respects_newMemory (env : LoadEnv) (ty : MemType) :
    Respects E (LoadState.Like R) (newMemory env ty) := by
  refine .ite (fun _ => .throw (hR.refl _)) fun _ => ?_
  refine .bind (respects_building hR.refl _) fun _ => .get_bind fun s t hst => ?_
  have hset := hst.map (fun store =>
    { store with memories := store.memories ++ [Memory.ofType ty] }) id
  rw [hst.store] at hset ⊢
  exact .bind (.set hset) fun _ => .pure _

theorem respects_readMemorySection (env : LoadEnv) :
    Respects E (LoadState.Like R) (readMemorySection env) := by
  refine .bind (respects_decoding hR decoder_readU32) fun len => ?_
  refine .ite (fun _ => .throw (hR.refl _)) fun _ => .ite (fun _ => ?_) fun _ => ?_
  · exact respects_modify fun _ _ _ _ _ => rfl
  · refine .get_bind fun s t hst => ?_
    rw [hst.module]
    refine .ite (fun _ => .throw (hR.refl _)) fun _ => ?_
    refine .bind (respects_decoding hR decoder_memType) fun ty => ?_
    exact .bind (respects_newMemory hR env ty) fun _ => respects_modify fun _ _ _ _ _ => rfl

theorem respects_readGlobal (env : LoadEnv) : Respects E (LoadState.Like R) (Global.read env) := by
  refine .bind (respects_decoding hR decoder_globalType) fun type => ?_
  refine .bind (respects_readConstant hR env) fun init => ?_
  exact .ite (fun _ => .throw (hR.refl _)) fun _ => .pure _

theorem respects_readGlobalSection (env : LoadEnv) :
    Respects E (LoadState.Like R) (readGlobalSection env) := by
  refine .bind (respects_readVec hR (respects_readGlobal hR env)) fun globals => ?_
  exact .ite (fun _ => .throw (hR.refl _)) fun _ => respects_modify fun _ _ _ _ _ => rfl

theorem respects_readExport : Respects E (LoadState.Like R) Export.read := by
  refine .bind (respects_readName hR) fun name => ?_
  refine .bind (respects_decoding hR decoder_exportDesc) fun desc => .get_bind fun s t hst => ?_
  rw [hst.module]
  exact .bind (Respects.ofExcept hR.refl _) fun _ => .pure _

theorem respects_readExports (n : ℕ) (out : List Export) :
    Respects E (LoadState.Like R) (readExports n out) := by
  induction n generalizing out with
  | zero => exact .pure out
  | succ n ih =>
      refine .bind (respects_readExport hR) fun e => ?_
      exact .ite (fun _ => .throw (hR.refl _)) fun _ => ih _

theorem respects_readExportSection : Respects E (LoadState.Like R) readExportSection := by
  refine .bind (respects_decoding hR decoder_readU32) fun len => ?_
  refine .bind (respects_newVec hR.refl _) fun _ => ?_
  exact .bind (respects_readExports hR _ _) fun exports => respects_modify fun _ _ _ _ _ => rfl

theorem respects_checkStart (ty : FuncType) : Respects E (LoadState.Like R) (checkStart ty) :=
  .ite (fun _ => .throw (hR.refl _)) fun _ => .pure ()

theorem respects_readStartSection : Respects E (LoadState.Like R) readStartSection := by
  refine .bind (respects_decoding hR decoder_idx) fun idx => .get_bind fun s t hst => ?_
  rw [hst.module, hst.store]
  refine .bind (.okOr _ (hR.refl _)) fun r => ?_
  cases r with
  | module index =>
      refine .bind (.unwrap _) fun f => .bind (.unwrap _) fun ty => ?_
      exact .bind (respects_checkStart hR ty) fun _ => respects_modify fun _ _ _ _ _ => rfl
  | host => exact .bind (.throw (hR.refl _)) fun _ => respects_modify fun _ _ _ _ _ => rfl
  | extern_ m index =>
      refine .bind (.unwrap _) fun m => .bind (.unwrap _) fun f => .bind (.unwrap _) fun ty => ?_
      exact .bind (respects_checkStart hR ty) fun _ => respects_modify fun _ _ _ _ _ => rfl

/-! ### Element and data segments -/

variable (env : LoadEnv)

theorem respects_getTableMut : Respects E (LoadState.Like R) (getTableMut env) := by
  refine .get_bind fun s t hst => ?_
  rw [hst.module, hst.store]
  cases s.module.table with
  | none => exact .pure none
  | some kind =>
      cases kind with
      | owned table ty =>
          exact .bind (.pure _) fun _ => .ite (fun _ => .pure _) fun _ => .throw (hR.refl _)
      | import_ i =>
          refine .bind (.unwrap _) fun owned => .bind (.pure _) fun _ => ?_
          exact .ite (fun _ => .pure _) fun _ => .throw (hR.refl _)
      | importHost i =>
          refine .bind (.unwrap _) fun sym => .bind (.pure _) fun _ => ?_
          exact .ite (fun _ => .pure _) fun _ => .throw (hR.refl _)

theorem respects_segmentOffset {e : ValidationError} (v : Value) :
    Respects E (LoadState.Like R) (segmentOffset e v) := by
  cases v with
  | i32 i => exact .pure i
  | i64 | f32 | f64 => exact .throw (hR.refl _)

theorem respects_readElementFunc (index : ℕ) :
    Respects E (LoadState.Like R) (readElementFunc env index) := by
  refine .bind (respects_decoding hR decoder_idx) fun idx => .get_bind fun s t hst => ?_
  rw [hst.module, hst.store]
  refine .bind (.okOr _ (hR.refl _)) fun r => .bind (respects_getTableMut hR env) fun table => ?_
  cases table with
  | none => exact .throw (hR.refl _)
  | some table =>
      refine .bind (.unwrap _) fun entries => .ite (fun _ => .throw (hR.refl _)) fun _ => ?_
      exact respects_modify fun _ _ _ _ _ => rfl

theorem respects_readElementFuncs (n index : ℕ) :
    Respects E (LoadState.Like R) (readElementFuncs env n index) := by
  induction n generalizing index with
  | zero => exact .pure ()
  | succ n ih => exact .bind (respects_readElementFunc hR env index) fun _ => ih _

theorem respects_readElement : Respects E (LoadState.Like R) (readElement env) := by
  refine .bind (respects_decoding hR decoder_idx) fun table => .ite (fun _ => .throw (hR.refl _))
    fun _ => ?_
  refine .bind (respects_readConstant hR env) fun value => ?_
  refine .bind (respects_segmentOffset hR value) fun offset => ?_
  refine .bind (respects_decoding hR decoder_readU32) fun len => ?_
  refine .bind (respects_getTableMut hR env) fun table => ?_
  have hfuncs := respects_readElementFuncs hR env len.toNat offset.toNat
  cases table with
  | none => exact .bind (.throw (hR.refl _)) fun _ => hfuncs
  | some table =>
      refine .get_bind fun s t hst => ?_
      rw [hst.store]
      refine .bind (.unwrap _) fun entries => ?_
      refine .ite (fun _ => .bind (.throw (hR.refl _)) fun _ => hfuncs) fun _ => ?_
      refine .ite (fun _ => .bind (.throw (hR.refl _)) fun _ => hfuncs) fun _ => ?_
      exact .bind (.pure ()) fun _ => hfuncs

theorem respects_readElementSection :
    Respects E (LoadState.Like R) (readElementSection env) :=
  .bind (respects_decoding hR decoder_readU32) fun _ => .iterate (respects_readElement hR env) _

theorem respects_readFunctionCodes (n i : ℕ) :
    Respects E (LoadState.Like R) (readFunctionCodes env n i) := by
  induction n generalizing i with
  | zero => exact .pure ()
  | succ n ih => exact .bind (respects_readFunctionCode hR env i) fun _ => ih _

theorem respects_readCodeSection : Respects E (LoadState.Like R) (readCodeSection env) := by
  refine .bind (respects_decoding hR decoder_readU32) fun n => .get_bind fun s t hst => ?_
  rw [hst.module]
  exact .ite (fun _ => .throw (hR.refl _)) fun _ => respects_readFunctionCodes hR env _ _

theorem respects_memoryResult (x : Except MemoryError α) :
    Respects E (LoadState.Like R) (memoryResult x) := by
  cases x with
  | ok a => exact .pure a
  | error e => exact .throw (hR.refl _)

theorem respects_storeBytes (mem : MemRef) (addr : ℕ) (data : List U8) :
    Respects E (LoadState.Like R) (storeBytes mem addr data) := by
  refine .get_bind fun s t hst => ?_
  have hset := fun m => hst.map (fun store => store.setMemory mem m) id
  rw [hst.store]
  refine .bind (.unwrap _) fun m => .bind (respects_memoryResult hR _) fun m' => ?_
  have := hset m'
  rw [hst.store] at this
  exact .set this

theorem respects_readDataBytes (mem : MemRef) (offset : U32) (n i : ℕ) :
    Respects E (LoadState.Like R) (readDataBytes mem offset n i) := by
  induction n generalizing i with
  | zero => exact .pure ()
  | succ n ih =>
      refine .bind (respects_memoryResult hR _) fun addr => ?_
      refine .bind (respects_decoding hR .readU8) fun b => ?_
      exact .bind (respects_storeBytes hR mem addr [b]) fun _ => ih _

theorem respects_readData (memory : MemRef) :
    Respects E (LoadState.Like R) (readData env memory) := by
  refine .bind (respects_decoding hR decoder_idx) fun mem => .ite (fun _ => .throw (hR.refl _))
    fun _ => .get_bind fun s t hst => ?_
  rw [hst.module]
  refine .ite (fun _ => .throw (hR.refl _)) fun _ => ?_
  refine .bind (respects_readConstant hR env) fun value => ?_
  refine .bind (respects_segmentOffset hR value) fun offset => ?_
  refine .bind (respects_decoding hR decoder_readU32) fun len => ?_
  refine .bind (respects_readDataBytes hR memory offset _ _) fun _ => ?_
  exact .ite (fun _ => respects_storeBytes hR _ _ _) fun _ => .pure ()

theorem respects_readDataSection : Respects E (LoadState.Like R) (readDataSection env) := by
  refine .bind (respects_decoding hR decoder_readU32) fun len =>
    .ite (fun _ => .pure ()) fun _ => ?_
  refine .get_bind fun s t hst => ?_
  rw [hst.module, hst.store]
  cases s.module.memory with
  | none => exact .throw (hR.refl _)
  | some kind =>
      cases kind with
      | owned mem => exact .bind (.pure _) fun memory => .iterate (respects_readData hR env _) _
      | import_ i => exact .bind (.unwrap _) fun memory => .iterate (respects_readData hR env _) _
      | importHost i =>
          exact .bind (.unwrap _) fun memory => .iterate (respects_readData hR env _) _

/-- The body of a section is read in lockstep. -/
theorem respects_readSection (size : ℕ) (kind : SectionKind) :
    Respects E (LoadState.Like R) (readSection env size kind) := by
  cases kind with
  | custom => exact respects_readCustomSection hR size
  | type => exact respects_readTypeSection hR
  | import_ => exact respects_readImportSection hR
  | function => exact respects_readFunctionSection hR
  | table => exact respects_readTableSection hR
  | memory => exact respects_readMemorySection hR env
  | global => exact respects_readGlobalSection hR env
  | export_ => exact respects_readExportSection hR
  | start => exact respects_readStartSection hR
  | element => exact respects_readElementSection hR env
  | code => exact respects_readCodeSection hR env
  | data => exact respects_readDataSection hR env

end Sections

end SpaceWasm
