import SpaceWasm.History

/-!
# Every round of a loop consumes a byte

The counts in a binary may be as large as a `u32`, but the body of each loop that
they drive reads at least one byte, or fails. So no loop goes round more often than
there are bytes left, whatever its count says.
-/

namespace SpaceWasm

open Fallible

variable {α β : Type}

/-- The number of bytes that are left. -/
def LoadState.left (s : LoadState) : ℕ := s.wasm.input.length

/-- A step that does not move backwards. -/
def Forward (x : LoadM α) : Prop := ∀ s a t, x s = .ok a t → t.left ≤ s.left

/-- A step that consumes a byte if it succeeds. -/
def Consumes (x : LoadM α) : Prop := ∀ s a t, x s = .ok a t → t.left < s.left

theorem Consumes.forward {x : LoadM α} (h : Consumes x) : Forward x :=
  fun s a t hr => Nat.le_of_lt (h s a t hr)

/-! ### Steps that move forward -/

namespace Forward

theorem pure (a : α) : Forward (Pure.pure a) := by
  rintro s _ _ ⟨⟩
  exact Nat.le_refl _

theorem throw (e : ValidationError) : Forward (Fallible.throw e : LoadM α) := by
  intro s a t h
  cases h

theorem bind {x : LoadM α} {f : α → LoadM β} (hx : Forward x) (hf : ∀ a, Forward (f a)) :
    Forward (x >>= f) := by
  intro s b u h
  obtain ⟨a, t, hr, h⟩ := bind_eq_ok.1 h
  exact Nat.le_trans (hf a t b u h) (hx s a t hr)

theorem ite {p : Prop} [Decidable p] {x y : LoadM α} (hx : Forward x) (hy : Forward y) :
    Forward (if p then x else y) := by
  split
  · exact hx
  · exact hy

theorem get : Forward (Fallible.get : LoadM LoadState) := by
  rintro s _ _ ⟨⟩
  exact Nat.le_refl _

theorem gets (f : LoadState → α) : Forward (Fallible.gets f : LoadM α) := by
  rintro s _ _ ⟨⟩
  exact Nat.le_refl _

theorem okOr (o : Option α) (e : ValidationError) : Forward (Fallible.okOr o e : LoadM α) := by
  cases o with
  | none => exact throw e
  | some a => exact pure a

theorem unwrap (o : Option α) : Forward (Fallible.unwrap o : LoadM α) := by
  cases o with
  | none =>
      intro s a t h
      cases h
  | some a => exact pure a

theorem ofExcept (x : Except ValidationError α) : Forward (Fallible.ofExcept x : LoadM α) := by
  cases x with
  | error e => exact throw e
  | ok a => exact pure a

/-- A step that leaves the stream alone. -/
theorem modify {f : LoadState → LoadState} (h : ∀ s, (f s).wasm = s.wasm) :
    Forward (Fallible.modify f) := by
  rintro s _ _ ⟨⟩
  exact Nat.le_of_eq (congrArg (fun r : Reader => r.input.length) (h s))

theorem quiet {P : LoadState → α → Prop} {x : LoadM α} (h : ∀ s, Quiet s x (P s)) :
    Forward x := by
  intro s a t hr
  exact (Guarded.ok (h s) (.refl s) hr).1.wasm.length_le

theorem section_ {W : Footprint} {kind : SectionKind} {x : LoadM α} {Q : α → LoadState → Prop}
    (h : ∀ s, InSection W kind s (fun t => t = s) x Q) : Forward x := by
  intro s a t hr
  exact (Guarded.ok (h s) rfl hr).1.wasm.length_le

end Forward

theorem forward_decoding {x : ReaderM α} (h : Decoder x) : Forward (decoding x) :=
  .quiet fun _ => quiet_decoding h

/-! ### Steps that consume a byte -/

namespace Consumes

theorem bind {x : LoadM α} {f : α → LoadM β} (hx : Consumes x) (hf : ∀ a, Forward (f a)) :
    Consumes (x >>= f) := by
  intro s b u h
  obtain ⟨a, t, hr, h⟩ := bind_eq_ok.1 h
  exact Nat.lt_of_le_of_lt (hf a t b u h) (hx s a t hr)

theorem collect {x : LoadM α} (hx : Consumes x) {n : ℕ} {s t : LoadState} {as : List α}
    (h : Fallible.collect n x s = .ok as t) : n + t.left ≤ s.left := by
  induction n generalizing s as with
  | zero =>
      cases h
      exact Nat.le_of_eq (Nat.zero_add _)
  | succ n ih =>
      rw [collect_succ] at h
      obtain ⟨a, u, hr, h⟩ := bind_eq_ok.1 h
      obtain ⟨as', v, has, h⟩ := bind_eq_ok.1 h
      cases h
      have hlt := hx s a u hr
      have hle := ih has
      omega

end Consumes

theorem consumes_readU8 : Consumes (decoding readU8) := by
  intro s b t h
  obtain ⟨r, hr, rfl⟩ := zoom_eq_ok.1 h
  have hadvance := readU8_advances s.wasm
  rw [hr] at hadvance
  have hlength := hadvance.2
  simp only [LoadState.left]
  omega

/-! ### Decoders that consume a byte -/

/-- A decoder whose first step reads a byte. -/
theorem consumes_readU8_bind {f : U8 → ReaderM α} (hf : ∀ b, Decoder (f b)) :
    Consumes (decoding (readU8 >>= f)) := by
  rw [decoding_bind]
  exact consumes_readU8.bind fun b => forward_decoding (hf b)

theorem consumes_decoding_bind {x : ReaderM α} {f : α → ReaderM β} (hx : Consumes (decoding x))
    (hf : ∀ a, Decoder (f a)) : Consumes (decoding (x >>= f)) := by
  rw [decoding_bind]
  exact hx.bind fun a => forward_decoding (hf a)

theorem consumes_readU32 : Consumes (decoding readU32) := by
  refine consumes_readU8_bind fun b0 => .ite (.pure _) ?_
  refine Decoder.readU8.bind fun b1 => .ite (.pure _) ?_
  refine Decoder.readU8.bind fun b2 => .ite (.pure _) ?_
  refine Decoder.readU8.bind fun b3 => .ite (.pure _) ?_
  exact Decoder.readU8.bind fun b4 => .ite (.pure _) (.throw _)

theorem consumes_idx : Consumes (decoding Idx.read) :=
  consumes_decoding_bind consumes_readU32 fun _ => .pure _

theorem consumes_valType : Consumes (decoding ValType.read) :=
  consumes_readU8_bind fun _ => .ofExcept _

theorem consumes_sectionKind : Consumes (decoding SectionKind.read) :=
  consumes_readU8_bind fun _ => .ofExcept _

theorem consumes_readLocals : Consumes (decoding readLocals) := by
  refine consumes_decoding_bind consumes_readU32 fun n => decoder_valType.bind fun t => ?_
  exact .ite (.throw _) (.pure _)

theorem consumes_globalType : Consumes (decoding GlobalType.read) := by
  refine consumes_decoding_bind consumes_valType fun ty => Decoder.readU8.bind fun c => ?_
  exact .ite (.pure _) (.ite (.pure _) (.throw _))

theorem consumes_readShortName : Consumes (decoding readShortName) := by
  refine consumes_decoding_bind ?_ fun _ => .ite (.pure _) (.throw _)
  refine consumes_decoding_bind consumes_readU32 fun len => Decoder.remaining.bind fun _ => ?_
  exact .ite (.throw _) (Decoder.readU8.collect _)

/-! ### Parts of a module -/

theorem forward_newVec (n : ℕ) : Forward (newVec n) := .quiet fun _ => quiet_newVec n

theorem consumes_readVec {x : LoadM α} (hx : Forward x) : Consumes (readVec x) := by
  refine consumes_readU32.bind fun len => .bind (.gets _) fun remaining => .ite (.throw _) ?_
  refine .bind (forward_newVec _) fun _ => ?_
  generalize len.toNat = n
  induction n with
  | zero => exact .pure _
  | succ n ih => exact .bind hx fun _ => .bind ih fun _ => .pure _

theorem consumes_readName : Consumes Name.read :=
  (consumes_readVec consumes_readU8.forward).bind fun _ => .ite (.pure _) (.throw _)

theorem consumes_readFuncType : Consumes FuncType.read := by
  have hvec := (consumes_readVec consumes_valType.forward).forward
  refine consumes_readU8.bind fun tag => .ite ?_ (.throw _)
  exact .bind hvec fun params => .bind hvec fun returns => .ite (.throw _) (.pure _)

theorem consumes_readImport : Consumes Import.read := by
  refine consumes_readShortName.bind fun moduleName => ?_
  refine .bind consumes_readShortName.forward fun name => ?_
  refine .bind (forward_decoding decoder_importDesc) fun desc => .bind .get fun s => ?_
  refine .bind .get fun s' => ?_
  intro t i u h
  obtain ⟨_, -, rfl⟩ := zoom_eq_ok.1 h
  exact Nat.le_refl _

theorem consumes_readFuncDecl : Consumes readFuncDecl := by
  refine consumes_idx.bind fun tyIdx => .bind .get fun s => .bind (.okOr _ _) fun ty => ?_
  exact .ite (.throw _) (.ite (.throw _) (.pure _))

theorem forward_readConstant (env : LoadEnv) : Forward (readConstant env) :=
  .quiet fun _ => quiet_readConstant env

theorem consumes_readGlobal (env : LoadEnv) : Consumes (Global.read env) := by
  refine consumes_globalType.bind fun type => .bind (forward_readConstant env) fun init => ?_
  exact .ite (.throw _) (.pure _)

theorem consumes_readExport : Consumes Export.read := by
  refine consumes_readName.bind fun name =>
    .bind (forward_decoding decoder_exportDesc) fun desc => ?_
  exact .bind .get fun s => .bind (.ofExcept _) fun _ => .pure _

theorem consumes_readElementFunc (env : LoadEnv) (index : ℕ) :
    Consumes (readElementFunc env index) := by
  refine consumes_idx.bind fun idx => .bind .get fun s => .bind (.okOr _ _) fun r => ?_
  refine .bind (.quiet fun _ => quiet_getTableMut env) fun table? => ?_
  cases table? with
  | none => exact .throw _
  | some table => exact .bind (.unwrap _) fun entries => .ite (.throw _) (.modify fun _ => rfl)

theorem forward_segmentOffset (e : ValidationError) (value : Value) :
    Forward (segmentOffset e value) :=
  .quiet fun _ => quiet_segmentOffset e value

theorem consumes_readElement (env : LoadEnv) : Consumes (readElement env) := by
  rw [readElement_eq]
  refine Consumes.bind ?_ fun p => .section_ (W := .all) fun s =>
    readElementFuncs_frame env _ _ fun _ _ _ _ _ _ _ _ _ _ => trivial
  refine consumes_idx.bind fun table => .ite (.throw _) ?_
  refine .bind (forward_readConstant env) fun value =>
    .bind (forward_segmentOffset _ value) fun _ => ?_
  refine .bind consumes_readU32.forward fun len => ?_
  refine .bind (.quiet fun _ => quiet_getTableMut env) fun table? => ?_
  cases table? with
  | none => exact .throw _
  | some table =>
      refine .bind .get fun s => .bind (.unwrap _) fun entries => .ite (.throw _) ?_
      exact .ite (.throw _) (.pure _)

theorem forward_memoryResult (x : Except MemoryError α) : Forward (memoryResult x) :=
  .quiet fun _ => quiet_memoryResult x

theorem forward_storeBytes (mem : MemRef) (addr : ℕ) (data : List U8) :
    Forward (storeBytes mem addr data) := by
  intro s a t h
  obtain ⟨s', _, hget, h⟩ := bind_eq_ok.1 h
  cases hget
  obtain ⟨m, u, hm, h⟩ := bind_eq_ok.1 h
  obtain ⟨-, rfl⟩ := unwrap_eq_ok.1 hm
  obtain ⟨m', v, -, h⟩ := bind_eq_ok.1 h
  cases h
  exact Nat.le_refl _

/-- The byte of a data segment that a round writes. -/
theorem forward_readDataBytes (mem : MemRef) (offset : U32) (n i : ℕ) :
    Forward (readDataBytes mem offset n i) := by
  induction n generalizing i with
  | zero => exact .pure _
  | succ n ih =>
      refine .bind (forward_memoryResult _) fun addr => .bind consumes_readU8.forward fun b => ?_
      exact .bind (forward_storeBytes _ _ _) fun _ => ih _

theorem consumes_readData (env : LoadEnv) (memory : MemRef) : Consumes (readData env memory) := by
  refine consumes_idx.bind fun mem => .ite (.throw _) (.bind .get fun s => .ite (.throw _) ?_)
  refine .bind (forward_readConstant env) fun value =>
    .bind (forward_segmentOffset _ value) fun _ => ?_
  refine .bind consumes_readU32.forward fun len => .bind (forward_readDataBytes _ _ _ _) fun _ => ?_
  exact .ite (forward_storeBytes _ _ _) (.pure _)

theorem consumes_readFunctionCode (env : LoadEnv) (i : ℕ) : Consumes (readFunctionCode env i) := by
  refine consumes_readU32.bind fun size => .bind (.gets _) fun start => .bind .get fun s => ?_
  refine .bind (.unwrap _) fun f => .bind (.modify fun _ => rfl) fun _ => ?_
  refine .bind (.quiet fun s => quiet_limited _ fun _ => quiet_functionBody env _) fun g => ?_
  refine .ite (.throw _) (.bind (.modify fun _ => rfl) fun _ => .bind (.gets _) fun stop => ?_)
  exact .ite (.throw _) (.pure _)

/-! ### Loads end -/

/-- The bodies of the loops of a load: those of `collect`, `iterate` and the loops
over exports, function indices, function bodies and bytes. -/
inductive LoopBody (env : LoadEnv) : {α : Type} → LoadM α → Prop where
  | byte : LoopBody env (decoding readU8)
  | valType : LoopBody env (decoding ValType.read)
  | locals : LoopBody env (decoding readLocals)
  | label : LoopBody env (decoding Idx.read)
  | funcType : LoopBody env FuncType.read
  | import_ : LoopBody env Import.read
  | funcDecl : LoopBody env readFuncDecl
  | global : LoopBody env (Global.read env)
  | export_ : LoopBody env Export.read
  | element : LoopBody env (readElement env)
  | elementFunc (index : ℕ) : LoopBody env (readElementFunc env index)
  | functionCode (i : ℕ) : LoopBody env (readFunctionCode env i)
  | data (memory : MemRef) : LoopBody env (readData env memory)
  | sectionKind : LoopBody env (decoding SectionKind.read)

theorem LoopBody.consumes {env : LoadEnv} {x : LoadM α} (h : LoopBody env x) : Consumes x := by
  cases h with
  | byte => exact consumes_readU8
  | valType => exact consumes_valType
  | locals => exact consumes_readLocals
  | label => exact consumes_idx
  | funcType => exact consumes_readFuncType
  | import_ => exact consumes_readImport
  | funcDecl => exact consumes_readFuncDecl
  | global => exact consumes_readGlobal env
  | export_ => exact consumes_readExport
  | element => exact consumes_readElement env
  | elementFunc index => exact consumes_readElementFunc env index
  | functionCode i => exact consumes_readFunctionCode env i
  | data memory => exact consumes_readData env memory
  | sectionKind => exact consumes_sectionKind

/-- A load ends, on whatever stream and over whatever store. -/
theorem Module.new_ne_diverge (env : LoadEnv) (name : Name) (wasm : Reader) (t : LoadTarget) :
    Module.new env name wasm t ≠ .diverge :=
  (Module.new_frame env name wasm t fun _ _ =>
    LoadState.loadWrites_all env .custom _).ne_diverge rfl

theorem Module.new_ne_panic {env : LoadEnv} {name : Name} {wasm : Reader} {t : LoadTarget}
    (h : t.store.Linked) : Module.new env name wasm t ≠ .panic :=
  (Module.new_frame env name wasm t fun _ _ =>
    LoadState.loadWrites_all env .custom _).ne_panic h rfl

/-- Decoding a stream over a store that load steps have led to ends with a module or
with an error, whatever bound the options set on the walks of `backpatch`. Each round
of a loop, and each instruction, costs a byte. -/
theorem decoding_terminates {host : HostSetup} {t : LoadTarget} (ht : t.Reachable host)
    (env : LoadEnv) (name : Name) (stream : WasmStream) :
    ((∃ m u, Module.new env name (Reader.new stream) t = .ok m u) ∨
        ∃ e u, Module.new env name (Reader.new stream) t = .error e u) ∧
      (∀ {α : Type} {x : LoadM α}, LoopBody env x → ∀ n as s u,
        collect n x s = .ok as u → n + u.left ≤ s.left) ∧
      ∀ {σ : Type} (visitor : WasmVisitor σ) (depth : ℕ) next (d d' : Decoding σ),
        readCodeStep visitor depth d = .ok next d' →
          d'.wasm.input.length < d.wasm.input.length := by
  refine ⟨?_, fun h n as s u hr => h.consumes.collect hr, fun _ _ _ _ _ => readCodeStep_consumes⟩
  cases hr : Module.new env name (Reader.new stream) t with
  | ok m u => exact Or.inl ⟨m, u, rfl⟩
  | error e u => exact Or.inr ⟨e, u, rfl⟩
  | panic => exact absurd hr (Module.new_ne_panic ht.bounded.linked)
  | diverge => exact absurd hr (Module.new_ne_diverge env name _ t)

/-- A store without host modules. -/
def emptyHost : HostSetup := {
  maxModules := 8
  hostModules := []
  memories := []
  tables := []
  hostModules_le := by decide
  functions_le := nofun
  globals_le := nofun
  memory_le := nofun
  table_le := nofun
  memory := nofun
  table := nofun }

theorem emptyStore_reachable (code : CodeBuilder) :
    LoadTarget.Reachable emptyHost ⟨emptyStore, code⟩ :=
  ⟨emptyStore, code, rfl, .refl⟩

/-- A type section that announces 2^32 - 1 types and ends there. -/
def hugeCount : WasmStream := .ofBytes
  [0x00, 0x61, 0x73, 0x6D, 0x01, 0x00, 0x00, 0x00, 0x01, 0x05, 0xFF, 0xFF, 0xFF, 0xFF, 0x0F]

theorem hugeCount_terminates :
    (∃ m u, Module.new simpleEnv [] (Reader.new hugeCount) ⟨emptyStore, emptyBuilder⟩ = .ok m u) ∨
      ∃ e u, Module.new simpleEnv [] (Reader.new hugeCount) ⟨emptyStore, emptyBuilder⟩ =
        .error e u :=
  (decoding_terminates (emptyStore_reachable emptyBuilder) simpleEnv [] hugeCount).1

end SpaceWasm
