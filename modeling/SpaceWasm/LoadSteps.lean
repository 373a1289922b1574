import SpaceWasm.FunctionCode
import SpaceWasm.Linking

/-!
# The steps of a load

Most of a load is quiet: it consumes bytes and appends code, and leaves the store
and the module under construction alone. `Quiet s₀ x P` says so of a step `x` that
follows on such steps from `s₀`, and that the value it returns satisfies `P`. A
quiet step ends, and it does not panic when the store and the module are linked.
-/

namespace SpaceWasm

open Fallible

/-! ### Decoders of the parts of a module -/

theorem decoder_sectionKind : Decoder SectionKind.read :=
  Decoder.readU8.bind fun _ => .ofExcept _

theorem decoder_readShortName : Decoder readShortName :=
  (decoder_readVecStack .readU8 32).bind fun _ => .ite (.pure _) (.throw _)

theorem decoder_readLocals : Decoder readLocals := by
  refine decoder_readU32.bind fun n => decoder_valType.bind fun t => ?_
  exact .ite (.throw _) (.pure _)

theorem decoder_importDesc : Decoder ImportDesc.read := by
  refine Decoder.readU8.bind fun tag => .ite (decoder_idx.map _) ?_
  refine .ite (decoder_tableType.map _) (.ite (decoder_memType.map _) ?_)
  exact .ite (decoder_globalType.map _) (.throw _)

theorem decoder_exportDesc : Decoder ExportDesc.read := by
  refine Decoder.readU8.bind fun tag => .ite (decoder_idx.map _) ?_
  refine .ite (decoder_idx.map _) (.ite (decoder_idx.map _) ?_)
  exact .ite (decoder_idx.map _) (.throw _)

/-! ### Sequences of decoders -/

section Decoding

variable {α β : Type}

theorem decoding_pure (a : α) : decoding (pure a) = pure a := rfl

theorem decoding_bind (x : ReaderM α) (f : α → ReaderM β) :
    decoding (x >>= f) = decoding x >>= fun a => decoding (f a) := by
  funext s
  rw [bind_apply]
  simp only [decoding, zoom, bind_apply]
  cases x s.wasm <;> rfl

theorem decoding_collect (n : ℕ) (x : ReaderM α) :
    decoding (collect n x) = collect n (decoding x) := by
  induction n with
  | zero => rfl
  | succ n ih => simp only [collect_succ, decoding_bind, ih, decoding_pure]

end Decoding

/-! ### Quiet steps -/

/-- The store and the module under construction are linked. -/
structure LoadState.Linked (s : LoadState) : Prop where
  store : s.store.Linked
  module : s.module.Sound s.store

/-- `t` is `s` after bytes have been consumed and code has been appended. -/
structure LoadState.Continues (s t : LoadState) : Prop where
  wasm : s.wasm.Advances t.wasm
  code : s.code.Extends t.code
  store : t.store = s.store
  module : t.module = s.module

namespace LoadState.Continues

theorem refl (s : LoadState) : s.Continues s := ⟨.refl _, .refl _, rfl, rfl⟩

theorem trans {s t u : LoadState} (h : s.Continues t) (h' : t.Continues u) : s.Continues u :=
  ⟨h.wasm.trans h'.wasm, h.code.trans h'.code, h'.store.trans h.store, h'.module.trans h.module⟩

theorem linked {s t : LoadState} (h : s.Continues t) (hs : s.Linked) : t.Linked := by
  obtain ⟨hstore, hmodule⟩ := hs
  rw [← h.store, ← h.module] at hmodule
  rw [← h.store] at hstore
  exact ⟨hstore, hmodule⟩

end LoadState.Continues

variable {α β : Type} {s₀ : LoadState} {P : α → Prop}

/-- A step after others that leave the store and the module alone, and does so too. -/
def Quiet (s₀ : LoadState) (x : LoadM α) (P : α → Prop) : Prop :=
  Guarded s₀.Linked s₀.Continues x (fun a s => s₀.Continues s ∧ P a) fun _ => s₀.Continues

namespace Quiet

theorem pure {a : α} (h : P a) : Quiet s₀ (Pure.pure a) P := fun _ hs => ⟨hs, h⟩

theorem throw (e : ValidationError) : Quiet s₀ (Fallible.throw e : LoadM α) P := fun _ hs => hs

theorem bind {M : α → Prop} {Q : β → Prop} {x : LoadM α} {f : α → LoadM β}
    (hx : Quiet s₀ x M) (hf : ∀ a, M a → Quiet s₀ (f a) Q) : Quiet s₀ (x >>= f) Q :=
  Guarded.bind hx fun a s hs => hf a hs.2 s hs.1

theorem ite {p : Prop} [Decidable p] {x y : LoadM α} (hx : p → Quiet s₀ x P)
    (hy : ¬p → Quiet s₀ y P) : Quiet s₀ (if p then x else y) P :=
  Guarded.ite hx hy

theorem get_bind {f : LoadState → LoadM α}
    (h : ∀ s, s.store = s₀.store → s.module = s₀.module → Quiet s₀ (f s) P) :
    Quiet s₀ (get >>= f) P := by
  intro s hs
  rw [bind_of_ok (get_apply s)]
  exact h s hs.store hs.module s hs

theorem gets_bind {f : LoadState → β} {g : β → LoadM α} (h : ∀ b, Quiet s₀ (g b) P) :
    Quiet s₀ (gets f >>= g) P := by
  intro s hs
  rw [bind_of_ok (gets_apply f s)]
  exact h (f s) s hs

theorem okOr {o : Option α} (e : ValidationError) (h : ∀ a, o = some a → P a) :
    Quiet s₀ (Fallible.okOr o e) P := by
  cases o with
  | none => exact throw e
  | some a => exact pure (h a rfl)

theorem ofExcept {x : Except ValidationError α} (h : ∀ a, x = .ok a → P a) :
    Quiet s₀ (Fallible.ofExcept x) P := by
  cases x with
  | error e => exact throw e
  | ok a => exact pure (h a rfl)

theorem unwrap {o : Option α} (hsome : s₀.Linked → o.isSome) (h : ∀ a, o = some a → P a) :
    Quiet s₀ (Fallible.unwrap o) P := by
  cases o with
  | none => exact fun _ _ hlinked => nomatch hsome hlinked
  | some a => exact pure (h a rfl)

theorem collect {x : LoadM α} (hx : Quiet s₀ x P) (n : ℕ) :
    Quiet s₀ (Fallible.collect n x) fun as => ∀ a ∈ as, P a := by
  induction n with
  | zero => exact pure nofun
  | succ n ih =>
      refine bind hx fun a ha => bind ih fun as has => pure fun b hb => ?_
      rcases List.mem_cons.1 hb with rfl | hb
      · exact ha
      · exact has b hb

end Quiet

theorem quiet_decoding {x : ReaderM α} (h : Decoder x) :
    Quiet s₀ (decoding x) fun _ => True := by
  intro s hs
  have hread := h.reads.apply s.wasm
  unfold decoding zoom
  cases hr : x s.wasm <;> rw [hr] at hread
  · exact ⟨hs.trans ⟨hread, .refl _, rfl, rfl⟩, trivial⟩
  · exact hs.trans ⟨hread, .refl _, rfl, rfl⟩
  · exact hread.elim
  · exact hread

/-- The value of a decoder, under the postcondition it has anyway. -/
theorem quiet_decoding_returns {x : ReaderM α} (h : Decoder x) (hP : Returns P x) :
    Quiet s₀ (decoding x) P := by
  intro s hs
  have hread := h.reads.apply s.wasm
  unfold decoding zoom
  cases hr : x s.wasm <;> rw [hr] at hread
  · exact ⟨hs.trans ⟨hread, .refl _, rfl, rfl⟩, hP _ _ _ hr⟩
  · exact hs.trans ⟨hread, .refl _, rfl, rfl⟩
  · exact hread.elim
  · exact hread

theorem quiet_allocate (n : ℕ) : Quiet s₀ (building (allocate n)) fun _ => True := by
  intro s hs
  unfold building zoom allocate
  simp only
  cases s.code.heap.answer s.code.heap.requests n with
  | none => exact ⟨hs.trans ⟨.refl _, ⟨Nat.le_refl _, fun _ _ => rfl⟩, rfl, rfl⟩, trivial⟩
  | some e => exact hs.trans ⟨.refl _, ⟨Nat.le_refl _, fun _ _ => rfl⟩, rfl, rfl⟩

theorem quiet_newVec (n : ℕ) : Quiet s₀ (newVec n) fun _ => True :=
  .ite (fun _ => quiet_allocate n) fun _ => .pure trivial

theorem quiet_readVec {x : LoadM α} (hx : Quiet s₀ x P) :
    Quiet s₀ (readVec x) fun as => ∀ a ∈ as, P a := by
  refine .bind (quiet_decoding decoder_readU32) fun len _ => .gets_bind fun remaining => ?_
  refine .ite (fun _ => .throw _) fun _ => ?_
  exact .bind (quiet_newVec _) fun _ _ => .collect hx _

theorem quiet_offset : Quiet s₀ offset fun _ => True := fun _ hs => ⟨hs, trivial⟩

/-- A limited read stays within its limit, which lies below the one around it. -/
theorem Reader.Advances.limited {r t : Reader} {n : ℕ} (hn : r.offset + n ≤ r.limit)
    (h : ({ r with limit := r.offset + n } : Reader).Advances t) :
    r.Advances { t with limit := r.limit } := by
  refine ⟨h.ending, rfl, h.offset, h.suffix, ?_⟩
  have hwithin := h.within
  simp only at hwithin ⊢
  omega

theorem quiet_limited {x : LoadM α} (n : ℕ) (hx : ∀ s₁, Quiet s₁ x P) :
    Quiet s₀ (limited n x) P := by
  intro s hs
  unfold limited withLimit
  simp only
  by_cases hn : s.wasm.offset + n ≤ usizeMax ∧ s.wasm.offset + n ≤ s.wasm.limit
  · rw [if_pos hn]
    have hrun := hx { s with wasm := { s.wasm with limit := s.wasm.offset + n } } _ (.refl _)
    cases hr : x _ <;> rw [hr] at hrun
    · next a t =>
      obtain ⟨⟨hwasm, hcode, hstore, hmodule⟩, ha⟩ := hrun
      exact ⟨hs.trans ⟨hwasm.limited hn.2, hcode, hstore, hmodule⟩, ha⟩
    · next e t =>
      obtain ⟨hwasm, hcode, hstore, hmodule⟩ := hrun
      exact hs.trans ⟨hwasm.limited hn.2, hcode, hstore, hmodule⟩
    · intro hlinked
      obtain ⟨hstore, hmodule⟩ := hs.linked hlinked
      exact hrun ⟨hstore, hmodule⟩
    · exact hrun
  · rw [if_neg hn]
    exact hs

/-! ### Expressions -/

theorem ends_constant (readGlobal : HostRef → Option Value) (store : Store) (m : Module)
    (i : WasmInstr) : Ends (ConstantCompiler.visit readGlobal store m i) := by
  have hfail : ∀ e, Ends (ConstantCompiler.fail e : ConstantCompiler.ConstM Unit) :=
    fun _ _ _ => trivial
  have hreplace : ∀ v, Ends (ConstantCompiler.replace v) := by
    intro v
    refine Preserves.bind Preserves.get fun before =>
      Preserves.bind (fun _ _ => trivial) fun _ => ?_
    exact Preserves.ite (fun _ => Preserves.pure ()) fun _ => hfail .alreadyHasValue
  cases i with
  | finish =>
      refine Preserves.bind Preserves.get fun v => ?_
      exact Preserves.ite (fun _ => Preserves.pure ()) fun _ => hfail .noValue
  | i32Const | i64Const | f32Const | f64Const => exact hreplace _
  | globalGet x =>
      refine Preserves.bind (Preserves.okOr _ _) fun r => ?_
      cases r with
      | module => exact hfail .invalidConstantInstruction
      | host =>
          refine Preserves.bind (Preserves.okOr _ _) fun hm => ?_
          refine Preserves.bind (Preserves.okOr _ _) fun g => ?_
          refine Preserves.ite (fun _ => hfail .invalidConstantInstruction) fun _ => ?_
          exact Preserves.bind (Preserves.okOr _ _) fun v => hreplace v
      | extern_ =>
          refine Preserves.bind (Preserves.okOr _ _) fun em => ?_
          refine Preserves.bind (Preserves.okOr _ _) fun g => ?_
          exact Preserves.ite (fun _ => hfail .invalidConstantInstruction) fun _ => hreplace _
  | _ => exact hfail .invalidConstantInstruction

/-- A constant expression that ends has a value. -/
theorem readCode_constant {readGlobal : HostRef → Option Value} {store : Store} {m : Module}
    {r r' : Reader} {v v' : Option Value}
    (h : readCode (ConstantCompiler.visit readGlobal store m) ⟨r, v⟩ = .ok () ⟨r', v'⟩) :
    v'.isSome := by
  obtain ⟨calls, hcalls, hvisit⟩ := readCode_eq_ok.1 h
  obtain ⟨pre, rfl⟩ := (record_stream hcalls).eq_append_finish
  obtain ⟨u, -, hfinish⟩ := visitAll_append.1 hvisit
  rw [visitAll_singleton] at hfinish
  obtain ⟨_, _, hget, hfinish⟩ := bind_eq_ok.1 hfinish
  cases hget
  by_cases hsome : u.isSome = true
  · rw [if_pos hsome] at hfinish
    cases hfinish
    exact hsome
  · rw [if_neg hsome] at hfinish
    cases hfinish

theorem quiet_readConstant (env : LoadEnv) : Quiet s₀ (readConstant env) fun _ => True := by
  refine .get_bind fun s hstore hmodule => .bind (M := fun v => v.isSome) ?_ fun v hv => ?_
  · intro t ht
    have hends := ends_readCode (ends_constant env.readGlobal s.store s.module)
        ⟨t.wasm, none⟩ trivial
    have hreads := readsOn_readCode (ConstantCompiler.visit env.readGlobal s.store s.module)
      ⟨t.wasm, none⟩
    unfold zoom
    rw [bind_apply]
    cases hr : readCode (ConstantCompiler.visit env.readGlobal s.store s.module) ⟨t.wasm, none⟩ <;>
      rw [hr] at hends hreads
    · next d =>
      exact ⟨ht.trans ⟨hreads, .refl _, rfl, rfl⟩, readCode_constant hr⟩
    · exact ht.trans ⟨hreads, .refl _, rfl, rfl⟩
    · exact (hends trivial).elim
    · exact hends
  · exact .unwrap (fun _ => hv) fun _ _ => trivial

theorem quiet_readExpr (env : LoadEnv) (ctx : Func) :
    Quiet s₀ (readExpr env ctx) fun _ => True := by
  refine .bind (M := fun _ => True) ?_ fun e _ => .bind (M := fun _ => True) ?_ fun usage _ => ?_
  · intro s hs
    unfold building zoom
    rw [CodeBuilder.pc_apply]
    exact ⟨hs, trivial⟩
  · intro s hs
    have hD : env.maxStackDepth < 2 ^ 16 := by
      have := env.maxStackDepth_le
      omega
    have hsim := readCode_sim (I := fun _ _ => True) (fun _ _ _ _ _ _ _ _ _ _ =>
      trivial) hD ⟨s.wasm, (s.job ctx).builder env.maxControlFrames env.maxStackDepth⟩
      ⟨s.wasm, (s.job ctx).start⟩ ⟨rfl, builder_rep env.maxControlFrames_pos, trivial⟩
    have hreads := readsOn_readCode Compiler.visit
      ⟨s.wasm, (s.job ctx).builder env.maxControlFrames env.maxStackDepth⟩
    unfold zoom
    rw [bind_apply]
    have hrun : readCode Compiler.visit (⟨s.wasm, TextBuilder.new s.code s.store s.module ctx⟩ :
        Decoding (TextBuilder env.maxControlFrames env.maxStackDepth)) = readCode Compiler.visit
        ⟨s.wasm, (s.job ctx).builder env.maxControlFrames env.maxStackDepth⟩ := rfl
    rw [hrun]
    cases hr : readCode Compiler.visit
        ⟨s.wasm, (s.job ctx).builder env.maxControlFrames env.maxStackDepth⟩ <;>
      rw [hr] at hsim hreads
    · next d =>
      obtain ⟨⟨⟩, t, ht, hwasm, hrep, htrivial⟩ := hsim
      exact ⟨hs.trans ⟨hreads, ⟨hrep.intact.size, hrep.intact.word⟩, rfl, rfl⟩, trivial⟩
    · exact hs.trans ⟨hreads, ⟨hsim.1.size, hsim.1.word⟩, rfl, rfl⟩
    · exact fun hlinked => hsim (hs.linked hlinked).module.linked
    · exact hsim
  · exact .ite (fun _ => .throw _) fun _ => .pure trivial

end SpaceWasm
