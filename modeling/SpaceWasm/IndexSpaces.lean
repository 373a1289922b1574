import SpaceWasm.Answers
import SpaceWasm.CallDiscipline
import SpaceWasm.Entities
import SpaceWasm.Globals

/-!
# Index spaces

The functions and globals that a function body names are items of the index spaces of its
module, its imports in their order and then what it defines itself. Every one of them
resolves, and the code of the function refers to what it resolves to.
-/

namespace SpaceWasm

open Fallible Relation

variable {env : LoadEnv} {m m' : Module} {ctx : Context}

/-! ### References in code -/

/-- An instruction that refers to a function or a global by its index. -/
def IrInstr.refers : IrInstr → Bool
  | .call _ | .callHost .. | .callExtern .. => true
  | .globalGet _ | .globalGetHost .. | .globalGetExtern .. => true
  | .globalSet _ | .globalSetHost .. | .globalSetExtern .. => true
  | _ => false

/-- The instruction of a listing, if it refers to a function or a global. -/
def Entry.reference (e : Entry) : Option IrInstr :=
  match e.instr with
  | .plain i => if i.refers then some i else none
  | .if_ _ | .br _ | .brIf _ | .brTable .. => none

/-- The IR instruction for an instruction that names a function or a global. -/
def Module.reference (m : Module) : WasmInstr → Option IrInstr
  | .call x => m.funcSpace[x]?.map Asm.callInstr
  | .globalGet x => m.globalSpace[x]?.map Asm.globalGetInstr
  | .globalSet x => m.globalSpace[x]?.map Asm.globalSetInstr
  | _ => none

/-- What the instruction names is an item of the index spaces of the module. -/
def WasmInstr.Resolves (m : Module) : WasmInstr → Prop
  | .call x => x < m.funcSpace.length
  | .globalGet x | .globalSet x => x < m.globalSpace.length
  | _ => True

/-- The context resolves what a body names in the index spaces of the module. -/
structure Context.Resolves (ctx : Context) (m : Module) : Prop where
  func : ∀ x ref ty, ctx.func? x = some (ref, ty) → m.funcSpace[x]? = some ref
  global : ∀ x g, ctx.global? x = some g → m.globalSpace[x]? = some g.reference

theorem Context.Describes.resolves {s : Store} {f : Func} (h : ctx.Describes s m f) :
    ctx.Resolves m where
  func x ref ty hx := (m.getFuncRef_eq x).symm.trans (h.funcRef x ref ty hx)
  global x g hx := (m.getGlobalRef_eq x).symm.trans (h.globalRef x g hx)

theorem filterMap_instrReturn (n : ℕ) (h : Option ℕ) (r : ResultType) (es : List Entry) :
    (⟨n, .plain (Asm.instrReturn r), h⟩ :: es).filterMap Entry.reference =
      es.filterMap Entry.reference := by
  obtain ⟨size, hsize, -⟩ := Asm.instrReturn_eq r
  rw [hsize]
  rfl

theorem Asm.addLabel_references (t : Asm) (label : Label) :
    (t.addLabel label).entries.filterMap Entry.reference =
      t.entries.filterMap Entry.reference := by
  unfold Asm.addLabel
  cases t.entries with
  | nil => rfl
  | cons e es =>
      obtain ⟨addr, instr, height⟩ := e
      cases instr <;> rfl

section Steps

variable (hctx : ctx.Resolves m)

include hctx

/-- What is emitted for an instruction refers to what this one names. -/
theorem Context.Emits.reference {w : WasmInstr} {i : IrInstr} {ins outs : List ValType}
    (h : ctx.Emits w i ins outs) :
    w.Resolves m ∧ m.reference w = if i.refers then some i else none := by
  cases h with
  | @call x ref ty hx =>
      have href := hctx.func x ref ty hx
      refine ⟨(List.getElem?_eq_some_iff.1 href).1, ?_⟩
      rw [Module.reference, href]
      cases ref <;> rfl
  | @globalGet x g hx =>
      have href := hctx.global x g hx
      refine ⟨(List.getElem?_eq_some_iff.1 href).1, ?_⟩
      rw [Module.reference, href]
      cases g.reference <;> rfl
  | @globalSet x g hx =>
      have href := hctx.global x g hx
      refine ⟨(List.getElem?_eq_some_iff.1 href).1, ?_⟩
      rw [Module.reference, href]
      cases g.reference <;> rfl
  | _ => exact ⟨trivial, rfl⟩

theorem Asm.Step.reference {t t' : Asm} {w : WasmInstr} (h : Asm.Step ctx t w t') :
    w.Resolves m ∧ t'.entries.filterMap Entry.reference =
      (m.reference w).toList ++ t.entries.filterMap Entry.reference := by
  cases h with
  | silent hretypes => cases hretypes <;> exact ⟨trivial, rfl⟩
  | @plain w i ins outs pushed opds hw hemits =>
      obtain ⟨hresolves, href⟩ := hemits.reference hctx
      refine ⟨hresolves, ?_⟩
      rw [href]
      cases hi : i.refers <;> simp [Asm.push, Entry.reference, hi]
  | unreachable | br =>
      refine ⟨trivial, ?_⟩
      rw [Asm.dead_entries]
      rfl
  | return_ =>
      refine ⟨trivial, ?_⟩
      rw [Asm.dead_entries]
      exact filterMap_instrReturn _ _ _ _
  | finish => exact ⟨trivial, filterMap_instrReturn _ _ _ _⟩
  | brTableBranch => exact ⟨trivial, Asm.addLabel_references _ _⟩
  | brTableFinish =>
      refine ⟨trivial, ?_⟩
      rw [Asm.dead_entries]
      exact Asm.addLabel_references _ _
  | _ => exact ⟨trivial, rfl⟩

/-- The references of the code that is emitted for some instructions, the last one first. -/
theorem visitAll_references {t t' : Asm} {is : List WasmInstr}
    (h : visitAll (Asm.visitor ctx) is t = .ok () t') :
    (∀ i ∈ is, i.Resolves m) ∧ t'.entries.filterMap Entry.reference =
      (is.filterMap m.reference).reverse ++ t.entries.filterMap Entry.reference := by
  induction is generalizing t with
  | nil =>
      cases h
      exact ⟨nofun, rfl⟩
  | cons i is ih =>
      obtain ⟨_, u, hvisit, h⟩ := bind_eq_ok.1 h
      obtain ⟨hresolves, hi⟩ := (Asm.visit_step (Asm.visitor_eq_ok.1 hvisit)).reference hctx
      obtain ⟨hall, his⟩ := ih h
      refine ⟨List.forall_mem_cons.2 ⟨hresolves, hall⟩, ?_⟩
      rw [his, hi, List.filterMap_cons]
      cases m.reference i <;> simp

end Steps

/-! ### Function bodies -/

theorem Module.Similar.spaces (h : m.Similar m') :
    m'.funcSpace = m.funcSpace ∧ m'.globalSpace = m.globalSpace := by
  have hfunctions : m'.functions.length = m.functions.length := by
    simpa using congrArg List.length h.functions
  have hglobals : m'.globals.length = m.globals.length := by
    simpa using congrArg List.length h.globals
  rw [Module.funcSpace, Module.funcSpace, Module.globalSpace, Module.globalSpace, h.imports,
    hfunctions, hglobals]
  exact ⟨rfl, rfl⟩

/-- The function has been compiled from the instructions `is`, which name items of the index
spaces of the module. -/
structure Func.CompiledFrom (f : Func) (m : Module) (code : CodeBuilder) (is : List WasmInstr) :
    Prop where
  resolves : ∀ i ∈ is, i.Resolves m
  listing : ∃ L : Listing, f.expr = addrOf L.base ∧
    (∀ c, code.Extends c → L.Installed c.pages) ∧
      L.entries.reverse.filterMap Entry.reference = is.filterMap m.reference

theorem Func.CompiledFrom.keeps {f : Func} {code code' : CodeBuilder} {is : List WasmInstr}
    (h : f.CompiledFrom m code is) (hfunc : m'.funcSpace = m.funcSpace)
    (hglobal : m'.globalSpace = m.globalSpace) (hcode : code.Extends code') :
    f.CompiledFrom m' code' is := by
  have hreference : m'.reference = m.reference := by
    funext i
    cases i <;> simp only [Module.reference, hfunc, hglobal]
  obtain ⟨hresolves, L, hexpr, hinstalled, hlisting⟩ := h
  refine ⟨fun i hi => ?_, L, hexpr, fun c hc => hinstalled c (hcode.trans hc), ?_⟩
  · have hi := hresolves i hi
    cases i <;> simp only [WasmInstr.Resolves, hfunc, hglobal] at hi ⊢ <;> exact hi
  · rw [hreference, hlisting]

/-- What a body names is resolved in the index spaces of its module. -/
theorem Job.resolves (job : Job) : job.context.Resolves job.module where
  func x ref ty hx := by
    obtain ⟨r, hr, hx⟩ := Option.bind_eq_some_iff.1 hx
    obtain ⟨ty', hty, hx⟩ := Option.bind_eq_some_iff.1 hx
    cases hx
    exact (job.module.getFuncRef_eq x).symm.trans hr
  global x g hx := by
    obtain ⟨r, hr, hx⟩ := Option.bind_eq_some_iff.1 hx
    rw [Store.refGlobal?_reference hx]
    exact (job.module.getGlobalRef_eq x).symm.trans hr

variable {s u v : LoadState} {f g : Func} {entry : JumpTarget} {usage : ℕ}

/-- An expression that is compiled. -/
theorem readExpr_compiledFrom (h : readExpr env g s = .ok (entry, usage) u) :
    ∃ is, readCode record ⟨s.wasm, []⟩ = .ok () ⟨u.wasm, is⟩ ∧
      ∀ f : Func, f.expr = entry → f.CompiledFrom u.module u.code is := by
  obtain ⟨t, hcompiled, hlinked, -⟩ := readExpr_heighted h
  obtain ⟨is, hread, hvisit⟩ := readCode_eq_ok.1 hcompiled.assembles
  obtain ⟨hresolves, hreferences⟩ := visitAll_references (s.job g).resolves hvisit
  refine ⟨is, hread, fun f hf => ?_⟩
  rw [hcompiled.module]
  refine ⟨hresolves, t.toListing, hf.trans hcompiled.base.1, fun c hc =>
    hcompiled.installed hlinked.1 hc, ?_⟩
  rw [List.filterMap_reverse, hreferences, show (s.job g).start.entries = [] from rfl,
    List.filterMap_nil, List.append_nil, List.reverse_reverse]
  rfl

/-- The body of the function `i`, which the load reads from `s` on, has the instructions `is`. -/
def LoadState.BodyOf (s : LoadState) (i : ℕ) (is : List WasmInstr) : Prop :=
  ∃ size w f x locals y r, decoding readU32 s = .ok size w ∧ w.module.functions[i]? = some f ∧
    setFunction i { f with locals := [], expr := 0 } w = .ok () x ∧
    readVec (decoding readLocals) (x.enter size.toNat) = .ok locals y ∧
    readCode record ⟨y.wasm, []⟩ = .ok () ⟨r, is⟩

/-- A function body that is read. -/
theorem readFunctionCode_compiledFrom {i : ℕ} (hi : i < u.module.functions.length)
    (h : readFunctionCode env i u = .ok () v) :
    ∃ is g, u.BodyOf i is ∧ v.module.functions = u.module.functions.set i g ∧
      u.module.Similar v.module ∧ u.code.Extends v.code ∧ g.CompiledFrom v.module v.code is := by
  have hwithin := (Guarded.ok (readFunctionCode_frame (W := .all) env hi) (.refl u) h).1
  obtain ⟨size, w, f, x, g, y, hsize, hf, hset, hbody, -, -, hcode, hv⟩ :=
    readFunctionCode_eq_ok hi h
  obtain ⟨locals, z, hlocals, -, -, hg, hexpr⟩ := readFunctionBody_eq_ok hbody
  obtain ⟨is, hread, hcompiled⟩ := readExpr_compiledFrom hexpr
  have hsimilar : u.module.Similar v.module := hwithin.similar nofun nofun nofun nofun
  have hw := (Guarded.ok (quiet_decoding decoder_readU32) (.refl u) hsize).1
  have hquiet := (Guarded.ok (quiet_functionBody env _) (.refl _) hbody).1
  refine ⟨is, g, ⟨size, w, f, x, locals, z, _, hsize, hf, hset, hlocals, hread⟩, ?_, hsimilar,
    hwithin.code, ?_⟩
  · cases hset
    rw [hv, hquiet.module]
    simp only [LoadState.enter, List.set_set, hw.module]
  · rw [hcode, hv]
    refine (hcompiled g (by rw [hg])).keeps ?_ rfl (.refl _)
    rw [Module.funcSpace, Module.funcSpace, List.length_set]

/-- The bodies that follow leave the functions before them alone. -/
theorem readFunctionCodes_before {n i : ℕ} (hi : i + n ≤ u.module.functions.length)
    (h : readFunctionCodes env n i u = .ok () v) :
    u.module.Similar v.module ∧ u.code.Extends v.code ∧
      ∀ j < i, v.module.functions[j]? = u.module.functions[j]? := by
  induction n generalizing i u with
  | zero =>
      cases h
      exact ⟨.refl _, .refl _, fun _ _ => rfl⟩
  | succ n ih =>
      obtain ⟨_, w, hcode, h⟩ := bind_eq_ok.1 h
      obtain ⟨is, g, -, hset, hsimilar, hextends, -⟩ :=
        readFunctionCode_compiledFrom (by omega) hcode
      have hlength : w.module.functions.length = u.module.functions.length := by
        rw [hset, List.length_set]
      obtain ⟨hsimilar', hextends', hbefore⟩ := ih (by omega) h
      refine ⟨hsimilar.trans hsimilar', hextends.trans hextends', fun j hj => ?_⟩
      rw [hbefore j (by omega), hset, List.getElem?_set_ne (by omega)]

/-- The loop over the bodies. -/
theorem readFunctionCodes_compiledFrom {n i : ℕ} (hi : i + n ≤ u.module.functions.length)
    (h : readFunctionCodes env n i u = .ok () v) {j : ℕ} (hj : j < n) {f : Func}
    (hf : v.module.functions[i + j]? = some f) :
    ∃ s is, readFunctionCodes env j i u = .ok () s ∧ s.BodyOf (i + j) is ∧
      f.CompiledFrom v.module v.code is := by
  induction n generalizing i u j with
  | zero => exact absurd hj (Nat.not_lt_zero _)
  | succ n ih =>
      obtain ⟨_, w, hcode, h⟩ := bind_eq_ok.1 h
      obtain ⟨is, g, hbody, hset, -, -, hcompiled⟩ := readFunctionCode_compiledFrom (by omega) hcode
      have hlength : w.module.functions.length = u.module.functions.length := by
        rw [hset, List.length_set]
      cases j with
      | zero =>
          obtain ⟨hsimilar, hextends, hbefore⟩ := readFunctionCodes_before (by omega) h
          rw [Nat.add_zero, hbefore i (Nat.lt_succ_self i), hset,
            List.getElem?_set_self (by omega)] at hf
          cases hf
          exact ⟨u, is, rfl, hbody, hcompiled.keeps hsimilar.spaces.1 hsimilar.spaces.2 hextends⟩
      | succ j =>
          have hnext : i + (j + 1) = i + 1 + j := by omega
          rw [hnext] at hf ⊢
          obtain ⟨s, is, hs, hbody', hcompiled'⟩ := ih (by omega) h (Nat.lt_of_succ_lt_succ hj) hf
          refine ⟨s, is, ?_, hbody', hcompiled'⟩
          exact (bind_of_ok hcode).trans hs

/-! ### Loads -/

/-- A code section that is read from `s₀` on comes to the body of the function `i`, in `s`. -/
def AtBody (env : LoadEnv) (s₀ : LoadState) (i : ℕ) (s : LoadState) : Prop :=
  ∃ n s₁, decoding readU32 s₀ = .ok n s₁ ∧ i < n.toNat ∧ readFunctionCodes env i 0 s₁ = .ok () s

/-- Every function of the load has been compiled from its body in the code section that is read
from `s₀` on. -/
def LoadState.CompiledBodies (env : LoadEnv) (s₀ v : LoadState) : Prop :=
  ∀ i f, v.module.functions[i]? = some f → ∃ s is, AtBody env s₀ i s ∧ s.BodyOf i is ∧
    f.CompiledFrom v.module v.code is

theorem readCodeSection_compiledFrom (h : readCodeSection env u = .ok () v) :
    u.CompiledBodies env v := by
  intro i f hf
  obtain ⟨n, w, hn, h⟩ := bind_eq_ok.1 h
  have hw := (Guarded.ok (quiet_decoding decoder_readU32) (.refl u) hn).1
  rw [bind_of_ok (get_apply w)] at h
  split at h
  · cases h
  · next hcount =>
    have hcount := Decidable.not_not.1 hcount
    have hle : 0 + n.toNat ≤ w.module.functions.length := by omega
    obtain ⟨hsimilar, -, -⟩ := readFunctionCodes_before hle h
    have hlength : v.module.functions.length = w.module.functions.length := by
      simpa using congrArg List.length hsimilar.functions
    have hi : i < n.toNat := by
      have := (List.getElem?_eq_some_iff.1 hf).1
      omega
    rw [← Nat.zero_add i] at hf
    obtain ⟨s, is, hs, hbody, hcompiled⟩ := readFunctionCodes_compiledFrom hle h hi hf
    exact ⟨s, is, ⟨n, w, hn, hi, hs⟩, Nat.zero_add i ▸ hbody, hcompiled⟩

/-- The sections after the code section leave functions alone. -/
structure LoadState.AfterCode (u : LoadState) (last : SectionKind) (v : LoadState) : Prop where
  order : SectionKind.code.toNat ≤ last.toNat
  similar : u.module.Similar v.module
  functions : v.module.functions = u.module.functions
  code : u.code.Extends v.code

theorem LoadState.AfterCode.section_ {w : LoadState} {last kind next : SectionKind}
    (h : u.AfterCode last v) (horder : checkOrder last kind = .ok next)
    (hbody : readSectionBody env kind v = .ok () w) : u.AfterCode next w := by
  have hwithin := Guarded.ok (readSectionBody_frame (W := .all) env fun _ _ _ =>
    LoadState.sectionWrites_all env kind _) rfl hbody
  have hlate : (kind = .custom ∨ kind = .data) ∧ SectionKind.code.toNat ≤ next.toNat := by
    rcases checkOrder_eq_ok.1 horder with ⟨rfl, rfl⟩ | ⟨-, hlt, rfl⟩
    · exact ⟨.inl rfl, h.order⟩
    · have hlt' := Nat.lt_of_le_of_lt h.order hlt
      exact ⟨.inr (SectionKind.eq_data hlt'), Nat.le_of_lt hlt'⟩
  have hne : ∀ k, k ≠ .custom → k ≠ .data → kind ≠ k := by
    rintro k hcustom hdata rfl
    exact hlate.1.elim hcustom hdata
  refine ⟨hlate.2, h.similar.trans (hwithin.similar (hne _ nofun nofun) (hne _ nofun nofun)
    (hne _ nofun nofun) (hne _ nofun nofun)), ?_, h.code.trans hwithin.code⟩
  rw [hwithin.module.functions (hne _ nofun nofun) (hne _ nofun nofun), h.functions]

theorem LoadState.CompiledBodies.after {s₀ : LoadState} {last : SectionKind}
    (h : s₀.CompiledBodies env u) (hv : u.AfterCode last v) : s₀.CompiledBodies env v := by
  intro i f hf
  obtain ⟨s, is, hat, hbody, hcompiled⟩ := h i f (hv.functions ▸ hf)
  exact ⟨s, is, hat, hbody, hcompiled.keeps hv.similar.spaces.1 hv.similar.spaces.2 hv.code⟩

/-- The loop over the sections. -/
theorem readSections_compiledFrom {fuel : ℕ} {last : SectionKind} {b : Bool}
    (h : readSections env fuel last false s = .ok b v) (hb : b = true) :
    ∃ s₀, AtSection env s last .code s₀ ∧ s₀.CompiledBodies env v := by
  induction fuel generalizing last s with
  | zero => cases h
  | succ fuel ih =>
      unfold readSections at h
      cases hr : decoding SectionKind.read s with
      | error e w =>
          rw [hr] at h
          cases e <;> cases h
          cases hb
      | panic | diverge =>
          rw [hr] at h
          cases h
      | ok kind w =>
          rw [hr] at h
          obtain ⟨next, w', hnext, h⟩ := bind_eq_ok.1 h
          obtain ⟨horder, rfl⟩ := ofExcept_eq_ok.1 (mapError_eq_ok.1 hnext)
          obtain ⟨_, x, hbody, h⟩ := bind_eq_ok.1 h
          by_cases hkind : kind = .code
          · subst hkind
            obtain ⟨size, s₁, y, hsize, -, hsection, rfl, -⟩ := readSectionBody_eq_ok hbody
            have hcompiled : (s₁.enter size.toNat).CompiledBodies env y :=
              readCodeSection_compiledFrom hsection
            have hafter : y.AfterCode next (s₁.leave y) := by
              refine ⟨?_, .refl _, rfl, .refl _⟩
              rcases checkOrder_eq_ok.1 horder with ⟨hcustom, -⟩ | ⟨-, -, rfl⟩
              · cases hcustom
              · exact Nat.le_refl _
            obtain ⟨last', hv⟩ := readSections_rule
              (I := fun last _ v => y.AfterCode last v)
              (fun hu hw => ⟨hu.order, hw.module ▸ hu.similar, hw.module ▸ hu.functions,
                hu.code.trans hw.code⟩) (fun hu => hu.section_) hafter h
            exact ⟨_, .here hr horder hsize, hcompiled.after hv⟩
          · rw [decide_eq_false hkind, Bool.or_false] at h
            obtain ⟨s₀, hat, hcompiled⟩ := ih h
            exact ⟨s₀, .later hr horder hbody hat, hcompiled⟩

/-- The load comes to the body of the function `i`, in state `s`. -/
def LoadTarget.AtBody (t : LoadTarget) (env : LoadEnv) (name : Name) (wasm : Reader) (i : ℕ)
    (s : LoadState) : Prop :=
  ∃ s₁ s₂, readHeader name (t.start name wasm) = .ok () s₁ ∧
    AtSection env s₁ .custom .code s₂ ∧ SpaceWasm.AtBody env s₂ i s

/-- Every function of a module that is loaded has been compiled from its body. -/
theorem Module.new_compiledFrom {name : Name} {wasm : Reader} {t t' : LoadTarget}
    (h : Module.new env name wasm t = .ok m t') {i : ℕ} {f : Func}
    (hf : m.functions[i]? = some f) : ∃ s is, t.AtBody env name wasm i s ∧ s.BodyOf i is ∧
      f.CompiledFrom m t'.code is := by
  obtain ⟨w, b, x, hheader, hsections, hnone, rfl, rfl⟩ := Module.new_eq_ok h
  cases b with
  | true =>
      obtain ⟨s₀, hat, hcompiled⟩ := readSections_compiledFrom hsections rfl
      obtain ⟨s, is, hs, hinstrs, hfrom⟩ := hcompiled i f hf
      exact ⟨s, is, ⟨w, s₀, hheader, hat, hs⟩, hinstrs, hfrom⟩
  | false =>
      rw [hnone rfl] at hf
      cases hf

/-! ### Histories -/

theorem LoadStep.extends_ {t t' : LoadTarget} (h : LoadStep t t') : t.code.Extends t'.code := by
  cases h with
  | loaded env name wasm r hr =>
      obtain ⟨m, v, -, hgrows, -, -, hcode⟩ := (loadModule_frame env name wasm t .all fun _ _ =>
        LoadState.loadWrites_all _ _ _).ok rfl hr
      exact hcode ▸ hgrows.code
  | failed env name wasm e hr =>
      exact ((loadModule_frame env name wasm t .all fun _ _ =>
        LoadState.loadWrites_all _ _ _).error rfl hr).code

/-- Later loads leave a module and its code alone. -/
theorem LoadStep.module?_of {t t' : LoadTarget} (h : ReflTransGen LoadStep t t') {q : ModuleRef}
    (hm : t.store.module? q = some m) :
    t'.store.module? q = some m ∧ t.code.Extends t'.code := by
  induction h with
  | refl => exact ⟨hm, .refl _⟩
  | tail _ hstep ih =>
      obtain ⟨hfound, hextends⟩ := ih
      obtain ⟨ms, hms⟩ := hstep.modules
      rw [Store.module?] at hfound ⊢
      rw [← hms, List.getElem?_append_left (List.getElem?_eq_some_iff.1 hfound).1]
      exact ⟨hfound, hextends.trans hstep.extends_⟩

/-- What a module in a store can rely on: its index spaces are its imports and then what it
defines itself, its exports are there, and so are its memory and its table. -/
structure Module.WellLinked (m : Module) (q : ModuleRef) (s : Store) : Prop where
  func : ∀ x, m.getFuncRef x = m.funcSpace[x]?
  global : ∀ x, m.getGlobalRef x = m.globalSpace[x]?
  exports : ∀ e ∈ m.exports, m.Offers s e.desc
  memory : ∃ mem, s.getMemory q = some mem ∧ s.getMemoryMut q = some mem ∧
    mem < s.memories.length
  table : ∃ table, s.getTable q = some table ∧ table < s.tables.length

theorem Store.Bounded.wellLinked {s : Store} (hs : s.Bounded) (hwell : s.WellFormed)
    {q : ModuleRef} (hm : s.module? q = some m) : m.WellLinked q s := by
  have hlinked := hs.linked
  have hmem := List.mem_of_getElem? hm
  obtain ⟨mem, hmemory⟩ := hlinked.getMemory_eq hm
  obtain ⟨table, htable⟩ := hlinked.getTable_eq hm
  exact ⟨m.getFuncRef_eq, m.getGlobalRef_eq,
    fun e he => (hlinked.modules m hmem).offers ((hwell m hmem).exports e he),
    ⟨mem, hmemory, (s.getMemoryMut_eq q).trans hmemory, hlinked.getMemory_lt hmemory⟩,
    ⟨table, htable, hlinked.getTable_lt htable⟩⟩

theorem LoadTarget.Reachable.wellFormed {setup : HostSetup} {t : LoadTarget}
    (h : t.Reachable setup) : t.store.WellFormed := by
  obtain ⟨store, code, hstore, hsteps⟩ := h
  induction hsteps with
  | refl =>
      intro m hm
      rw [(HostSetup.store_eq hstore).1] at hm
      cases hm
  | tail _ hstep ih => exact hstep.wellFormed ih

/-- A round that panics is a call through the table, of an entry for a function that does not
exist. -/
theorem Engine.Safe.round_panics {η : Type} {floats : FloatOps} {host : HostEnv η}
    {e : Engine η} {code : CodeBuilder} (h : e.Safe host code)
    (hpause : e.hostPauseResult = none)
    (hround : runRound ⟨code.pages, floats, host⟩ e = none) :
    ∃ x stop, IrReader.decode code.pages e.pc = .ok (.callIndirect x) stop ∧
      ¬e.CalleeLive := by
  by_cases hpc : e.pc = JumpTarget.sentinel
  · rw [Engine.runRound_idle hpc] at hround
    cases hround
  · obtain ⟨a, rest, n, hrun⟩ := h.sited.running hpc
    rcases hrun.round (.refl e) (h.ready hpc hpause) with ⟨r, t, -, hround', -⟩ | ⟨hcalls, hlive, -⟩
    · rw [hround] at hround'
      cases hround'
    · obtain ⟨i, stop, hdecode, x, rfl⟩ := hcalls
      exact ⟨x, stop, hdecode, hlive⟩

/-- The function has been compiled from a body that the load reads. Every function and global
that the body names is an item of the index spaces of the module, and what the code at the
entry of the function refers to is, in this order, what these items are. -/
def Func.CompiledBy (f : Func) (i : ℕ) (m : Module) (code : CodeBuilder) (t : LoadTarget)
    (env : LoadEnv) (name : Name) (wasm : Reader) : Prop :=
  ∃ s is, t.AtBody env name wasm i s ∧ s.BodyOf i is ∧ (∀ j ∈ is, j.Resolves m) ∧
    ∃ L : Listing, L.ReadsBack code.pages f.expr ∧
      L.entries.reverse.filterMap Entry.reference = is.filterMap m.reference

theorem loadModule_compiledBy {name : Name} {wasm : Reader} {t u u' : LoadTarget} {q : ModuleRef}
    (ht : t.store.Bounded) (h : loadModule env name wasm t = .ok q u)
    (hlater : ReflTransGen LoadStep u u') : ∃ m : Module, u'.store.module? q = some m ∧
      ∀ i (f : Func), m.functions[i]? = some f → f.CompiledBy i m u'.code t env name wasm := by
  obtain ⟨m, v, hnew, hgrows, -, hpush, hcode⟩ := (loadModule_frame env name wasm t .all fun _ _ =>
    LoadState.loadWrites_all _ _ _).ok rfl h
  have hm : u.store.module? q = some m := (ht.evolves hgrows.store).module?_push hpush
  obtain ⟨hm', hextends⟩ := LoadStep.module?_of hlater hm
  refine ⟨m, hm', fun i f hf => ?_⟩
  obtain ⟨s, is, hat, hbody, hresolves, L, hexpr, hinstalled, hreferences⟩ :=
    Module.new_compiledFrom hnew hf
  exact ⟨s, is, hat, hbody, hresolves, L, hexpr ▸ (hinstalled _ (hcode ▸ hextends)).readsBack,
    hreferences⟩

/-- Linking in the stores that histories of loads lead to. Every import is of its declared type
and designates the entity that its names lead to, through any number of re-exports. The index
spaces of a module are its imports and then what it defines; its exports, its memory and its
table are there. Every function and global that code names is an item of them, and the code
that is emitted refers to it, whatever is loaded later. A load never panics, and a round of an
engine that runs this code does so only when it is a call through the table, of an entry for a
function that does not exist. -/
theorem LoadTarget.Reachable.linking_sound {setup : HostSetup} {t : LoadTarget}
    (h : t.Reachable setup) :
    (∃ store code, setup.store = .ok store ∧ (∃ decls, LoadHistory ⟨store, code⟩ t decls) ∧
      ∀ decls, LoadHistory ⟨store, code⟩ t decls → t.store.ImportsSound decls) ∧
    (∀ q m, t.store.module? q = some m → m.WellLinked q t.store) ∧
    (∀ env name wasm, (∀ q u, loadModule env name wasm t = .ok q u →
        ∀ u', ReflTransGen LoadStep u u' → ∃ m : Module, u'.store.module? q = some m ∧
          ∀ i (f : Func), m.functions[i]? = some f → f.CompiledBy i m u'.code t env name wasm) ∧
      loadModule env name wasm t ≠ .panic) ∧
    ∀ {η : Type} {floats : FloatOps} {host : HostEnv η} {stackSize : ℕ} {s : Session η},
      host.Regular setup.hostModules → stackSize < 2 ^ 31 →
      s.Abides setup floats host stackSize → s.engine.hostPauseResult = none →
      runRound (s.env floats host) s.engine = none →
        ∃ x stop, IrReader.decode s.code.pages s.engine.pc = .ok (.callIndirect x) stop ∧
          ¬s.engine.CalleeLive := by
  have hbounded := h.bounded
  have hwell := h.wellFormed
  refine ⟨?_, fun q m hm => hbounded.wellLinked hwell hm, fun env name wasm =>
    ⟨fun q u hload u' hlater => loadModule_compiledBy hbounded hload hlater, fun hpanic => ?_⟩,
    fun hregular hsmall hs hpause hround =>
      Engine.Safe.round_panics (hs.safe hregular hsmall) hpause hround⟩
  · obtain ⟨store, code, hstore, hsteps⟩ := h
    have hstart : store.Sourced [] :=
      ⟨Store.faithful_fromHostModules hstore, HostSetup.bounded hstore, fun k m ds _ hds => by
        cases hds⟩
    exact ⟨store, code, hstore, exists_loadHistory hstart.faithful hsteps,
      fun decls hhistory => (hhistory.sourced hstart).importsSound⟩
  · exact loadModule_not_linked hpanic hbounded.linked

/-- A module exports again the function that it imports. -/
theorem LoadTarget.Reachable.linking_sound_reexporter : ∃ t store code decls m,
    LoadHistory ⟨store, code⟩ t decls ∧ t.store.ImportsSound decls ∧
      t.store.module? 1 = some m ∧ m.exportEntry 1 (.func 0) = some (.func 0 0) ∧
      m.WellLinked 1 t.store := by
  have hrun : ((emptySession.load? [0x61] exporter).bind fun s =>
      (s.load? [0x62] reexporter).bind fun u => (u.target.store.module? 1).bind fun m =>
        m.exportEntry 1 (.func 0)) = some (.func 0 0) := by decide +kernel
  obtain ⟨s, hs, hrun⟩ := Option.bind_eq_some_iff.1 hrun
  obtain ⟨u, hu, hrun⟩ := Option.bind_eq_some_iff.1 hrun
  obtain ⟨m, hm, hentry⟩ := Option.bind_eq_some_iff.1 hrun
  have hreachable : u.target.Reachable emptyHost := ⟨emptyStore, emptyBuilder, rfl,
    .tail (.single (Session.load?_loadStep hs)) (Session.load?_loadStep hu)⟩
  obtain ⟨⟨store, code, -, ⟨decls, hhistory⟩, himports⟩, hmodules, -⟩ :=
    LoadTarget.Reachable.linking_sound hreachable
  exact ⟨u.target, store, code, decls, m, hhistory, himports decls hhistory, hm, hentry,
    hmodules 1 m hm⟩

/-- An engine that is run while it waits for a result comes to a call of a function in a
module that does not exist. -/
theorem overrun_call : ∃ s s' e₁ e₂ stop, pausingSession? straying = some s ∧
    s.Abides (pausingHost .i64) .none .asking 16 ∧ s.invoke? ⟨0, 2⟩ = some s' ∧
    run (s'.env .none .asking) 9 s'.engine = some (.pause, e₁) ∧
    run (s'.env .none .asking) 6 e₁ = some (.outOfFuel, e₂) ∧
    IrReader.decode s'.code.pages e₂.pc = .ok (.callExtern 200 0) stop ∧
    e₂.store.module? 200 = none ∧ runRound (s'.env .none .asking) e₂ = none := by
  have hrun : ((pausingSession? straying).bind fun s => (s.invoke? ⟨0, 2⟩).bind fun s' =>
      (run (s'.env .none .asking) 9 s'.engine).bind fun p₁ =>
      (run (s'.env .none .asking) 6 p₁.2).map fun p₂ =>
        decide (p₁.1 = .pause ∧ p₂.1 = .outOfFuel ∧
          (IrReader.decode s'.code.pages p₂.2.pc).value? = some (.callExtern 200 0) ∧
          (p₂.2.store.module? 200).isNone ∧
          (runRound (s'.env .none .asking) p₂.2).isNone)) = some true := by decide +kernel
  obtain ⟨s, h₀, hrun⟩ := Option.bind_eq_some_iff.1 hrun
  obtain ⟨s', h₁, hrun⟩ := Option.bind_eq_some_iff.1 hrun
  obtain ⟨⟨r₁, e₁⟩, h₂, hrun⟩ := Option.bind_eq_some_iff.1 hrun
  obtain ⟨⟨r₂, e₂⟩, h₃, hrun⟩ := Option.map_eq_some_iff.1 hrun
  obtain ⟨rfl, rfl, hdecode, hmodule, hround⟩ := of_decide_eq_true hrun
  obtain ⟨stop, hdecode⟩ := Outcome.value?_eq_some.1 hdecode
  exact ⟨s, s', e₁, e₂, stop, h₀, pausingSession?_abides h₀, h₁, h₂, h₃, hdecode,
    Option.isNone_iff_eq_none.1 hmodule, Option.isNone_iff_eq_none.1 hround⟩

end SpaceWasm
