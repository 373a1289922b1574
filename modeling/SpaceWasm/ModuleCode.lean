import SpaceWasm.FrameLayout
import SpaceWasm.Framing
import SpaceWasm.Heights
import SpaceWasm.History

/-!
# The code of a module

A module that is loaded has code for every function: the listing that the compiler
emitted lies in the code buffer from the entry of the function on, its heights are at
most the stack usage of the function, and what the compiler took for granted about
types, functions, globals and local variables is so in the store. Later loads and runs
of code change none of this.
-/

namespace SpaceWasm

open Fallible

/-! ### Declarations -/

/-- A function is declared with the type `ty`: its parameters and its result have the
words of the type, and the words of the parameters fit into eight bits. -/
structure Func.Declared (types : List FuncType) (f : Func) (ty : FuncType) : Prop where
  type : types[f.ty]? = some ty
  parameterSize : f.parameterSize = wordsOf ty.params
  parameterSize_le : f.parameterSize ≤ 0xFF
  returnTy : f.returnTy = ty.returns.head?
  returns : ty.returns.length ≤ 1

def Module.Declared (m : Module) : Prop := ∀ f ∈ m.functions, ∃ ty, f.Declared m.types ty

variable {s s' : Store} {m m' : Module} {f g : Func} {types : List FuncType} {ty : FuncType}

theorem Func.Declared.congr (h : f.Declared types ty) (hdecl : g.decl = f.decl) :
    g.Declared types ty := by
  simp only [Func.decl, Prod.mk.injEq] at hdecl
  obtain ⟨hty, hsize, hreturn⟩ := hdecl
  exact ⟨hty ▸ h.type, hsize ▸ h.parameterSize, hsize ▸ h.parameterSize_le, hreturn ▸ h.returnTy,
    h.returns⟩

theorem Func.Declared.returnTy_words (h : f.Declared types ty) :
    f.returnTy.words = wordsOf ty.returns := by
  rw [h.returnTy]
  have hlength := h.returns
  rcases hreturns : ty.returns with _ | ⟨t, _ | ⟨u, us⟩⟩
  · rfl
  · simp [ResultType.words]
  · simp [hreturns] at hlength

/-- Two modules that code cannot tell apart. -/
structure Module.Similar (m m' : Module) : Prop where
  types : m'.types = m.types
  imports : m'.imports = m.imports
  functions : m'.functions.map Func.decl = m.functions.map Func.decl
  globals : m'.globals.map Global.type = m.globals.map Global.type

theorem Module.Similar.refl (m : Module) : m.Similar m := ⟨rfl, rfl, rfl, rfl⟩

theorem Module.Similar.trans {o : Module} (h : m.Similar m') (h' : m'.Similar o) : m.Similar o :=
  ⟨h'.types.trans h.types, h'.imports.trans h.imports, h'.functions.trans h.functions,
    h'.globals.trans h.globals⟩

theorem Module.Alike.similar (h : m.Alike m') : m.Similar m' := by
  refine ⟨?_, ?_, ?_, h.types⟩ <;> rw [h.eq]

theorem Module.Declared.similar (hm : m.Declared) (h : m.Similar m') : m'.Declared := by
  intro f hf
  have hmem : f.decl ∈ m.functions.map Func.decl := h.functions ▸ List.mem_map_of_mem hf
  obtain ⟨g, hg, heq⟩ := List.mem_map.1 hmem
  obtain ⟨ty, hty⟩ := hm g hg
  rw [h.types]
  exact ⟨ty, hty.congr heq.symm⟩

theorem Module.Similar.function (h : m.Similar m') {i : ℕ} (hf : m.functions[i]? = some f) :
    ∃ g, m'.functions[i]? = some g ∧ g.decl = f.decl := by
  have hmap := congrArg (·[i]?) h.functions
  simp only [List.getElem?_map, hf, Option.map_some] at hmap
  obtain ⟨g, hg, heq⟩ := Option.map_eq_some_iff.1 hmap
  exact ⟨g, hg, heq⟩

theorem Module.Similar.global (h : m.Similar m') {i : ℕ} {x : Global}
    (hx : m.globals[i]? = some x) : ∃ y, m'.globals[i]? = some y ∧ y.type = x.type := by
  have hmap := congrArg (·[i]?) h.globals
  simp only [List.getElem?_map, hx, Option.map_some] at hmap
  obtain ⟨y, hy, heq⟩ := Option.map_eq_some_iff.1 hmap
  exact ⟨y, hy, heq⟩

theorem Module.Similar.getFuncRef (h : m.Similar m') (x : Idx) :
    m'.getFuncRef x = m.getFuncRef x := by
  have hlength := congrArg List.length h.functions
  rw [List.length_map, List.length_map] at hlength
  rw [Module.getFuncRef, Module.getFuncRef, h.imports, hlength]

theorem Module.Similar.getGlobalRef (h : m.Similar m') (x : Idx) :
    m'.getGlobalRef x = m.getGlobalRef x := by
  have hlength := congrArg List.length h.globals
  rw [List.length_map, List.length_map] at hlength
  rw [Module.getGlobalRef, Module.getGlobalRef, h.imports, hlength]

/-! ### References -/

section References

variable (hs : s.Keeps s') (hm : m.Similar m')

include hs hm

theorem Store.Keeps.refFuncType? {r : Ref} (h : s.refFuncType? m r = some ty) :
    s'.refFuncType? m' r = some ty := by
  cases r with
  | module index =>
      obtain ⟨f, hf, hty⟩ := Option.bind_eq_some_iff.1 h
      obtain ⟨g, hg, heq⟩ := hm.function hf
      have hgty : g.ty = f.ty := congrArg Prod.fst heq
      simp only [Store.refFuncType?, hg, Option.bind_eq_bind, Option.bind_some, hm.types, hgty]
      exact hty
  | host r index => rwa [Store.refFuncType?, hs.hostModule?]
  | extern_ r index =>
      obtain ⟨em, hem, hty⟩ := Option.bind_eq_some_iff.1 h
      obtain ⟨em', hem', halike⟩ := hs.module r em hem
      rw [Store.refFuncType?, hem', halike.eq]
      exact hty

theorem Store.Keeps.refGlobal? {r : Ref} {x : GlobalVariable} (h : s.refGlobal? m r = some x) :
    s'.refGlobal? m' r = some x := by
  cases r with
  | module index =>
      obtain ⟨g, hg, hx⟩ := Option.bind_eq_some_iff.1 h
      obtain ⟨g', hg', heq⟩ := hm.global hg
      simp only [Store.refGlobal?, hg', Option.bind_eq_bind, Option.bind_some, heq]
      exact hx
  | host r index => rwa [Store.refGlobal?, hs.hostModule?]
  | extern_ r index =>
      obtain ⟨em, hem, hx⟩ := Option.bind_eq_some_iff.1 h
      obtain ⟨g, hg, hx⟩ := Option.bind_eq_some_iff.1 hx
      obtain ⟨em', hem', halike⟩ := hs.module r em hem
      obtain ⟨g', hg', heq⟩ := halike.similar.global hg
      simp only [Store.refGlobal?, hem', hg', Option.bind_eq_bind, Option.bind_some, heq]
      exact hx

end References

theorem Store.refGlobal?_reference {r : Ref} {x : GlobalVariable}
    (h : s.refGlobal? m r = some x) : x.reference = r := by
  cases r with
  | module index =>
      obtain ⟨g, -, hx⟩ := Option.bind_eq_some_iff.1 h
      cases hx
      rfl
  | host r index | extern_ r index =>
      obtain ⟨em, -, hx⟩ := Option.bind_eq_some_iff.1 h
      obtain ⟨g, -, hx⟩ := Option.bind_eq_some_iff.1 hx
      cases hx
      rfl

/-! ### What the compiler takes for granted -/

/-- What a context says of the types, the functions, the globals and the local variables
of the function `f` is so. -/
structure Context.Describes (ctx : Context) (s : Store) (m : Module) (f : Func) : Prop where
  types : ctx.types = m.types
  funcRef : ∀ x ref ty, ctx.func? x = some (ref, ty) → m.getFuncRef x = some ref
  func : ∀ x ref ty, ctx.func? x = some (ref, ty) → s.refFuncType? m ref = some ty
  globalRef : ∀ x v, ctx.global? x = some v → m.getGlobalRef x = some v.reference
  global : ∀ x v, ctx.global? x = some v → s.refGlobal? m v.reference = some v
  local_ : ∀ x l, ctx.local? x = some l → l.Fits f.parameterSize f.localSize
  returnTy : ctx.returnTy = f.returnTy

theorem Context.Describes.keeps {ctx : Context} (h : ctx.Describes s m f) (hs : s.Keeps s')
    (hm : m.Similar m') : ctx.Describes s' m' f where
  types := h.types.trans hm.types.symm
  funcRef x ref ty hx := (hm.getFuncRef x).trans (h.funcRef x ref ty hx)
  func x ref ty hx := hs.refFuncType? hm (h.func x ref ty hx)
  globalRef x v hx := (hm.getGlobalRef x).trans (h.globalRef x v hx)
  global x v hx := hs.refGlobal? hm (h.global x v hx)
  local_ := h.local_
  returnTy := h.returnTy

/-- A load has compiled a function with the declaration of `f` to the listing `L`. -/
def Func.Emitted (f : Func) (L : Listing) : Prop :=
  ∃ (env : LoadEnv) (g : Func) (u v : LoadState) (t : Asm),
    readExpr env g u = .ok (f.expr, f.stackUsage) v ∧
      SpaceWasm.Compiled u v g env f.expr f.stackUsage t ∧ g.decl = f.decl ∧ L = t.toListing

/-- The function `f` has been compiled to the listing `L`. -/
structure Func.CompiledTo (f : Func) (s : Store) (m : Module) (code : CodeBuilder) (ctx : Context)
    (L : Listing) : Prop where
  emitted : f.Emitted L
  describes : ctx.Describes s m f
  installed : ∀ c, code.Extends c → L.Installed c.pages
  heighted : L.Heighted ctx f.stackUsage
  expr : f.expr = addrOf L.base
  here_le : L.here ≤ code.size
  frame_le : 2 + f.localSize + f.stackUsage ≤ 0xFFFF

theorem Func.CompiledTo.keeps {code code' : CodeBuilder} {ctx : Context} {L : Listing}
    (h : f.CompiledTo s m code ctx L) (hs : s.Keeps s') (hm : m.Similar m')
    (hcode : code.Extends code') : f.CompiledTo s' m' code' ctx L where
  emitted := h.emitted
  describes := h.describes.keeps hs hm
  installed c hc := h.installed c (hcode.trans hc)
  heighted := h.heighted
  expr := h.expr
  here_le := Nat.le_trans h.here_le hcode.size
  frame_le := h.frame_le

/-- The code of a function: what it was compiled from and to. -/
def Func.Coded (f : Func) (s : Store) (m : Module) (code : CodeBuilder) : Prop :=
  ∃ ctx L, f.CompiledTo s m code ctx L

theorem Func.Coded.keeps {code code' : CodeBuilder} (h : f.Coded s m code) (hs : s.Keeps s')
    (hm : m.Similar m') (hcode : code.Extends code') : f.Coded s' m' code' := by
  obtain ⟨ctx, L, h⟩ := h
  exact ⟨ctx, L, h.keeps hs hm hcode⟩

/-- Every function of a module has its code. -/
structure Module.Coded (m : Module) (s : Store) (code : CodeBuilder) : Prop where
  declared : m.Declared
  coded : ∀ f ∈ m.functions, f.Coded s m code

def Store.Coded (s : Store) (code : CodeBuilder) : Prop := ∀ m ∈ s.modules, m.Coded s code

theorem Module.Coded.keeps {code code' : CodeBuilder} (h : m.Coded s code) (hs : s.Keeps s')
    (hm : m.Similar m') (hfunctions : m'.functions = m.functions) (hcode : code.Extends code') :
    m'.Coded s' code' :=
  ⟨h.declared.similar hm, fun f hf => (h.coded f (hfunctions ▸ hf)).keeps hs hm hcode⟩

/-! ### Function bodies -/

theorem localsSize_eq_some {groups : List (ℕ × ValType)} {total n : ℕ}
    (h : localsSize groups total = some n) : n = total + 4 * wordsOf (expandLocals groups) := by
  induction groups generalizing total with
  | nil =>
      cases h
      rfl
  | cons g groups ih =>
      obtain ⟨k, ty⟩ := g
      rw [localsSize] at h
      split at h
      · rw [ih h, expandLocals_cons, wordsOf_append, TextBuilder.wordsOf_replicate, ty.size_eq]
        rw [Nat.mul_left_comm, Nat.mul_add, Nat.add_assoc]
      · cases h

theorem returns_readLocals : Returns (fun g : ℕ × ValType => g.1 ≤ 0xFFFF) readLocals := by
  refine .bind fun n => .bind fun t => .cases (fun _ => .throw _) fun h => .pure ?_
  exact Nat.le_of_not_lt h

variable {env : LoadEnv} {u v : LoadState}

/-- The body of a function that is read has been compiled with the groups of local
variables in front of it. -/
theorem readFunctionBody_eq_ok (h : readFunctionBody env f u = .ok g v) :
    ∃ locals w, readVec (decoding readLocals) u = .ok locals w ∧
      (∀ l ∈ locals, l.1 ≤ 0xFFFF) ∧ u.Continues w ∧
      g = { f with
        locals := locals, localSize := wordsOf (expandLocals locals)
        expr := g.expr, stackUsage := g.stackUsage } ∧
      readExpr env { f with locals := locals, localSize := wordsOf (expandLocals locals) } w =
        .ok (g.expr, g.stackUsage) v := by
  obtain ⟨locals, w, hlocals, h⟩ := bind_eq_ok.1 h
  obtain ⟨hw, hle⟩ := Guarded.ok (quiet_readVec (quiet_decoding_returns decoder_readLocals
    returns_readLocals)) (.refl u) hlocals
  obtain ⟨total, w', htotal, h⟩ := bind_eq_ok.1 h
  obtain ⟨hsize, rfl⟩ := okOr_eq_ok.1 htotal
  have hwords : total / 4 = wordsOf (expandLocals locals) := by
    rw [localsSize_eq_some hsize, Nat.zero_add, Nat.mul_div_cancel_left _ (by decide)]
  simp only [hwords] at h
  split at h
  · cases h
  · obtain ⟨⟨expr, usage⟩, w', hexpr, h⟩ := bind_eq_ok.1 h
    obtain ⟨rfl, rfl⟩ := pure_eq_ok.1 h
    exact ⟨locals, w, hlocals, hle, hw, rfl, hexpr⟩

/-- What a function body may refer to is described by its context. -/
theorem Job.describes (job : Job) (hf : job.func.Declared job.module.types ty)
    (hlocals : ∀ l ∈ job.func.locals, l.1 ≤ 0xFFFF)
    (hsize : job.func.localSize = wordsOf (expandLocals job.func.locals)) :
    job.context.Describes job.store job.module job.func where
  types := rfl
  funcRef x ref ty hx := by
    obtain ⟨r, hr, hx⟩ := Option.bind_eq_some_iff.1 hx
    obtain ⟨ty', hty, hx⟩ := Option.bind_eq_some_iff.1 hx
    cases hx
    exact hr
  func x ref ty hx := by
    obtain ⟨r, -, hx⟩ := Option.bind_eq_some_iff.1 hx
    obtain ⟨ty', hty, hx⟩ := Option.bind_eq_some_iff.1 hx
    cases hx
    exact hty
  globalRef x v hx := by
    obtain ⟨r, hr, hx⟩ := Option.bind_eq_some_iff.1 hx
    rw [Store.refGlobal?_reference hx]
    exact hr
  global x v hx := by
    obtain ⟨r, -, hx⟩ := Option.bind_eq_some_iff.1 hx
    rw [Store.refGlobal?_reference hx]
    exact hx
  local_ x l hx := by
    have hx : localOf job.module job.func x = some l := hx
    unfold localOf at hx
    split at hx
    · cases hx
    · rw [hf.type, Option.bind_eq_bind, Option.bind_some] at hx
      rw [hsize]
      split at hx
      · next l' hfind =>
        cases hx
        exact TextBuilder.findVariable_fits hf.parameterSize
          (hf.parameterSize ▸ hf.parameterSize_le)
          hlocals hfind
      · cases hx
  returnTy := rfl

/-- The function after its body has been read. -/
theorem readFunctionBody_coded (hf : f.Declared u.module.types ty)
    (h : readFunctionBody env f u = .ok g v) (hframe : 2 + g.localSize + g.stackUsage ≤ 0xFFFF) :
    g.Coded v.store v.module v.code := by
  obtain ⟨locals, w, -, hlocals, hw, hg, hexpr⟩ := readFunctionBody_eq_ok h
  obtain ⟨t, hcompiled, hlinked, hheighted⟩ := readExpr_heighted hexpr
  obtain ⟨hentry, hhere⟩ := hcompiled.base
  have hdescribes := Job.describes (w.job { f with
    locals := locals, localSize := wordsOf (expandLocals locals) })
    (by rw [← hw.module] at hf; exact hf.congr rfl) hlocals rfl
  rw [hg] at hframe ⊢
  refine ⟨_, t.toListing, ⟨env, _, w, v, t, hexpr, hcompiled, rfl, rfl⟩, ?_, fun c hc =>
    hcompiled.installed hlinked.1 hc, hheighted, hentry, hhere ▸ Nat.le_refl _, hframe⟩
  rw [hcompiled.store, hcompiled.module]
  exact ⟨hdescribes.types, hdescribes.funcRef, hdescribes.func, hdescribes.globalRef,
    hdescribes.global, hdescribes.local_, hdescribes.returnTy⟩

/-- A section that sets none of what code depends on. -/
theorem LoadState.Within.similar {kind : SectionKind} (h : u.Within .all kind v)
    (htype : kind ≠ .type) (himport : kind ≠ .import_) (hfunction : kind ≠ .function)
    (hglobal : kind ≠ .global) : u.module.Similar v.module :=
  ⟨h.module.types htype, h.module.imports himport, h.module.decls hfunction,
    congrArg (List.map Global.type) (h.module.globals hglobal)⟩

/-- The body of the function `i` that is read: the function is set to what has become of it. -/
theorem readFunctionCode_eq_ok {i : ℕ} (hi : i < u.module.functions.length)
    (h : readFunctionCode env i u = .ok () v) :
    ∃ size w f x g y, decoding readU32 u = .ok size w ∧ w.module.functions[i]? = some f ∧
      setFunction i { f with locals := [], expr := 0 } w = .ok () x ∧
      readFunctionBody env f (x.enter size.toNat) = .ok g y ∧
      2 + g.localSize + g.stackUsage ≤ 0xFFFF ∧ v.store = y.store ∧ v.code = y.code ∧
      v.module = { y.module with functions := y.module.functions.set i g } := by
  obtain ⟨size, w, hsize, h⟩ := bind_eq_ok.1 h
  have hw := (Guarded.ok (quiet_decoding decoder_readU32) (.refl u) hsize).1
  obtain ⟨start, w', hstart, h⟩ := bind_eq_ok.1 h
  cases hstart
  obtain ⟨f, hf⟩ : ∃ f, w.module.functions[i]? = some f :=
    ⟨_, List.getElem?_eq_getElem (hw.module ▸ hi)⟩
  rw [bind_of_ok (get_apply w), hf, unwrap_some, pure_bind] at h
  obtain ⟨_, x, hset, h⟩ := bind_eq_ok.1 h
  obtain ⟨g, w₂, hlimited, h⟩ := bind_eq_ok.1 h
  obtain ⟨-, y, hbody, rfl⟩ := withLimit_eq_ok hlimited
  split at h
  · cases h
  · next hframe =>
    obtain ⟨_, w₄, hset', h⟩ := bind_eq_ok.1 h
    cases hset'
    obtain ⟨stop, w₅, hstop, h⟩ := bind_eq_ok.1 h
    cases hstop
    split at h
    · cases h
    · obtain ⟨-, rfl⟩ := pure_eq_ok.1 h
      exact ⟨size, w, f, x, g, y, hsize, hf, hset, hbody, Nat.le_of_not_lt hframe, rfl, rfl, rfl⟩

/-- What the code section does to the function with the index `i`. -/
theorem readFunctionCode_coded {i : ℕ} (hm : u.module.Declared)
    (hi : i < u.module.functions.length) (h : readFunctionCode env i u = .ok () v) :
    (∃ g, v.module.functions = u.module.functions.set i g ∧ g.Coded v.store v.module v.code) ∧
      u.Within .all .code v := by
  have hwithin := (Guarded.ok (readFunctionCode_frame (W := .all) env hi) (.refl u) h).1
  refine ⟨?_, hwithin⟩
  obtain ⟨size, w, f, x, g, y, hsize, hf, hset, hbody, hframe, hstore, hcode, hv⟩ :=
    readFunctionCode_eq_ok hi h
  have hw := (Guarded.ok (quiet_decoding decoder_readU32) (.refl u) hsize).1
  rw [hw.module] at hf
  obtain ⟨ty, hty⟩ := hm _ (List.mem_of_getElem? hf)
  have hx : x.module = { u.module with
      functions := u.module.functions.set i { f with locals := [], expr := 0 } } := by
    cases hset
    exact congrArg (fun m : Module => { m with
      functions := m.functions.set i { f with locals := [], expr := 0 } }) hw.module
  have htypes : (x.enter size.toNat).module.types = u.module.types := by
    rw [show (x.enter size.toNat).module = x.module from rfl, hx]
  have hcoded := readFunctionBody_coded (htypes.symm ▸ hty) hbody hframe
  obtain ⟨hquiet, hdecl⟩ := Guarded.ok (quiet_functionBody env _) (.refl _) hbody
  have hmodule := hquiet.module.trans hx
  rw [hstore, hcode, hv]
  refine ⟨g, ?_, hcoded.keeps (.refl _) ⟨rfl, rfl, ?_, rfl⟩ (.refl _)⟩
  · simp only [hmodule, List.set_set]
  · simp only [hmodule, List.map_set, hdecl, List.set_set]
    rfl

/-- The code section compiles one function after the other. -/
theorem readFunctionCodes_coded {n i : ℕ} (hm : u.module.Declared)
    (hi : i + n ≤ u.module.functions.length)
    (hdone : ∀ j < i, ∀ f, u.module.functions[j]? = some f → f.Coded u.store u.module u.code)
    (h : readFunctionCodes env n i u = .ok () v) :
    ∀ j < i + n, ∀ f, v.module.functions[j]? = some f → f.Coded v.store v.module v.code := by
  induction n generalizing i u with
  | zero =>
      cases h
      exact hdone
  | succ n ih =>
      obtain ⟨_, w, hcode, h⟩ := bind_eq_ok.1 h
      obtain ⟨⟨g, hset, hg⟩, hwithin⟩ := readFunctionCode_coded hm (by omega) hcode
      have hsimilar : u.module.Similar w.module :=
        hwithin.similar nofun nofun nofun nofun
      have hlength : w.module.functions.length = u.module.functions.length := by
        rw [hset, List.length_set]
      have hrest := ih (hm.similar hsimilar) (i := i + 1) (by omega) (fun j hj f hf => ?_) h
      · intro j hj
        exact hrest j (by omega)
      · rw [hset] at hf
        by_cases hij : i = j
        · subst hij
          rw [List.getElem?_set_self (by omega)] at hf
          cases hf
          exact hg
        · rw [List.getElem?_set_ne hij] at hf
          exact (hdone j (by omega) f hf).keeps hwithin.store.keeps hsimilar hwithin.code

theorem readCodeSection_coded (hm : u.module.Declared) (h : readCodeSection env u = .ok () v) :
    v.module.Coded v.store v.code := by
  obtain ⟨n, w, hn, h⟩ := bind_eq_ok.1 h
  have hw := (Guarded.ok (quiet_decoding decoder_readU32) (.refl u) hn).1
  rw [bind_of_ok (get_apply w), hw.module] at h
  split at h
  · cases h
  · next hcount =>
    have hcount := Decidable.not_not.1 hcount
    rw [← hw.module] at hm hcount
    have hframe := (Guarded.ok (readFunctionCodes_frame (W := .all) env n.toNat 0
      (by omega)) (.refl w) h).1
    refine ⟨hm.similar (hframe.similar nofun nofun nofun nofun), fun f hf => ?_⟩
    obtain ⟨j, hj, hf⟩ := List.getElem_of_mem hf
    have hlength := congrArg List.length (hframe.module.decls nofun)
    rw [List.length_map, List.length_map] at hlength
    exact readFunctionCodes_coded hm (by omega) (fun _ hj => absurd hj (Nat.not_lt_zero _)) h j
      (by omega) f (List.getElem?_eq_some_iff.2 ⟨hj, hf⟩)

theorem readFunctionSection_declared (h : readFunctionSection u = .ok () v) :
    v.module.Declared := by
  have hquiet : Quiet u readFuncDecl fun f => ∃ ty, f.Declared u.module.types ty := by
    refine .bind (quiet_decoding decoder_idx) fun tyIdx _ => .get_bind fun s _ hmodule => ?_
    rw [hmodule]
    refine .bind (.okOr _ (P := fun ty => u.module.types[tyIdx]? = some ty) fun _ h => h)
      fun ty hty => ?_
    refine .ite (fun _ => .throw _) fun hreturns => .ite (fun _ => .throw _) fun hsize => .pure ?_
    refine ⟨ty, hty, ?_, Nat.le_of_not_lt hsize, rfl, Nat.le_of_not_lt hreturns⟩
    rw [sum_size_eq, Nat.mul_div_cancel_left _ (by decide)]
  obtain ⟨functions, w, hread, h⟩ := bind_eq_ok.1 h
  obtain ⟨hw, hfunctions⟩ := Guarded.ok (quiet_readVec hquiet) (.refl u) hread
  split at h
  · cases h
  · cases h
    intro f hf
    simp only [hw.module]
    exact hfunctions f hf

/-! ### Loads -/

/-- A load in front of a section: functions are declared with types, and they have code
if the code section has been seen. -/
structure LoadState.Compiling (last : SectionKind) (seenCode : Bool) (s : LoadState) : Prop where
  declared : s.module.Declared
  fresh : last.toNat < SectionKind.function.toNat → s.module.functions = []
  order : seenCode = true → SectionKind.code.toNat ≤ last.toNat
  coded : seenCode = true → s.module.Coded s.store s.code

theorem LoadState.Compiling.continues {last : SectionKind} {seenCode : Bool}
    (hu : u.Compiling last seenCode) (h : u.Continues v) : v.Compiling last seenCode := by
  refine ⟨h.module ▸ hu.declared, h.module ▸ hu.fresh, hu.order, fun hseen => ?_⟩
  rw [h.store, h.module]
  exact (hu.coded hseen).keeps (.refl _) (.refl _) rfl h.code

theorem SectionKind.eq_data {kind : SectionKind}
    (h : SectionKind.code.toNat < kind.toNat) : kind = .data := by
  revert h
  cases kind <;> decide

/-- One section. -/
theorem LoadState.Compiling.section_ {last kind next : SectionKind} {seenCode : Bool}
    (hu : u.Compiling last seenCode) (horder : checkOrder last kind = .ok next)
    (h : readSectionBody env kind u = .ok () v) :
    v.Compiling next (seenCode || decide (kind = .code)) := by
  have hwithin := Guarded.ok (readSectionBody_frame (W := .all) env fun _ _ _ =>
    LoadState.sectionWrites_all env kind _) rfl h
  obtain ⟨size, w, x, hsize, -, hsection, rfl, -⟩ := readSectionBody_eq_ok h
  have hw := (Guarded.ok (quiet_decoding decoder_readU32) (.refl u) hsize).1
  have hmodule : (w.enter size.toNat).module = u.module := hw.module
  have horder := checkOrder_eq_ok.1 horder
  -- Types are read before there are functions.
  have htypes : kind = .type → u.module.functions = [] := by
    rintro rfl
    rcases horder with ⟨hc, -⟩ | ⟨-, hlt, -⟩
    · cases hc
    · exact hu.fresh (Nat.lt_trans hlt (by decide))
  have hdeclared : (w.leave x).module.Declared := by
    by_cases hfunction : kind = .function
    · subst hfunction
      exact readFunctionSection_declared (v := x) hsection
    · by_cases htype : kind = .type
      · have hnil := htypes htype
        subst htype
        rw [← hwithin.module.functions (by simp) (by simp)] at hnil
        intro f hf
        rw [hnil] at hf
        cases hf
      · intro f hf
        have hmem : f.decl ∈ u.module.functions.map Func.decl :=
          hwithin.module.decls hfunction ▸ List.mem_map_of_mem hf
        obtain ⟨g, hg, heq⟩ := List.mem_map.1 hmem
        obtain ⟨ty, hty⟩ := hu.declared g hg
        rw [hwithin.module.types htype]
        exact ⟨ty, hty.congr heq.symm⟩
  refine ⟨hdeclared, fun hnext => ?_, fun hseen => ?_, fun hseen => ?_⟩
  · rcases horder with ⟨rfl, rfl⟩ | ⟨-, hlt, rfl⟩
    · rw [hwithin.module.functions (by simp) (by simp), hu.fresh hnext]
    · rw [hwithin.module.functions (fun heq => by simp [heq] at hnext)
        (fun heq => by simp [heq, SectionKind.toNat] at hnext), hu.fresh (Nat.lt_trans hlt hnext)]
  · rw [Bool.or_eq_true, decide_eq_true_iff] at hseen
    rcases horder with ⟨rfl, rfl⟩ | ⟨-, hlt, rfl⟩
    · exact hu.order (hseen.resolve_right (by simp))
    · rcases hseen with hseen | rfl
      · exact Nat.le_trans (hu.order hseen) (Nat.le_of_lt hlt)
      · exact Nat.le_refl _
  · by_cases hcode : kind = .code
    · subst hcode
      exact readCodeSection_coded (v := x) (hmodule.symm ▸ hu.declared) hsection
    · rw [decide_eq_false hcode, Bool.or_false] at hseen
      -- Only custom sections and data come after the code.
      have hlate : kind = .custom ∨ kind = .data := by
        rcases horder with ⟨rfl, -⟩ | ⟨-, hlt, -⟩
        · exact .inl rfl
        · exact .inr (SectionKind.eq_data (Nat.lt_of_le_of_lt (hu.order hseen) hlt))
      have hne : ∀ k, k ≠ .custom → k ≠ .data → kind ≠ k := by
        rintro k hcustom hdata rfl
        exact hlate.elim hcustom hdata
      exact (hu.coded hseen).keeps hwithin.store.keeps
        (hwithin.similar (hne _ (by simp) (by simp)) (hne _ (by simp) (by simp))
          (hne _ (by simp) (by simp)) (hne _ (by simp) (by simp)))
        (hwithin.module.functions (hne _ (by simp) (by simp)) hcode) hwithin.code

theorem LoadState.Compiling.start (t : LoadTarget) (name : Name) (wasm : Reader) :
    (t.start name wasm).Compiling .custom false :=
  ⟨fun _ hf => absurd hf List.not_mem_nil, fun _ => rfl, nofun, nofun⟩

theorem Module.new_coded {name : Name} {wasm : Reader} {t t' : LoadTarget}
    (h : Module.new env name wasm t = .ok m t') : m.Coded t'.store t'.code := by
  obtain ⟨next, b, x, hx, rfl, rfl, hnone⟩ := Module.new_rule
    (I := LoadState.Compiling) (fun hu => hu.continues) (fun hu => hu.section_)
    (.start t name wasm) h
  cases b with
  | true => exact hx.coded rfl
  | false =>
      refine ⟨hx.declared, fun f hf => ?_⟩
      rw [hnone rfl] at hf
      cases hf

/-- A target in which every module has its code. -/
def LoadTarget.Coded (t : LoadTarget) : Prop := t.store.Coded t.code

theorem Store.Coded.keeps {code code' : CodeBuilder} (h : s.Coded code) (hs : s.Keeps s')
    (hmodules : ∀ m' ∈ s'.modules, ∃ m ∈ s.modules, m.Alike m') (hcode : code.Extends code') :
    s'.Coded code' := by
  intro m' hm'
  obtain ⟨m, hm, halike⟩ := hmodules m' hm'
  exact (h m hm).keeps hs halike.similar (by rw [halike.eq]) hcode

theorem Store.Coded.evolves {W : Footprint} {code code' : CodeBuilder} (h : s.Coded code)
    (hs : s.Evolves W s') (hcode : code.Extends code') : s'.Coded code' :=
  h.keeps hs.keeps (fun m hm => ⟨m, hs.modules ▸ hm, .refl m⟩) hcode

theorem Store.Coded.push {code : CodeBuilder} {r : ModuleRef} (h : s.Coded code)
    (hm : m.Coded s code) (hpush : s.pushModule m = .ok (r, s')) : s'.Coded code := by
  have hkeeps := Store.Keeps.push hpush
  obtain ⟨-, -, rfl⟩ := Store.pushModule_eq_ok.1 hpush
  intro m' hm'
  rcases List.mem_append.1 hm' with hm' | hm'
  · exact (h m' hm').keeps hkeeps (.refl m') rfl (.refl code)
  · rw [List.mem_singleton.1 hm']
    exact hm.keeps hkeeps (.refl m) rfl (.refl code)

theorem LoadTarget.Coded.step {t t' : LoadTarget} (h : t.Coded) (hstep : LoadStep t t') :
    t'.Coded := by
  cases hstep with
  | loaded env name wasm r hr =>
      have hrun := (loadModule_frame env name wasm t .all fun _ _ =>
        LoadState.loadWrites_all _ _ _).ok rfl hr
      obtain ⟨m, v, hnew, hv, -, hpush, hcode⟩ := hrun
      have hcoded := Store.Coded.push (h.evolves hv.store hv.code) (Module.new_coded hnew) hpush
      rwa [← hcode] at hcoded
  | failed env name wasm e hr =>
      have hrun := (loadModule_frame env name wasm t .all fun _ _ =>
        LoadState.loadWrites_all _ _ _).error rfl hr
      exact h.evolves hrun.store hrun.code

end SpaceWasm
