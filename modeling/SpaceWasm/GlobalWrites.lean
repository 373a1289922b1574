import SpaceWasm.Initialisers
import SpaceWasm.Lookups

/-!
# Writes to globals

A session loads modules and runs their code. The import declarations of the modules that it
has loaded say which global each item of an index space denotes. A global holds a value of
its type; it changes when the embedder sets it, or when code is about to execute a
`global.set` of an item that denotes it, and it is mutable then.
-/

namespace SpaceWasm

open Fallible Relation

variable {η : Type} {floats : FloatOps} {host : HostEnv η} {s t : Store} {m m' : Module}

/-! ### Names in a store in which code has run -/

/-- Searches in lists that are related element by element. -/
theorem findFirst_rel {α α' β β' : Type} {R : α → α' → Prop} {S : β → β' → Prop}
    {f : ℕ → α → Option β} {f' : ℕ → α' → Option β'}
    (hf : ∀ n a a', R a a' → Option.Rel S (f n a) (f' n a')) {as : List α} {as' : List α'}
    (h : List.Forall₂ R as as') (n : ℕ) : Option.Rel S (findFirst f as n) (findFirst f' as' n) := by
  induction h generalizing n with
  | nil => exact .none
  | @cons a a' as as' ha _ ih =>
      have hrel := hf n a a' ha
      rw [findFirst, findFirst]
      cases hb : f n a with
      | none =>
          rw [hb] at hrel
          cases hb' : f' n a' with
          | none => exact ih (n + 1)
          | some b' =>
              rw [hb'] at hrel
              cases hrel
      | some b =>
          rw [hb] at hrel
          cases hb' : f' n a' with
          | none =>
              rw [hb'] at hrel
              cases hrel
          | some b' =>
              rw [hb'] at hrel
              exact hrel

theorem Module.Alike.exportEntry (h : m.Alike m') (k : ℕ) (item : ExportDesc) :
    m'.exportEntry k item = m.exportEntry k item := by
  have htable : m'.table = m.table := by rw [h.eq]
  have hmemory : m'.memory = m.memory := by rw [h.eq]
  cases item <;> simp only [Module.exportEntry, h.similar.getFuncRef, h.similar.getGlobalRef,
    htable, hmemory]

namespace Store.Runs

variable (h : s.Runs t)

include h

theorem modules_alike : List.Forall₂ Module.Alike s.modules t.modules := by
  refine List.forall₂_iff_get.2 ⟨h.modules.symm, fun i hi hi' => ?_⟩
  obtain ⟨m', hm', halike⟩ := h.module i _ (List.getElem?_eq_getElem hi)
  rw [List.getElem?_eq_getElem hi', Option.some.injEq] at hm'
  subst hm'
  exact halike

theorem hostLookup (moduleName name : Name) (desc : ImportDesc) :
    t.hostLookup moduleName name desc = s.hostLookup moduleName name desc := by
  cases desc <;> simp only [Store.hostLookup, Store.findHost, h.hostModules]

/-- An export is found in the module in which it was found. -/
theorem findExport (moduleName name : Name) :
    Option.Rel (fun p p' : ℕ × Module × ExportDesc =>
      p'.1 = p.1 ∧ p.2.1.Alike p'.2.1 ∧ p'.2.2 = p.2.2)
        (s.findExport moduleName name) (t.findExport moduleName name) := by
  refine findFirst_rel (fun n m m' hm => ?_) h.modules_alike 0
  have hname : m'.name = m.name := by rw [hm.eq]
  have hexports : m'.exports = m.exports := by rw [hm.eq]
  rw [hname, hexports]
  by_cases hn : m.name = moduleName
  · rw [if_pos hn, if_pos hn]
    refine findFirst_rel (R := (· = ·)) (fun _ e e' he => ?_) (List.forall₂_refl _) 0
    subst he
    by_cases he : e.name = name
    · rw [if_pos he, if_pos he]
      exact .some ⟨rfl, hm, rfl⟩
    · rw [if_neg he, if_neg he]
      exact .none
  · rw [if_neg hn, if_neg hn]
    exact .none

theorem linked? (d : ImportDecl) : t.linked? d = s.linked? d := by
  rw [Store.linked?, Store.linked?, h.hostLookup]
  cases s.hostLookup d.module d.name d.desc with
  | some p => rfl
  | none =>
      have hrel := h.findExport d.module d.name
      cases hs : s.findExport d.module d.name with
      | none =>
          rw [hs] at hrel
          cases ht : t.findExport d.module d.name with
          | none => rfl
          | some p' =>
              rw [ht] at hrel
              cases hrel
      | some p =>
          rw [hs] at hrel
          cases ht : t.findExport d.module d.name with
          | none =>
              rw [ht] at hrel
              cases hrel
          | some p' =>
              rw [ht] at hrel
              obtain ⟨k, em, item⟩ := p
              obtain ⟨k', em', item'⟩ := p'
              cases hrel with
              | some hp =>
                  obtain ⟨rfl, halike, rfl⟩ := hp
                  exact halike.exportEntry _ _

theorem module_of {k : ℕ} {m' : Module} (hm' : t.modules[k]? = some m') :
    ∃ m, s.modules[k]? = some m ∧ m.Alike m' := by
  have hlt := h.modules ▸ (List.getElem?_eq_some_iff.1 hm').1
  obtain ⟨m'', hm'', halike⟩ := h.module k _ (List.getElem?_eq_getElem hlt)
  obtain rfl := Option.some.inj (hm'.symm.trans hm'')
  exact ⟨_, List.getElem?_eq_getElem hlt, halike⟩

/-- The declarations stay those of the modules. -/
theorem faithful {decls : List (List ImportDecl)} (hs : s.Faithful decls) : t.Faithful decls := by
  refine ⟨?_, ?_, ?_, fun k em' ds hem' hds => ?_, fun em' hem' => ?_,
    fun k ds d p hds hd hhost hexport => ?_⟩
  · rw [h.modules, h.maxModules]
    exact hs.modules_le
  · rw [h.maxModules]
    exact hs.maxModules_le
  · rw [h.modules]
    exact hs.length
  · obtain ⟨em, hem, halike⟩ := h.module_of hem'
    have himports : em'.imports = em.imports := by rw [halike.eq]
    rw [Module.Declares, himports]
    simp only [h.linked?]
    exact hs.declares k em ds hem hds
  · obtain ⟨k, hk⟩ := List.mem_iff_getElem?.1 hem'
    obtain ⟨em, hem, halike⟩ := h.module_of hk
    have hresolved := hs.resolved em (List.mem_of_getElem? hem)
    rw [halike.eq]
    exact ⟨hresolved.table, hresolved.memory, hresolved.ownTable, hresolved.ownMemory⟩
  · rw [h.hostLookup] at hhost
    have hrel := h.findExport d.module d.name
    rw [hexport] at hrel
    cases hfound : s.findExport d.module d.name with
    | none =>
        rw [hfound] at hrel
        cases hrel
    | some q =>
        rw [hfound] at hrel
        cases hrel with
        | some hp =>
            rw [hp.1]
            exact hs.earlier k ds d q hds hd hhost hfound

end Store.Runs

/-! ### Values of globals -/

/-- The value is one of the declared type. -/
def Global.Typed (g : Global) : Prop :=
  ∃ v : Value, v.type = g.type.ty ∧ g.value = RawValue.ofValue v

/-- Every global holds a value of its type. -/
def Store.GlobalsTyped (s : Store) : Prop := ∀ q x g, s.global? q x = some g → g.Typed

theorem Store.global?_setGlobal_self {q : ModuleRef} {x : U16} (v : RawValue) :
    (s.setGlobal q x v).global? q x = (s.global? q x).map fun g => { g with value := v } := by
  rw [Store.global?, Store.global?, Store.module?, Store.module?, Store.setGlobal]
  dsimp only
  rw [List.getElem?_modify]
  cases s.modules[q.toNat]? with
  | none => rfl
  | some m => simp

theorem Store.modules_writeBytes (s : Store) (ws : List ByteWrite) :
    (s.writeBytes ws).modules = s.modules := by
  induction ws generalizing s with
  | nil => rfl
  | cons w ws ih =>
      refine (ih _).trans ?_
      unfold Store.writeByte
      split <;> rfl

theorem Store.global?_congr (h : t.modules = s.modules) (q : ModuleRef) (x : U16) :
    t.global? q x = s.global? q x := by
  rw [Store.global?, Store.global?, Store.module?, Store.module?, h]

namespace Store.GlobalsTyped

theorem congr (hs : s.GlobalsTyped) (h : t.modules = s.modules) : t.GlobalsTyped :=
  fun q x g hg => hs q x g (Store.global?_congr h q x ▸ hg)

theorem setGlobal (hs : s.GlobalsTyped) {q : ModuleRef} {x : U16} {g : Global} {v : Value}
    (hg : s.global? q x = some g) (hv : v.type = g.type.ty) :
    (s.setGlobal q x (RawValue.ofValue v)).GlobalsTyped := by
  intro q' x' g' hg'
  by_cases hsame : q' = q ∧ x' = x
  · obtain ⟨rfl, rfl⟩ := hsame
    rw [Store.global?_setGlobal_self, hg, Option.map_some, Option.some.injEq] at hg'
    subst hg'
    exact ⟨v, hv, rfl⟩
  · rw [Store.global?_setGlobal_ne _ hsame] at hg'
    exact hs q' x' g' hg'

end Store.GlobalsTyped

/-- An instruction sets a global to a value of its type. -/
theorem IrInstr.Does.globalsTyped {env : ExecEnv η} {c : ModuleContext} {i : IrInstr}
    (h : i.Does env c t) (hc : c.store.GlobalsTyped) : t.GlobalsTyped := by
  cases h with
  | nothing => exact hc
  | globalSet hg hv => exact hc.setGlobal hg hv
  | globalSetExtern hg hv => exact hc.setGlobal hg hv
  | store | memoryGrow => exact hc.congr rfl
  | callHost => exact hc.congr (Store.modules_writeBytes _ _)

/-- Only the instruction that sets a global changes it. -/
theorem IrInstr.Does.global?_eq {env : ExecEnv η} {c : ModuleContext} {i : IrInstr}
    (h : i.Does env c t) {q : ModuleRef} {x : U16} (hown : ¬(i = .globalSet x ∧ q = c.module))
    (houtside : i ≠ .globalSetExtern q x) : t.global? q x = c.store.global? q x := by
  cases h with
  | nothing => rfl
  | globalSet =>
      refine Store.global?_setGlobal_ne _ ?_
      rintro ⟨rfl, rfl⟩
      exact hown ⟨rfl, rfl⟩
  | globalSetExtern =>
      refine Store.global?_setGlobal_ne _ ?_
      rintro ⟨rfl, rfl⟩
      exact houtside rfl
  | store | memoryGrow => rfl
  | callHost => exact Store.global?_congr (Store.modules_writeBytes _ _) q x

variable {e e' u : Engine η} {code : CodeBuilder}

theorem runRound_globalsTyped {env : ExecEnv η} {r : RoundResult}
    (h : runRound env e = some (r, e')) (he : e.store.GlobalsTyped) : e'.store.GlobalsTyped := by
  by_cases hpc : e.pc = JumpTarget.sentinel
  · rw [Engine.runRound_idle hpc] at h
    cases h
    exact he
  · obtain ⟨i, pc, -, hdoes⟩ := runRound_does hpc h
    exact hdoes.globalsTyped he

theorem run_globalsTyped {env : ExecEnv η} {n : ℕ} {r : InterpreterResult}
    (h : run env n e = some (r, e')) (he : e.store.GlobalsTyped) : e'.store.GlobalsTyped := by
  refine boundedRun_ends (I := fun u => u.store.GlobalsTyped)
    (Q := fun _ u => u.store.GlobalsTyped) (fun _ hu => hu) ?_ he h
  intro u r u' hu hround
  have hu' := runRound_globalsTyped hround hu
  cases r with
  | none => exact hu'
  | some _ => exact hu'

/-! ### Code that sets a global -/

/-- The engine is about to execute what a `global.set k` is compiled to, and the item `k` of the
global index space of its module denotes the global `x` of the module `q`, itself or through
re-exports. -/
def Engine.Sets (e : Engine η) (code : CodeBuilder) (decls : List (List ImportDecl))
    (q : ModuleRef) (x : U16) : Prop :=
  ∃ (m : Module) (k : Idx) (ref : Ref) (pc : JumpTarget), e.store.module? e.module = some m ∧
    m.getGlobalRef k = some ref ∧
    IrReader.decode code.pages e.pc = .ok (Asm.globalSetInstr ref) pc ∧
    Denotes e.store decls e.module.toNat (.global k) (.own q.toNat (.global x.toNat))

/-- Code sets a global through an item that denotes it, and only if it is mutable. -/
theorem Engine.Safe.round_sets {decls : List (List ImportDecl)} (h : e.Safe host code)
    (hfaithful : e.store.Faithful decls) {r : RoundResult}
    (hround : runRound ⟨code.pages, floats, host⟩ e = some (r, e')) {q : ModuleRef} {x : U16}
    (hne : e'.store.global? q x ≠ e.store.global? q x) :
    e.Sets code decls q x ∧ ∃ g, e.store.global? q x = some g ∧ g.type.mutable = true := by
  by_cases hpc : e.pc = JumpTarget.sentinel
  · rw [Engine.runRound_idle hpc] at hround
    cases hround
    exact absurd rfl hne
  · obtain ⟨a, rest, n, hrun⟩ := h.sited.running hpc
    obtain ⟨i, pc, hdecode, hdoes⟩ := runRound_does hpc hround
    have hset : ∃ ref, i = Asm.globalSetInstr ref ∧
        (ref = .module x ∧ q = e.module ∨ ref = .extern_ q x) := by
      by_cases hown : i = .globalSet x ∧ q = e.module
      · exact ⟨.module x, hown.1, .inl ⟨rfl, hown.2⟩⟩
      · by_cases houtside : i = .globalSetExtern q x
        · exact ⟨.extern_ q x, houtside, .inr rfl⟩
        · exact absurd (hdoes.global?_eq hown houtside) hne
    obtain ⟨ref, rfl, href⟩ := hset
    obtain ⟨m, k, v, hmodule, hk, hv, hmut⟩ := hrun.sets hdecode
    obtain ⟨g, hg, htype⟩ := Store.refGlobal?_global hmodule hv href
    have hentry : ref.globalEntry e.module.toNat = .global q x := by
      rcases href with ⟨rfl, rfl⟩ | rfl
      · rw [Ref.globalEntry, BitVec.ofNat_toNat, BitVec.setWidth_eq]
      · rfl
    have hitem : m.exportEntry e.module.toNat (.global k) = some (.global q x) :=
      Module.exportEntry_global.2 ⟨ref, hk, hentry⟩
    obtain ⟨entity, hdenotes, heq, hexists⟩ := hfaithful.denotes hmodule hitem
    have hentity := Entity.entity_entry h.bounded.linked hexists
    rw [heq] at hentity
    subst hentity
    exact ⟨⟨m, k, ref, pc, hmodule, hk, hdecode, hdenotes⟩, g, hg, htype.trans hmut⟩

/-- The rounds of a run that lead from one engine to another. -/
def Engine.Rounds (env : ExecEnv η) : Engine η → Engine η → Prop :=
  ReflTransGen fun u u' => u.hostPauseResult = none ∧ runRound env u = some (none, u')

theorem Engine.Rounds.runs {env : ExecEnv η} (h : Engine.Rounds env e u) :
    e.store.Runs u.store := by
  induction h with
  | refl => exact .refl _
  | tail _ hround ih => exact ih.trans (runRound_continues hround.2).runs

theorem Engine.Safe.rounds (h : e.Safe host code)
    (hrounds : Engine.Rounds ⟨code.pages, floats, host⟩ e u) : u.Safe host code := by
  induction hrounds with
  | refl => exact h
  | tail _ hround ih => exact (ih.round hround.1 hround.2).1

/-- A run changes a global in one of its rounds. -/
theorem run_changes {env : ExecEnv η} (hpause : e.hostPauseResult = none)
    (hfree : ∀ {u u'}, Engine.Rounds env e u → u.hostPauseResult = none →
      runRound env u = some (none, u') → u'.hostPauseResult = none) {n : ℕ}
    {r : InterpreterResult} (hrun : run env n e = some (r, e')) {q : ModuleRef} {x : U16}
    (hne : e'.store.global? q x ≠ e.store.global? q x) :
    ∃ u r u', Engine.Rounds env e u ∧ runRound env u = some (r, u') ∧
      u'.store.global? q x ≠ u.store.global? q x := by
  by_contra hnone
  -- otherwise every round leaves the global as it is
  refine hne (boundedRun_ends (I := fun u => Engine.Rounds env e u ∧ u.hostPauseResult = none ∧
      u.store.global? q x = e.store.global? q x)
    (Q := fun _ u => u.store.global? q x = e.store.global? q x) (fun u hu => hu.2.2) ?_
    ⟨.refl, hpause, rfl⟩ hrun)
  rintro u r u' ⟨hrounds, hu, hsame⟩ hround
  have hstays : u'.store.global? q x = u.store.global? q x := by
    by_contra hchanged
    exact hnone ⟨u, r, u', hrounds, hround, hchanged⟩
  cases r with
  | none => exact ⟨hrounds.tail ⟨hu, hround⟩, hfree hrounds hu hround, hstays.trans hsame⟩
  | some r => exact hstays.trans hsame

/-! ### Calls -/

namespace Capi

variable {s t : Session η} {decls : List (List ImportDecl)}

/-- A session of calls that abide by the protocol, with the import declarations of the modules
that they have loaded. -/
inductive History (floats : FloatOps) (host : HostEnv η) (start : Session η) :
    Session η → List (List ImportDecl) → Prop where
  | start : History floats host start start []
  | loaded {s t : Session η} {decls : List (List ImportDecl)} {ds : List ImportDecl}
      {env : LoadEnv} {name : Name} {wasm : Reader} {r : U32} :
      History floats host start s decls →
      Call.perform floats host s (.loadModule env name wasm) = some (.loaded (.ok r), t) →
      DeclaredBy (s.engine.loadEnv env) name wasm s.target ds →
      History floats host start t (decls ++ [ds])
  | other {s t : Session η} {decls : List (List ImportDecl)} {c : Call η} {a : Answer} :
      History floats host start s decls → c.Allowed s → c.perform floats host s = some (a, t) →
      (∀ r, a ≠ .loaded (.ok r)) → History floats host start t decls

/-- A load that the embedder is told to have succeeded. -/
theorem load_eq_ok {env : LoadEnv} {name : Name} {wasm : Reader} {r : U32}
    (h : Call.perform floats host s (.loadModule env name wasm) = some (.loaded (.ok r), t)) :
    ∃ q u, SpaceWasm.loadModule (s.engine.loadEnv env) name wasm s.target = .ok q u ∧
      r = q.setWidth 32 ∧ t = s.withTarget u := by
  cases Call.performs h with
  | loaded _ hload => exact ⟨_, _, hload, rfl, rfl⟩

/-- A module that is loaded, with its declarations. -/
theorem load_faithful {env : LoadEnv} {name : Name} {wasm : Reader} {q : ModuleRef}
    {u v : LoadTarget} {ds : List ImportDecl} (hs : v.store.Faithful decls)
    (h : SpaceWasm.loadModule env name wasm v = .ok q u)
    (hdeclared : DeclaredBy env name wasm v ds) : u.store.Faithful (decls ++ [ds]) := by
  obtain ⟨m, w, hnew, hgrows, -, hpush, -⟩ := (loadModule_frame env name wasm v .all fun _ _ =>
    LoadState.loadWrites_all _ _ _).ok rfl h
  obtain ⟨ds', hdeclared', hdeclares, hresolved⟩ := Module.new_declares hs.le hnew
  obtain rfl := hdeclared.unique hdeclared'
  exact (hs.evolves hgrows.store).push hdeclares hresolved hpush

/-- A call that loads no module keeps the declarations. -/
theorem Call.faithful {c : Call η} {a : Answer} (h : c.perform floats host s = some (a, t))
    (ha : ∀ r, a ≠ .loaded (.ok r)) (hs : s.engine.store.Faithful decls) :
    t.engine.store.Faithful decls := by
  by_cases hc : c.Loads
  · cases Call.performs h with
    | loadRefused => exact hs
    | loaded => exact absurd rfl (ha _)
    | loadFailed _ hload =>
        exact hs.evolves ((loadModule_frame _ _ _ _ .all fun _ _ =>
          LoadState.loadWrites_all _ _ _).error rfl hload).store
    | resumed hgives | resumeRejected hgives => exact absurd hc hgives.not_loads
    | _ => exact hc.elim
  · exact (Call.runs h hc).faithful hs

namespace History

variable {start : Session η}

theorem faithful (h : History floats host start s decls) (hs : start.engine.store.Faithful []) :
    s.engine.store.Faithful decls := by
  induction h with
  | start => exact hs
  | loaded _ hperform hdeclared ih =>
      obtain ⟨q, u, hload, -, rfl⟩ := load_eq_ok hperform
      exact load_faithful ih hload hdeclared
  | other _ _ hperform ha ih => exact Call.faithful hperform ha ih

theorem safe (h : History floats host start s decls) (hs : start.Safe host) : s.Safe host := by
  induction h with
  | start => exact hs
  | loaded _ hload _ ih => exact Call.safe ih (by trivial) hload
  | other _ hc hperform _ ih => exact Call.safe ih hc hperform

end History

/-! ### Values -/

/-- The globals of a module that is loaded hold values of their types. -/
theorem load_globalsTyped {v u : LoadTarget} (h : LoadStep v u) (ht : v.store.GlobalsTyped) :
    u.store.GlobalsTyped := by
  have hgrown : ∀ {w : LoadTarget}, v.Grows .all w → w.store.GlobalsTyped := fun hw =>
    ht.congr hw.store.modules
  cases h with
  | failed env name wasm e hr =>
      exact hgrown ((loadModule_frame env name wasm v .all fun _ _ =>
        LoadState.loadWrites_all _ _ _).error rfl hr)
  | loaded env name wasm r hr =>
      obtain ⟨m, w, hnew, hgrows, -, hpush, -⟩ := (loadModule_frame env name wasm v .all fun _ _ =>
        LoadState.loadWrites_all _ _ _).ok rfl hr
      obtain ⟨inits, -, hall⟩ := Module.new_globals hnew
      obtain ⟨-, -, hstore⟩ := Store.pushModule_eq_ok.1 hpush
      intro q x g hg
      obtain ⟨m', hm', hx⟩ := Option.bind_eq_some_iff.1 hg
      rw [hstore, Store.module?] at hm'
      by_cases hq : q.toNat < w.store.modules.length
      · rw [List.getElem?_append_left hq] at hm'
        refine hgrown hgrows q x g ?_
        rw [Store.global?, Store.module?, hm']
        exact hx
      · rw [List.getElem?_append_right (Nat.le_of_not_lt hq)] at hm'
        obtain rfl := List.mem_singleton.1 (List.mem_of_getElem? hm')
        obtain ⟨p, -, htype, rfl⟩ := forall₂_getElem? hall.flip hx
        exact ⟨p.2, htype, rfl⟩

theorem Call.globalsTyped (hs : s.Safe host) {c : Call η} {a : Answer}
    (h : c.perform floats host s = some (a, t)) (ht : s.engine.store.GlobalsTyped) :
    t.engine.store.GlobalsTyped := by
  cases Call.performs h with
  | loadRefused | setGlobalRefused | invokeRefused | runIdle | badValue | reset | asked | outside =>
      exact ht
  | loaded _ hload => exact load_globalsTyped (v := s.target) (.loaded _ _ _ _ hload) ht
  | loadFailed _ hload => exact load_globalsTyped (v := s.target) (.failed _ _ _ _ hload) ht
  | setGlobal hcheck =>
      obtain ⟨-, -, g, hg, htype, -⟩ := checkGlobal_eq_ok hs.bounded.linked hcheck
      exact ht.setGlobal hg htype
  | @invoked _ _ _ f vs e _ hinvoke =>
      have hstore : e.store = s.engine.store := ((invoke_guarded f vs s.engine).ok rfl hinvoke).2
      exact hstore ▸ ht
  | @invokeRejected _ _ _ f vs err e _ hinvoke =>
      obtain ⟨hbeside, -⟩ := (invoke_guarded f vs s.engine).error rfl hinvoke
      have hstore : e.store = s.engine.store := (congrArg Engine.store hbeside :)
      exact hstore ▸ ht
  | ran _ hrun => exact run_globalsTyped hrun ht
  | @resumed _ v e _ hresume =>
      have hbeside := (resume_guarded v s.engine).ok rfl hresume
      have hstore : e.store = s.engine.store := (congrArg Engine.store hbeside :)
      exact hstore ▸ ht
  | resumeRejected _ hresume =>
      obtain rfl := Engine.resume_rejected hresume
      exact ht

/-- The call sets the global `x` of the module `q`. -/
def Call.SetsGlobal (c : Call η) (q : ModuleRef) (x : U16) : Prop :=
  ∃ module index value, c = .setGlobal module index value ∧ module.toNat = q.toNat ∧
    index.toNat = x.toNat

/-- The call is a run, one of whose rounds changes the global `x` of the module `q`. -/
def Call.RunsInto (c : Call η) (s : Session η) (floats : FloatOps) (host : HostEnv η)
    (q : ModuleRef) (x : U16) : Prop :=
  ∃ fuel u r u', c = .run fuel ∧ Engine.Rounds (s.env floats host) s.engine u ∧
    runRound (s.env floats host) u = some (r, u') ∧ u'.store.global? q x ≠ u.store.global? q x

/-- Code sets a global through an item that denotes it, and only if it is mutable. -/
theorem rounds_sets (hs : s.Safe host) (hfaithful : s.engine.store.Faithful decls)
    {u u' : Engine η} (hrounds : Engine.Rounds (s.env floats host) s.engine u)
    {r : RoundResult} (hround : runRound (s.env floats host) u = some (r, u')) {q : ModuleRef}
    {x : U16} (hne : u'.store.global? q x ≠ u.store.global? q x) :
    u.Sets s.code decls q x ∧ ∃ g, u.store.global? q x = some g ∧ g.type.mutable = true :=
  Engine.Safe.round_sets (Engine.Safe.rounds hs hrounds) (hrounds.runs.faithful hfaithful) hround
    hne

/-- A call that changes a global. -/
theorem Call.changes (hs : s.Safe host) {c : Call η}
    (hc : c.Allowed s) {a : Answer} (h : c.perform floats host s = some (a, t)) {q : ModuleRef}
    {x : U16} {g : Global} (hg : s.engine.store.global? q x = some g)
    (hne : t.engine.store.global? q x ≠ some g) :
    g.type.mutable = true ∧ c.SetsGlobal q x ∨ c.RunsInto s floats host q x := by
  cases Call.performs h with
  | loadRefused | setGlobalRefused | invokeRefused | runIdle | badValue | reset | asked | outside =>
      exact absurd hg hne
  | loaded _ hload =>
      exact absurd (LoadStep.global?_eq (t := s.target) (.loaded _ _ _ _ hload) hg) hne
  | loadFailed _ hload =>
      exact absurd (LoadStep.global?_eq (t := s.target) (.failed _ _ _ _ hload) hg) hne
  | @setGlobal module index value v hcheck =>
      obtain ⟨hmodule, hindex, g', hg', -, hmut⟩ := checkGlobal_eq_ok hs.bounded.linked hcheck
      by_cases hsame : q = BitVec.ofNat 8 module.toNat ∧ x = BitVec.ofNat 16 index.toNat
      · obtain ⟨rfl, rfl⟩ := hsame
        obtain rfl := Option.some.inj (hg.symm.trans hg')
        exact .inl ⟨hmut, module, index, value, rfl, (toNat_ofNat_of_lt hmodule).symm,
          (toNat_ofNat_of_lt hindex).symm⟩
      · exact absurd ((Store.global?_setGlobal_ne _ hsame).trans hg) hne
  | @invoked _ _ _ f vs e _ hinvoke =>
      have hstore : e.store = s.engine.store := ((invoke_guarded f vs s.engine).ok rfl hinvoke).2
      exact absurd hg (hstore ▸ hne)
  | @invokeRejected _ _ _ f vs err e _ hinvoke =>
      obtain ⟨hbeside, -⟩ := (invoke_guarded f vs s.engine).error rfl hinvoke
      have hstore : e.store = s.engine.store := (congrArg Engine.store hbeside :)
      exact absurd hg (hstore ▸ hne)
  | @ran fuel r e _ hrun =>
      obtain ⟨u, r', u', hrounds, hround, hchanged⟩ := run_changes hc
        (fun hrounds hpause hround => ((Engine.Safe.rounds hs hrounds).round hpause hround).2.1 rfl)
        hrun (hg ▸ hne)
      exact .inr ⟨fuel, u, r', u', rfl, hrounds, hround, hchanged⟩
  | @resumed _ v e _ hresume =>
      have hbeside := (resume_guarded v s.engine).ok rfl hresume
      have hstore : e.store = s.engine.store := (congrArg Engine.store hbeside :)
      exact absurd hg (hstore ▸ hne)
  | resumeRejected _ hresume =>
      obtain rfl := Engine.resume_rejected hresume
      exact absurd hg hne

theorem History.globalsTyped {start : Session η} (h : History floats host start s decls)
    (hs : start.Safe host) (ht : start.engine.store.GlobalsTyped) :
    s.engine.store.GlobalsTyped := by
  induction h with
  | start => exact ht
  | loaded hbefore hload _ ih => exact Call.globalsTyped (hbefore.safe hs) hload ih
  | other hbefore _ hperform _ ih => exact Call.globalsTyped (hbefore.safe hs) hperform ih

theorem Question.answer_ne_loaded (question : Question) (s : Session η) (r : U32) :
    question.answer s ≠ some (.loaded (.ok r)) := by
  intro h
  cases question with
  | moduleStart =>
      obtain ⟨_, -, h⟩ := Option.map_eq_some_iff.1 h
      cases h
  | _ => cases h

/-- Whatever calls the protocol allows, the modules that they load have declarations. -/
theorem History.trace {start : Session η} {calls : List (Call η × Answer)}
    (hs : start.engine.store.Faithful []) (h : History floats host start s decls)
    (htrace : Trace floats host s calls t) : ∃ decls', History floats host start t decls' := by
  induction htrace generalizing decls with
  | nil => exact ⟨decls, h⟩
  | @cons s s' _ c a _ hc hperform _ ih =>
      by_cases ha : ∃ r, a = .loaded (.ok r)
      · obtain ⟨r, rfl⟩ := ha
        cases Call.performs hperform with
        | loaded _ hload =>
            obtain ⟨_, _, hnew, -⟩ := (loadModule_frame _ _ _ _ .all fun _ _ =>
              LoadState.loadWrites_all _ _ _).ok rfl hload
            obtain ⟨ds, hdeclared, -⟩ := Module.new_declares (h.faithful hs).le hnew
            exact ih (h.loaded hperform hdeclared)
        | @asked question _ hanswer => exact absurd hanswer (question.answer_ne_loaded s r)
      · exact ih (h.other hc hperform fun r hr => ha ⟨r, hr⟩)

end Capi

/-! ### Initialisers -/

/-- The module `q` has the globals that it declares, and the immutable ones have the values of
their initialisers. -/
def Store.Initialised (s : Store) (q : ModuleRef) (inits : List (GlobalType × Value)) : Prop :=
  ∃ m, s.module? q = some m ∧ List.Forall₂ (fun p g =>
    g.type = p.1 ∧ (p.1.mutable = false → g.value = RawValue.ofValue p.2)) inits m.globals

theorem loadModule_initialised {env : LoadEnv} {name : Name} {wasm : Reader} {q : ModuleRef}
    {u v : LoadTarget} (hs : v.store.Bounded) (h : loadModule env name wasm v = .ok q u) :
    ∃ inits, InitialisedBy env name wasm v inits ∧ (∀ p ∈ inits, p.2.type = p.1.ty) ∧
      u.store.Initialised q inits := by
  obtain ⟨m, w, hnew, hgrows, -, hpush, -⟩ := (loadModule_frame env name wasm v .all fun _ _ =>
    LoadState.loadWrites_all _ _ _).ok rfl h
  obtain ⟨inits, hinits, hall⟩ := Module.new_globals hnew
  refine ⟨inits, hinits, fun p hp => ?_, m, (hs.evolves hgrows.store).module?_push hpush,
    hall.imp ?_⟩
  · obtain ⟨k, hk⟩ := List.mem_iff_getElem?.1 hp
    obtain ⟨_, -, htype, -⟩ := forall₂_getElem? hall hk
    exact htype
  · rintro p _ ⟨-, rfl⟩
    exact ⟨rfl, fun _ => rfl⟩

/-- Immutable globals keep the values of their initialisers in a module that stays. -/
theorem Store.Initialised.keeps {q : ModuleRef} {inits : List (GlobalType × Value)}
    (h : s.Initialised q inits) (hs : s.Linked) (hretains : s.Retains t)
    (hkeeps : s.KeepsGlobals t) : t.Initialised q inits := by
  obtain ⟨m, hm, hall⟩ := h
  obtain ⟨m', hm', halike⟩ := hretains _ m hm
  have hlength : m'.globals.length = m.globals.length := by
    simpa using congrArg List.length halike.types
  refine ⟨m', hm', List.forall₂_iff_get.2 ⟨hall.length_eq.trans hlength.symm, fun k hk hk' => ?_⟩⟩
  obtain ⟨htype, hvalue⟩ := hall.get hk (hlength ▸ hk')
  have hindex : (BitVec.ofNat 16 k).toNat = k := toNat_ofNat_of_lt (Nat.lt_of_lt_of_le
    (hlength ▸ hk') (Nat.le_trans (hs.modules m (List.mem_of_getElem? hm)).globals_le (by decide)))
  obtain ⟨g', hg', htype', hsame⟩ := hkeeps q (BitVec.ofNat 16 k) _ (by
    rw [Store.global?, hm, Option.bind_some, hindex]
    exact List.getElem?_eq_getElem (hlength ▸ hk'))
  rw [Store.global?, Store.module?, hm', Option.bind_some, hindex] at hg'
  obtain rfl := Option.some.inj ((List.getElem?_eq_getElem hk').symm.trans hg')
  refine ⟨htype'.trans htype, fun hmut => ?_⟩
  rw [List.get_eq_getElem, hsame (by rw [← hmut, ← htype, List.get_eq_getElem])]
  exact hvalue hmut

/-- Globals in whatever sequence of loads, runs and other calls the protocol allows. A global
holds a value of its type. From its load on, a module has the globals that its binary declares,
the immutable ones with the values of their initialisers. A call that changes a global is one
that sets it, which is mutable, or a run; and a round of a run changes it only by a `global.set`
of an item that denotes it, when it is mutable. -/
theorem Capi.History.globals_governed {setup : HostSetup} {stackSize : ℕ} {store : Store}
    {code : CodeBuilder} {world : η} {s : Session η} {decls : List (List ImportDecl)}
    (hregular : host.Regular setup.hostModules) (hsmall : stackSize < 2 ^ 31)
    (hstore : setup.store = .ok store)
    (h : Capi.History floats host ⟨Engine.new stackSize store world, code⟩ s decls) :
    s.engine.store.GlobalsTyped ∧
    (∀ env name wasm r t,
      Call.perform floats host s (.loadModule env name wasm) = some (.loaded (.ok r), t) →
        ∃ inits, InitialisedBy (s.engine.loadEnv env) name wasm s.target inits ∧
          (∀ p ∈ inits, p.2.type = p.1.ty) ∧ ∀ calls s', Trace floats host t calls s' →
            s'.engine.store.Initialised (BitVec.ofNat 8 r.toNat) inits) ∧
    (∀ (c : Call η) a t q x g, c.Allowed s → c.perform floats host s = some (a, t) →
      s.engine.store.global? q x = some g → t.engine.store.global? q x ≠ some g →
        g.type.mutable = true ∧ c.SetsGlobal q x ∨ c.RunsInto s floats host q x) ∧
    ∀ (u u' : Engine η) r q x, Engine.Rounds (s.env floats host) s.engine u →
      runRound (s.env floats host) u = some (r, u') →
      u'.store.global? q x ≠ u.store.global? q x →
        u.Sets s.code decls q x ∧ ∃ g, u.store.global? q x = some g ∧ g.type.mutable = true := by
  have hstart : (⟨Engine.new stackSize store world, code⟩ : Session η).Safe host :=
    Session.safe_new hregular hsmall hstore world code
  have hsafe := h.safe hstart
  have hfaithful := h.faithful (Store.faithful_fromHostModules hstore)
  refine ⟨h.globalsTyped hstart ?_, fun env name wasm r t hload => ?_,
    fun c a t q x g hc hperform hg hne => Call.changes hsafe hc hperform hg hne,
    fun u u' r q x hrounds hround hne => rounds_sets hsafe hfaithful hrounds hround hne⟩
  · -- no module is loaded at first
    intro q x g hg
    change store.global? q x = some g at hg
    rw [Store.global?, Store.module?, (HostSetup.store_eq hstore).1] at hg
    cases hg
  · obtain ⟨q, u, hq, rfl, rfl⟩ := load_eq_ok hload
    obtain ⟨inits, hinits, htypes, hinitialised⟩ := loadModule_initialised hsafe.bounded hq
    have hloaded := Call.safe hsafe (by trivial) hload
    refine ⟨inits, hinits, htypes, fun calls s' htrace => ?_⟩
    rw [BitVec.toNat_setWidth, Nat.mod_eq_of_lt (Nat.lt_trans q.isLt (by decide)),
      BitVec.ofNat_toNat, BitVec.setWidth_eq]
    exact hinitialised.keeps hloaded.bounded.linked htrace.calls.retains
      (htrace.keepsGlobals hloaded)

/-- A run sets the mutable global. -/
theorem Capi.History.globals_governed_settingGlobal : ∃ calls s t a,
    replay .none .quiet [.loadModule simpleEnv [0x61] (Reader.new (.ofBytes settingGlobal)),
      .invoke 0 0 []] emptySession = some (calls, s) ∧
    Call.perform .none .quiet s (.run 9) = some (a, t) ∧
    s.engine.store.global? 0 1 = some ⟨⟨.i32, true⟩, .ofValue (.i32 0)⟩ ∧
    t.engine.store.global? 0 1 = some ⟨⟨.i32, true⟩, .ofValue (.i32 7)⟩ ∧
    Call.RunsInto (.run 9) s .none .quiet 0 1 := by
  have hrun : ((replay .none .quiet
      [.loadModule simpleEnv [0x61] (Reader.new (.ofBytes settingGlobal)), .invoke 0 0 []]
      emptySession).bind fun p => (Call.perform .none .quiet p.2 (.run 9)).map fun q =>
        (decide ((Call.run 9).Allowed p.2), p.2.engine.store.global? 0 1,
          q.2.engine.store.global? 0 1)) =
      some (true, some ⟨⟨.i32, true⟩, .ofValue (.i32 0)⟩,
        some ⟨⟨.i32, true⟩, .ofValue (.i32 7)⟩) := by decide +kernel
  obtain ⟨⟨calls, s⟩, h₀, hrun⟩ := Option.bind_eq_some_iff.1 hrun
  obtain ⟨⟨a, t⟩, h₁, hrun⟩ := Option.map_eq_some_iff.1 hrun
  simp only [Prod.mk.injEq] at hrun
  obtain ⟨hallowed, hbefore, hafter⟩ := hrun
  have hstore : emptyHost.store = .ok emptyStore := rfl
  have hfaithful : emptySession.engine.store.Faithful [] := Store.faithful_fromHostModules hstore
  obtain ⟨decls, hhistory⟩ := Capi.History.trace hfaithful .start (replay_trace h₀)
  obtain ⟨-, -, hcalls, -⟩ := Capi.History.globals_governed quiet_regular (by decide) hstore
    hhistory
  refine ⟨calls, s, t, a, h₀, h₁, hbefore, hafter, ?_⟩
  rcases hcalls _ a t 0 1 _ (of_decide_eq_true hallowed) h₁ hbefore (by rw [hafter]; decide) with
    ⟨-, _, _, _, hset, -⟩ | hruns
  · cases hset
  · exact hruns

end SpaceWasm
