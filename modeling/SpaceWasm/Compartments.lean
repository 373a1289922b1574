import SpaceWasm.Interface
import SpaceWasm.StoreEffects

/-!
# Compartments

The code of a module writes to its own memory and to the mutable globals of its index space,
and calls its own functions, those that it imports and those in its table. So a set of
modules that is closed under such calls is a compartment: while code of it runs, no other
memory and no other global changes, bytes that host functions write excepted.
-/

namespace SpaceWasm

variable {η : Type} {floats : FloatOps} {host : HostEnv η} {code : CodeBuilder} {s t u : Store}

/-! ### What code may reach -/

/-- Code of the module `r` may set the global `x` of the module `q`: it is one of the globals
of `r`, own or imported, and it is mutable. -/
def Store.MaySet (s : Store) (r q : ModuleRef) (x : U16) : Prop :=
  ∃ m k ref g, s.module? r = some m ∧ m.getGlobalRef k = some ref ∧
    (ref = .module x ∧ q = r ∨ ref = .extern_ q x) ∧ s.global? q x = some g ∧ g.type.mutable = true

/-- Code does not leave the modules in `R`. -/
def Store.Encloses (s : Store) (R : ModuleRef → Prop) : Prop := ∀ r q, R r → s.MayCall r q → R q

/-- Outside of the modules in `R` and of the memories in `P` the store is as it was. -/
structure Store.Confined (R : ModuleRef → Prop) (P : MemRef → Prop) (s t : Store) : Prop where
  runs : s.Runs t
  memories : ∀ i, ¬P i → (∀ r, R r → s.getMemory r ≠ some i) → t.memories[i]? = s.memories[i]?
  globals : ∀ q x, (∀ r, R r → ¬s.MaySet r q x) → t.global? q x = s.global? q x

namespace Store.Runs

variable (h : s.Runs t)

include h

theorem module?_similar {r : ModuleRef} {m' : Module} (hm : t.module? r = some m') :
    ∃ m, s.module? r = some m ∧ m.Similar m' := by
  cases hs : s.module? r with
  | none =>
      rw [h.module?_none hs] at hm
      cases hm
  | some m =>
      obtain ⟨m'', hm'', hsimilar, -⟩ := h.similar hs
      obtain rfl := Option.some.inj (hm''.symm.trans hm)
      exact ⟨m, rfl, hsimilar⟩

theorem mayCall {r q : ModuleRef} (hcall : t.MayCall r q) : s.MayCall r q := by
  rcases hcall with heq | ⟨m', x, y, hm', hx⟩ | ⟨table, entries, y, htable, hentries, hy⟩
  · exact .inl heq
  · obtain ⟨m, hm, hsimilar⟩ := h.module?_similar hm'
    exact .inr (.inl ⟨m, x, y, hm, (hsimilar.getFuncRef x).symm.trans hx⟩)
  · rw [h.getTable] at htable
    rw [h.tables] at hentries
    exact .inr (.inr ⟨table, entries, y, htable, hentries, hy⟩)

theorem maySet {r q : ModuleRef} {x : U16} (hset : t.MaySet r q x) : s.MaySet r q x := by
  obtain ⟨m', k, ref, g', hm', hk, href, hg', hmut⟩ := hset
  obtain ⟨m, hm, hsimilar⟩ := h.module?_similar hm'
  obtain ⟨mq', hmq', hg'⟩ := Option.bind_eq_some_iff.1 hg'
  obtain ⟨mq, hmq, hsimilarq⟩ := h.module?_similar hmq'
  have htypes := congrArg (·[x.toNat]?) hsimilarq.globals
  simp only [List.getElem?_map, hg', Option.map_some] at htypes
  obtain ⟨g, hg, htype⟩ := Option.map_eq_some_iff.1 htypes.symm
  refine ⟨m, k, ref, g, hm, (hsimilar.getGlobalRef k).symm.trans hk, href, ?_, htype ▸ hmut⟩
  rw [Store.global?, hmq]
  exact hg

end Store.Runs

variable {R : ModuleRef → Prop} {P : MemRef → Prop}

theorem Store.Encloses.runs (h : s.Encloses R) (hs : s.Runs t) : t.Encloses R :=
  fun r q hr hcall => h r q hr (hs.mayCall hcall)

/-- Another global is as it was. -/
theorem Store.global?_setGlobal_ne {q q' : ModuleRef} {x x' : U16} (v : RawValue)
    (hne : ¬(q' = q ∧ x' = x)) : (s.setGlobal q x v).global? q' x' = s.global? q' x' := by
  rw [Store.global?, Store.global?, Store.module?, Store.module?, Store.setGlobal]
  dsimp only
  rw [List.getElem?_modify]
  cases s.modules[q'.toNat]? with
  | none => rfl
  | some m =>
      simp only [Option.map_eq_map, Option.map_some, Option.bind_some]
      by_cases hq : q.toNat = q'.toNat
      · rw [if_pos hq]
        have hx : x.toNat ≠ x'.toNat := fun heq =>
          hne ⟨(BitVec.eq_of_toNat_eq hq).symm, (BitVec.eq_of_toNat_eq heq).symm⟩
        simp [hx]
      · rw [if_neg hq]

namespace Store.Confined

theorem refl (s : Store) : s.Confined R P s := ⟨.refl s, fun _ _ _ => rfl, fun _ _ _ => rfl⟩

theorem trans (h : s.Confined R P t) (h' : t.Confined R P u) : s.Confined R P u where
  runs := h.runs.trans h'.runs
  memories i hi hmem := (h'.memories i hi fun r hr => by
    rw [h.runs.getMemory]
    exact hmem r hr).trans (h.memories i hi hmem)
  globals q x hx := (h'.globals q x fun r hr hset => hx r hr (h.runs.maySet hset)).trans
    (h.globals q x hx)

/-- A memory of the compartment is replaced. -/
theorem setMemory {mem : MemRef} {m : Memory} (hruns : s.Runs (s.setMemory mem m)) {r : ModuleRef}
    (hr : R r) (hmem : s.getMemory r = some mem) : s.Confined R P (s.setMemory mem m) where
  runs := hruns
  memories i _ hi := List.getElem?_set_ne fun heq : mem = i => hi r hr (heq ▸ hmem)
  globals _ _ _ := rfl

/-- A global that code of the compartment may set is set. -/
theorem setGlobal {r q : ModuleRef} {x : U16} (v : RawValue) (hr : R r) (hset : s.MaySet r q x) :
    s.Confined R P (s.setGlobal q x v) where
  runs := .setGlobal s q x v
  memories _ _ _ := rfl
  globals q' x' hx' := Store.global?_setGlobal_ne v fun heq => hx' r hr (by rwa [heq.1, heq.2])

theorem writeBytes (ws : List ByteWrite) (hws : ∀ w ∈ ws, P w.mem) :
    s.Confined R P (s.writeBytes ws) := by
  induction ws generalizing s with
  | nil => exact .refl s
  | cons w ws ih =>
      obtain ⟨hw, hws⟩ := List.forall_mem_cons.1 hws
      refine trans ⟨.writeByte s w, fun i hi _ => ?_, fun q x _ => ?_⟩ (ih hws)
      · unfold Store.writeByte
        split
        · rfl
        · exact List.getElem?_set_ne fun heq : w.mem = i => hi (heq ▸ hw)
      · unfold Store.writeByte
        split <;> rfl

end Store.Confined

/-! ### Instructions -/

/-- The globals that the instruction sets are among those that code of `r` may set. -/
def IrInstr.Permitted (s : Store) (r : ModuleRef) : IrInstr → Prop
  | .globalSet x => s.MaySet r r x
  | .globalSetExtern q x => s.MaySet r q x
  | _ => True

/-- What host functions write is in the memories of `P`. -/
def HostEnv.WritesWithin (host : HostEnv η) (P : MemRef → Prop) : Prop :=
  ∀ world ref args memories, ∀ w ∈ (host.call world ref args memories).2.2, P w.mem

theorem IrInstr.Does.confines {pages : List TextPage} {e : Engine η} {i : IrInstr}
    (h : i.Does ⟨pages, floats, host⟩ e.context t) (hi : i.Permitted e.store e.module)
    (hc : e.context.Coherent) (hr : R e.module) (hhost : host.WritesWithin P)
    (hruns : e.store.Runs t) : e.store.Confined R P t := by
  cases h with
  | nothing => exact .refl _
  | globalSet => exact .setGlobal _ hr hi
  | globalSetExtern => exact .setGlobal _ hr hi
  | store op arg m => exact .setMemory hruns hr hc.memory
  | memoryGrow m hmem => exact .setMemory hruns hr ((Store.getMemoryMut_eq _ _).symm.trans hmem)
  | callHost world ref args _ => exact .writeBytes _ (hhost world ref args _)

variable {e : Engine η} {a : Activation} {rest : List Activation} {n : ℕ}

/-- What the engine executes was emitted for an instruction of the current module; nothing
but a `global.set` emits an instruction that sets a global. -/
theorem Engine.Running.emits (hrun : e.Running e.store code a rest n) {i : IrInstr}
    {pc : JumpTarget} (hdecode : IrReader.decode code.pages e.pc = .ok i pc) :
    ∃ (m : Module) (ctx : Context) (f : Func) (L : Listing), e.store.module? e.module = some m ∧
      f.CompiledTo e.store m code ctx L ∧
      ((∃ w ins outs, ctx.Emits w i ins outs) ∨ ∀ ref, i ≠ Asm.globalSetInstr ref) := by
  obtain ⟨m, ctx, L, j, hbody, hj, en, hen, rfl, hheight⟩ := hrun.at_
  have hholding := (hbody.compiled.installed code (.refl code)).holding en hen
  have hleads := hbody.compiled.heighted.leads en hen n hheight
  have hother : ∀ {i : IrInstr}, (∀ x, i ≠ .globalSet x) → (∀ q x, i ≠ .globalSetExtern q x) →
      (∀ q x, i ≠ .globalSetHost q x) → ∀ ref, i ≠ Asm.globalSetInstr ref := by
    intro i hown hextern hhost ref
    cases ref with
    | module x => exact hown x
    | extern_ q x => exact hextern q x
    | host q x => exact hhost q x
  rw [hj] at hdecode
  refine ⟨m, ctx, a.func, L, hrun.module ▸ hbody.module, hbody.compiled, ?_⟩
  unfold Listing.Leads at hleads
  cases hinstr : en.instr with
  | plain k =>
      rw [hinstr] at hleads
      rw [hholding.decode_plain hinstr] at hdecode
      cases hdecode
      rcases hleads with ⟨w, ins, outs, hemits, -, -⟩ | rfl | ⟨rfl, -⟩
      · exact .inl ⟨w, ins, outs, hemits⟩
      · exact .inr (hother (by simp) (by simp) (by simp))
      · obtain ⟨size, hsize, -⟩ := Asm.instrReturn_eq ctx.returnTy
        rw [hsize]
        exact .inr (hother (by simp) (by simp) (by simp))
  | if_ l =>
      rw [hholding.decode_label (f := .if_) (by rw [hinstr]; rfl) (by rw [hinstr]; rfl)
        (fun _ => rfl) fun _ => trivial] at hdecode
      cases hdecode
      exact .inr (hother (by simp) (by simp) (by simp))
  | br l =>
      rw [hholding.decode_label (f := .br) (by rw [hinstr]; rfl) (by rw [hinstr]; rfl)
        (fun _ => rfl) fun _ => trivial] at hdecode
      cases hdecode
      exact .inr (hother (by simp) (by simp) (by simp))
  | brIf l =>
      rw [hholding.decode_label (f := .brIf) (by rw [hinstr]; rfl) (by rw [hinstr]; rfl)
        (fun _ => rfl) fun _ => trivial] at hdecode
      cases hdecode
      exact .inr (hother (by simp) (by simp) (by simp))
  | brTable n ls =>
      rw [(hholding.decode_brTable hinstr).1] at hdecode
      cases hdecode
      exact .inr (hother (by simp) (by simp) (by simp))

/-- An instruction that sets a global sets a mutable one of the index space of the current
module. -/
theorem Engine.Running.sets (hrun : e.Running e.store code a rest n) {ref : Ref}
    {pc : JumpTarget} (hdecode : IrReader.decode code.pages e.pc =
      .ok (Asm.globalSetInstr ref) pc) :
    ∃ m k v, e.store.module? e.module = some m ∧ m.getGlobalRef k = some ref ∧
      e.store.refGlobal? m ref = some v ∧ v.mutable = true := by
  obtain ⟨m, ctx, f, L, hmodule, hcompiled, ⟨w, ins, outs, hemits⟩ | hne⟩ := hrun.emits hdecode
  · have hset : ∃ (k : Idx) (v : GlobalVariable), ctx.global? k = some v ∧ v.mutable = true ∧
        v.reference = ref := by
      generalize hi : Asm.globalSetInstr ref = i at hemits
      cases hemits with
      | @globalSet k v hk hmut =>
          refine ⟨k, v, hk, hmut, ?_⟩
          cases ref <;> cases hv : v.reference <;> rw [hv] at hi <;> cases hi <;> rfl
      | @call _ ref' => cases ref <;> cases ref' <;> cases hi
      | @globalGet _ g => cases ref <;> cases hg : g.reference <;> rw [hg] at hi <;> cases hi
      | _ => cases ref <;> cases hi
    obtain ⟨k, v, hk, hmut, rfl⟩ := hset
    exact ⟨m, k, v, hmodule, hcompiled.describes.globalRef k v hk,
      hcompiled.describes.global k v hk, hmut⟩
  · exact absurd rfl (hne ref)

/-- The global that a reference of the module `r` designates. -/
theorem Store.refGlobal?_global {r q : ModuleRef} {x : U16} {m : Module} {ref : Ref}
    {v : GlobalVariable} (hm : s.module? r = some m) (hv : s.refGlobal? m ref = some v)
    (href : ref = .module x ∧ q = r ∨ ref = .extern_ q x) :
    ∃ g, s.global? q x = some g ∧ g.type.mutable = v.mutable := by
  obtain ⟨rfl, rfl⟩ | rfl := href
  · obtain ⟨g, hg, hv⟩ := Option.bind_eq_some_iff.1 hv
    cases hv
    refine ⟨g, ?_, rfl⟩
    rw [Store.global?, hm]
    exact hg
  · obtain ⟨em, hem, hv⟩ := Option.bind_eq_some_iff.1 hv
    obtain ⟨g, hg, hv⟩ := Option.bind_eq_some_iff.1 hv
    cases hv
    refine ⟨g, ?_, rfl⟩
    rw [Store.global?, hem]
    exact hg

/-- The compiler emits only permitted instructions. -/
theorem Engine.Running.permitted (hrun : e.Running e.store code a rest n) {i : IrInstr}
    {pc : JumpTarget} (hdecode : IrReader.decode code.pages e.pc = .ok i pc) :
    i.Permitted e.store e.module := by
  have hset : ∀ ref q x, i = Asm.globalSetInstr ref →
      ref = .module x ∧ q = e.module ∨ ref = .extern_ q x → e.store.MaySet e.module q x := by
    rintro ref q x rfl href
    obtain ⟨m, k, v, hmodule, hk, hv, hmut⟩ := hrun.sets hdecode
    obtain ⟨g, hg, htype⟩ := Store.refGlobal?_global hmodule hv href
    exact ⟨m, k, ref, g, hmodule, hk, href, hg, htype.trans hmut⟩
  cases i with
  | globalSet x => exact hset (.module x) _ x rfl (.inl ⟨rfl, rfl⟩)
  | globalSetExtern q x => exact hset (.extern_ q x) q x rfl (.inr rfl)
  | _ => trivial

/-! ### Rounds -/

namespace Engine

/-- Every activation is one of a function of the modules in `R`. -/
def Enclosed (e : Engine η) (code : CodeBuilder) (R : ModuleRef → Prop) : Prop :=
  e.Rests ∨ ∃ a rest n, e.Running e.store code a rest n ∧ ∀ b ∈ a :: rest, R b.module

variable {r : RoundResult} {e' e₁ t₁ : Engine η}

theorem Advance.enclosed (h : Advance 1 e.store code a rest e e₁) (hencloses : e.store.Encloses R)
    (hin : ∀ b ∈ a :: rest, R b.module) :
    ∃ a' rest' n', e₁.Running e.store code a' rest' n' ∧ ∀ b ∈ a' :: rest', R b.module := by
  cases h with
  | stays running => exact ⟨_, _, _, running, hin⟩
  | enters running _ _ _ callee =>
      refine ⟨_, _, _, running, List.forall_mem_cons.2 ⟨?_, hin⟩⟩
      exact hencloses _ _ (hin a List.mem_cons_self) callee
  | leaves _ rest_eq running =>
      exact ⟨_, _, _, running, fun b hb => hin b (List.mem_cons_of_mem _ (rest_eq ▸ hb))⟩

theorem RoundsTo.enclosed (h : RoundsTo e.store code a rest e r t₁ e')
    (hruns : e.store.Runs t₁.store) (hencloses : e.store.Encloses R)
    (hin : ∀ b ∈ a :: rest, R b.module) : t₁.Enclosed code R := by
  cases h with
  | next advance =>
      obtain ⟨a', rest', n', hrun, hin'⟩ := advance.enclosed hencloses hin
      exact .inr ⟨a', rest', n', hrun.runs hruns, hin'⟩
  | pause running => exact .inr ⟨_, _, _, running.runs hruns, hin⟩
  | trap _ rests => exact .inl rests
  | finished _ _ rests => exact .inl rests

/-- A call of a function of the compartment. -/
theorem Safe.invoke_confined (h : e.Safe host code) {f : WasmRef} (hf : R f.module)
    {params : List Value} (hinvoke : SpaceWasm.invoke f params e = .ok () e₁) :
    e₁.store = e.store ∧ e₁.Enclosed code R := by
  obtain ⟨hrest, m, func, ty, mem, table, words, as, hmodule, hfunc, hdecl, htypes, hroom, hmem,
    htable, hentered, rfl⟩ := h.invoke hinvoke
  refine ⟨rfl, .inr ⟨_, _, _, hrest.invoked_running h.coded hmodule
    (List.mem_of_getElem? hfunc) hdecl hroom (putValues_same _ 0 _).length hentered, ?_⟩⟩
  rintro b hb
  obtain rfl := List.mem_singleton.1 hb
  exact hf

theorem Safe.invokeRejected_confined (h : e.Safe host code) (hin : e.Enclosed code R) {f : WasmRef}
    {params : List Value} {err : InvokeError}
    (hinvoke : SpaceWasm.invoke f params e = .error err e₁) :
    e₁.store = e.store ∧ e₁.Enclosed code R := by
  rcases h.invokeRejected hinvoke with rfl | ⟨hrest, words, touched, hlength, rfl⟩
  · exact ⟨rfl, hin⟩
  · exact ⟨rfl, .inl ⟨hrest.pc, rfl, hrest.fp, hrest.jumped, hrest.pause⟩⟩

/-- A result that is accepted changes nothing but the stack. -/
theorem Safe.resume_confined (h : e.Safe host code) (hin : e.Enclosed code R) {v : Option Value}
    (hresume : SpaceWasm.resume v e = .ok () e₁) :
    e.store.Confined R P e₁.store ∧ e₁.Enclosed code R := by
  obtain ⟨-, -, -, as, -, hp, -, rfl⟩ := h.resume hresume
  refine ⟨.refl _, ?_⟩
  rcases hin with hrest | ⟨a, rest, n, hrun, hin⟩
  · rw [hrest.pause] at hp
    cases hp
  · exact .inr ⟨a, rest, n, hrun.resumed hp rfl as, hin⟩

variable (h : e.Safe host code) (hpause : e.hostPauseResult = none)
  (hencloses : e.store.Encloses R) (hin : e.Enclosed code R) (hhost : host.WritesWithin P)

include h hpause hencloses hin hhost

/-- A round in a compartment stays in it. -/
theorem Safe.round_confined (hround : runRound ⟨code.pages, floats, host⟩ e = some (r, t₁)) :
    e.store.Confined R P t₁.store ∧ t₁.Enclosed code R := by
  rcases hin with hrest | ⟨a, rest, n, hrun, hin⟩
  · rw [runRound_idle hrest.pc] at hround
    cases hround
    exact ⟨.refl _, .inl hrest⟩
  · have hpc := hrun.at_.ne_sentinel
    have hruns := (runRound_continues hround).runs
    obtain ⟨t', hto⟩ := h.roundsTo hrun hpause hround
    obtain ⟨i, pc, hdecode, hdoes⟩ := runRound_does hpc hround
    refine ⟨?_, hto.enclosed hruns hencloses hin⟩
    exact hdoes.confines (hrun.permitted hdecode) (h.coherent hpc)
      (hrun.module ▸ hin a List.mem_cons_self) hhost hruns

/-- So does a run. -/
theorem Safe.run_confined {k : ℕ} {r : InterpreterResult}
    (hrun : SpaceWasm.run ⟨code.pages, floats, host⟩ k e = some (r, t₁)) :
    e.store.Confined R P t₁.store ∧ t₁.Enclosed code R := by
  refine boundedRun_ends (I := fun u => u.Safe host code ∧ u.hostPauseResult = none ∧
    u.Enclosed code R ∧ e.store.Confined R P u.store)
      (Q := fun _ u => e.store.Confined R P u.store ∧
      u.Enclosed code R) (fun u hu => ⟨hu.2.2.2, hu.2.2.1⟩) ?_ ⟨h, hpause, hin, .refl _⟩ hrun
  rintro u r v ⟨hu, hfree, hinside, hconfined⟩ hround
  obtain ⟨hv, hfree', -⟩ := hu.round hfree hround
  obtain ⟨hstep, hinside'⟩ := hu.round_confined hfree (hencloses.runs hconfined.runs) hinside hhost
    hround
  cases r with
  | none => exact ⟨hv, hfree' rfl, hinside', hconfined.trans hstep⟩
  | some r => exact ⟨hconfined.trans hstep, hinside'⟩

end Engine

/-! ### Calls -/

namespace Capi

variable {s t : Session η}

/-- A call that does not leave the compartment: it loads no module, sets no global and calls
no function of another module. -/
def Call.Inside (R : ModuleRef → Prop) : Call η → Prop
  | .loadModule .. | .setGlobal .. => False
  | .invoke module _ _ => R (BitVec.ofNat 8 module.toNat)
  | .run _ | .resume | .resumeValue _ | .reset | .ask _ | .outside _ => True

instance [DecidablePred R] : DecidablePred (Call.Inside (η := η) R)
  | .loadModule .. | .setGlobal .. => .isFalse id
  | .invoke module _ _ => inferInstanceAs (Decidable (R (BitVec.ofNat 8 module.toNat)))
  | .run _ | .resume | .resumeValue _ | .reset | .ask _ | .outside _ => .isTrue trivial

/-- A call inside a compartment does nothing outside of it. -/
theorem Call.confines (hs : s.Safe host) {c : Call η} {a : Answer} (hc : c.Allowed s)
    (hinside : c.Inside R) (hencloses : s.engine.store.Encloses R)
    (hin : s.engine.Enclosed s.code R) (hhost : host.WritesWithin P)
    (h : c.perform floats host s = some (a, t)) :
    s.engine.store.Confined R P t.engine.store ∧ t.engine.Enclosed t.code R := by
  cases Call.performs h with
  | loadRefused | loaded | loadFailed | setGlobalRefused | setGlobal => exact hinside.elim
  | invokeRefused | runIdle | badValue | asked => exact ⟨.refl _, hin⟩
  | invoked hcheck hinvoke =>
      obtain ⟨-, -, -, rfl, -⟩ := checkInvoke_eq_ok hcheck
      obtain ⟨hstore, henclosed⟩ := Engine.Safe.invoke_confined hs hinside hinvoke
      exact ⟨hstore ▸ .refl _, henclosed⟩
  | invokeRejected _ hinvoke =>
      obtain ⟨hstore, henclosed⟩ := Engine.Safe.invokeRejected_confined hs hin hinvoke
      exact ⟨hstore ▸ .refl _, henclosed⟩
  | ran _ hrun => exact Engine.Safe.run_confined hs hc hencloses hin hhost hrun
  | resumed _ hresume => exact Engine.Safe.resume_confined hs hin hresume
  | resumeRejected _ hresume =>
      obtain rfl := Engine.resume_rejected hresume
      exact ⟨.refl _, hin⟩
  | reset => exact ⟨.refl _, .inl ⟨rfl, rfl, rfl, rfl, rfl⟩⟩
  | @outside world =>
      refine ⟨.refl _, ?_⟩
      rcases hin with hrest | ⟨a, rest, n, hrun, hin⟩
      · exact .inl ⟨hrest.pc, hrest.sp, hrest.fp, hrest.jumped, hrest.pause⟩
      · exact .inr ⟨a, rest, n, hrun.store world (.refl _), hin⟩

theorem Trace.confines {calls : List (Call η × Answer)} (h : Trace floats host s calls t)
    (hs : s.Safe host) (hencloses : s.engine.store.Encloses R) (hin : s.engine.Enclosed s.code R)
    (hhost : host.WritesWithin P) (hinside : ∀ p ∈ calls, p.1.Inside R) :
    s.engine.store.Confined R P t.engine.store := by
  induction h with
  | nil => exact .refl _
  | cons hc hperform _ ih =>
      obtain ⟨hcall, hcalls⟩ := List.forall_mem_cons.1 hinside
      obtain ⟨hconfined, hin'⟩ := Call.confines hs hc hcall hencloses hin hhost hperform
      exact hconfined.trans (ih (Call.safe hs hc hperform) (hencloses.runs hconfined.runs) hin'
        hcalls)

end Capi

/-- A compartment cannot be left: an idle engine runs functions of the modules in `R`, from
which the code of `R` reaches no other module, in whatever sequence of calls, pauses, slices
and traps. The memories of all other modules are as before, unless host functions write to
them, and so are all globals that code of `R` may not set, immutable ones among them. -/
theorem Capi.Trace.confined {setup : HostSetup} {stackSize : ℕ} {s s' : Session η}
    {calls : List (Call η × Answer)} (hregular : host.Regular setup.hostModules)
    (hsmall : stackSize < 2 ^ 31) (hs : s.Abides setup floats host stackSize)
    (hidle : s.engine.isIdle) (hencloses : s.engine.store.Encloses R)
    (hhost : host.WritesWithin P) (h : Trace floats host s calls s')
    (hinside : ∀ p ∈ calls, p.1.Inside R) :
    s.engine.store.Confined R P s'.engine.store := by
  have hsafe := hs.safe hregular hsmall
  exact h.confines hsafe hencloses (.inl (hsafe.sited.idle (of_decide_eq_true hidle))) hhost hinside

theorem Module.getFuncRef_ne_extern {m : Module} (himports : m.imports = []) (x : Idx)
    (q : ModuleRef) (y : U16) : m.getFuncRef x ≠ some (.extern_ q y) := by
  intro hx
  unfold Module.getFuncRef at hx
  rw [himports, Module.funcImport] at hx
  dsimp only at hx
  split at hx <;> cases hx

/-- A module that imports nothing and has no table is a compartment of its own. -/
theorem Store.encloses_alone {r : ModuleRef} {m : Module} {table : TableRef}
    (hm : s.module? r = some m)
    (himports : m.imports = []) (htable : s.getTable r = some table)
    (hentries : s.tables[table]? = some []) : s.Encloses (· = r) := by
  rintro _ q rfl (heq | ⟨m', x, y, hm', hx⟩ | ⟨table', entries, y, htable', hentries', hy⟩)
  · exact heq
  · obtain rfl := Option.some.inj (hm.symm.trans hm')
    exact absurd hx (Module.getFuncRef_ne_extern himports x q y)
  · obtain rfl := Option.some.inj (htable.symm.trans htable')
    obtain rfl := Option.some.inj (hentries.symm.trans hentries')
    cases hy

/-- A module whose function sets the second one of its globals; the first one is immutable. -/
def settingGlobal : List U8 :=
  [0x00, 0x61, 0x73, 0x6D, 0x01, 0x00, 0x00, 0x00, 0x01, 0x04, 0x01, 0x60, 0x00, 0x00, 0x03, 0x02,
    0x01, 0x00, 0x06, 0x0B, 0x02, 0x7F, 0x00, 0x41, 0x05, 0x0B, 0x7F, 0x01, 0x41, 0x00, 0x0B, 0x0A,
    0x08, 0x01, 0x06, 0x00, 0x41, 0x07, 0x24, 0x01, 0x0B]

/-- The function runs beside another module. -/
theorem Capi.Trace.confined_settingGlobal : ∃ answers s calls s',
    replay .none .quiet [.loadModule simpleEnv [0x61] (Reader.new (.ofBytes calling)),
      .loadModule simpleEnv [0x62] (Reader.new (.ofBytes settingGlobal))] emptySession =
        some (answers, s) ∧
    replay .none .quiet [.invoke 1 0 [], .run 9] s = some (calls, s') ∧
    s'.engine.store.global? 1 1 ≠ s.engine.store.global? 1 1 ∧
    s.engine.store.Confined (· = 1) (fun _ => False) s'.engine.store := by
  have hrun : ((replay .none .quiet [.loadModule simpleEnv [0x61] (Reader.new (.ofBytes calling)),
      .loadModule simpleEnv [0x62] (Reader.new (.ofBytes settingGlobal))] emptySession).bind
      fun p => (replay .none .quiet [.invoke 1 0 [], .run 9] p.2).bind fun q =>
        (p.2.engine.store.module? 1).bind fun m => (p.2.engine.store.getTable 1).map fun table =>
          (p.2.engine.isIdle, m.imports.isEmpty, p.2.engine.store.tables[table]?,
            decide (∀ c ∈ q.1, c.1.Inside (· = 1)),
            decide (q.2.engine.store.global? 1 1 ≠ p.2.engine.store.global? 1 1))) =
      some (true, true, some [], true, true) := by decide +kernel
  obtain ⟨⟨answers, s⟩, h₀, hrun⟩ := Option.bind_eq_some_iff.1 hrun
  obtain ⟨⟨calls, s'⟩, h₁, hrun⟩ := Option.bind_eq_some_iff.1 hrun
  obtain ⟨m, hm, hrun⟩ := Option.bind_eq_some_iff.1 hrun
  obtain ⟨table, htable, hrun⟩ := Option.map_eq_some_iff.1 hrun
  simp only [Prod.mk.injEq] at hrun
  obtain ⟨hidle, himports, hentries, hinside, hchanged⟩ := hrun
  refine ⟨answers, s, calls, s', h₀, h₁, of_decide_eq_true hchanged, ?_⟩
  exact Capi.Trace.confined quiet_regular (by decide)
    (emptySession_abides.trace quiet_regular (by decide) (replay_trace h₀)) hidle
    (Store.encloses_alone hm (List.isEmpty_iff.1 himports) htable hentries)
    (fun _ _ _ _ w hw => absurd hw List.not_mem_nil) (replay_trace h₁) (of_decide_eq_true hinside)

end SpaceWasm
