import SpaceWasm.Answers
import SpaceWasm.Containment
import SpaceWasm.Drives
import SpaceWasm.Embedding
import SpaceWasm.Fuel

/-!
# Bystanders of a load

A load changes no code and no module that was there, and writes only to tables and memories
that its module imports. So modules that share none of these with it do afterwards what
they would have done before, whatever they are told to do. There is one exception: an entry
that an earlier load has left when it failed may designate a function of the module that is
added now.
-/

namespace SpaceWasm

open Fallible

variable {η : Type} {floats : FloatOps} {host : HostEnv η} {code code' : CodeBuilder}
  {R : ModuleRef → Prop} {K : MemRef → Prop} {T : TableRef → Prop} {s u : Store}

/-! ### The same code -/

/-- An instruction of a listing is decoded alike wherever the listing is installed. -/
theorem Listing.Holding.decode_eq {L : Listing} {en : Entry} {pages pages' : List TextPage}
    (h : L.Holding pages en) (h' : L.Holding pages' en)
    (hplain : ∀ n, en.instr ≠ .plain (.brTable n)) :
    IrReader.decode pages' (addrOf en.addr) = IrReader.decode pages (addrOf en.addr) ∧
      ∀ n pc, IrReader.decode pages (addrOf en.addr) = .ok (.brTable n) pc → ∀ v,
        IrReader.brTableCase pages' n v pc = IrReader.brTableCase pages n v pc := by
  cases hi : en.instr with
  | plain i =>
      rw [h.decode_plain hi, h'.decode_plain hi]
      refine ⟨rfl, fun n pc heq => ?_⟩
      cases heq
      exact absurd hi (hplain n)
  | if_ l =>
      rw [h.decode_label (f := .if_) (by rw [hi]; rfl) (by rw [hi]; rfl) (fun _ => rfl)
        fun _ => trivial, h'.decode_label (f := .if_) (by rw [hi]; rfl) (by rw [hi]; rfl)
        (fun _ => rfl) fun _ => trivial]
      exact ⟨rfl, fun _ _ => nofun⟩
  | br l =>
      rw [h.decode_label (f := .br) (by rw [hi]; rfl) (by rw [hi]; rfl) (fun _ => rfl)
        fun _ => trivial, h'.decode_label (f := .br) (by rw [hi]; rfl) (by rw [hi]; rfl)
        (fun _ => rfl) fun _ => trivial]
      exact ⟨rfl, fun _ _ => nofun⟩
  | brIf l =>
      rw [h.decode_label (f := .brIf) (by rw [hi]; rfl) (by rw [hi]; rfl) (fun _ => rfl)
        fun _ => trivial, h'.decode_label (f := .brIf) (by rw [hi]; rfl) (by rw [hi]; rfl)
        (fun _ => rfl) fun _ => trivial]
      exact ⟨rfl, fun _ _ => nofun⟩
  | brTable n ls =>
      rw [(h.decode_brTable hi).1, (h'.decode_brTable hi).1]
      refine ⟨rfl, fun m pc heq v => ?_⟩
      cases heq
      obtain ⟨l, hl, hcase⟩ := h.brTableCase hi v
      obtain ⟨l', hl', hcase'⟩ := h'.brTableCase hi v
      obtain rfl := Option.some.inj (hl.symm.trans hl')
      rw [hcase, hcase']

/-- A table of labels is written by a `br_table` only. -/
theorem Context.Emits.ne_brTable {ctx : Context} {w : WasmInstr} {i : IrInstr}
    {ins outs : List ValType} (h : ctx.Emits w i ins outs) (n : U32) : i ≠ .brTable n := by
  rintro rfl
  generalize hi : IrInstr.brTable n = i at h
  cases h with
  | @call _ ref => cases ref <;> cases hi
  | @globalGet _ g => cases hg : g.reference <;> rw [hg] at hi <;> cases hi
  | @globalSet _ g => cases hg : g.reference <;> rw [hg] at hi <;> cases hi
  | _ => cases hi

variable {e e' t t' : Engine η} {a : Activation} {rest : List Activation} {n : ℕ}

/-- What a running engine decodes stays the same when code is added. -/
theorem Engine.Running.decode_extends (hrun : e.Running e.store code a rest n)
    (hext : code.Extends code') :
    IrReader.decode code'.pages e.pc = IrReader.decode code.pages e.pc ∧
      ∀ n pc, IrReader.decode code.pages e.pc = .ok (.brTable n) pc → ∀ v,
        IrReader.brTableCase code'.pages n v pc = IrReader.brTableCase code.pages n v pc := by
  obtain ⟨m, ctx, L, i, hbody, hi, en, hen, rfl, hheight⟩ := hrun.at_
  have hleads := hbody.compiled.heighted.leads en hen n hheight
  rw [hi]
  refine ((hbody.compiled.installed code (.refl code)).holding en hen).decode_eq
    ((hbody.compiled.installed code' hext).holding en hen) fun k heq => ?_
  unfold Listing.Leads at hleads
  rw [heq] at hleads
  rcases hleads with ⟨w, ins, outs, hemits, -, -⟩ | hunreachable | ⟨hreturn, -⟩
  · exact hemits.ne_brTable k rfl
  · cases hunreachable
  · obtain ⟨size, hsize, -⟩ := Asm.instrReturn_eq ctx.returnTy
    rw [hsize] at hreturn
    cases hreturn

/-! ### Modules that are set apart -/

/-- The modules in `R` are there, and their code reaches no others that are. They use the
memories in `K` and the tables in `T`. -/
structure Store.SetsApart (s : Store) (R : ModuleRef → Prop) (K : MemRef → Prop)
    (T : TableRef → Prop) : Prop where
  there : ∀ r, R r → (s.module? r).isSome
  closed : ∀ r q, R r → s.MayCall r q → R q ∨ s.module? q = none
  memory : ∀ r mem, R r → s.getMemory r = some mem → K mem
  table : ∀ r table, R r → s.getTable r = some table → T table

/-- A module in `R`, or none at all. -/
def Store.Inner (s : Store) (R : ModuleRef → Prop) (r : ModuleRef) : Prop :=
  R r ∨ s.module? r = none

theorem Store.SetsApart.encloses (h : s.SetsApart R K T) : s.Encloses (s.Inner R) := by
  rintro r q (hr | hr) hcall
  · exact h.closed r q hr hcall
  · rcases hcall with rfl | ⟨m, x, y, hm, -⟩ | ⟨table, entries, y, htable, -⟩
    · exact .inr hr
    · rw [hr] at hm
      cases hm
    · rw [Store.getTable, hr] at htable
      cases htable

theorem Store.Inner.of_runs (hruns : s.Runs u) {r : ModuleRef} (h : s.Inner R r) : u.Inner R r :=
  h.imp_right fun hr => hruns.module?_none hr

theorem Store.SetsApart.runs (h : s.SetsApart R K T) (hruns : s.Runs u) : u.SetsApart R K T where
  there r hr := by
    obtain ⟨m, hm⟩ := Option.isSome_iff_exists.1 (h.there r hr)
    obtain ⟨m', hm', -⟩ := hruns.module?_of r hm
    exact Option.isSome_iff_exists.2 ⟨m', hm'⟩
  closed r q hr hcall := (h.closed r q hr (hruns.mayCall hcall)).imp_right fun hq =>
    hruns.module?_none hq
  memory r mem hr hmem := h.memory r mem hr (hruns.getMemory r ▸ hmem)
  table r table hr htable := h.table r table hr (hruns.getTable r ▸ htable)

/-- Two engines, the second one in a larger store and with more code, which run code of
modules that are set apart. The larger store was `u` before. -/
structure Engine.Pairs (R : ModuleRef → Prop) (K : MemRef → Prop) (T : TableRef → Prop)
    (host : HostEnv η) (code code' : CodeBuilder) (u : Store) (e e' : Engine η) : Prop where
  safe : e.Safe host code
  safe' : e'.Safe host code'
  embeds : e.Embeds K T e'
  apart : e.store.SetsApart R K T
  enclosed : e.Enclosed code (e.store.Inner R)
  runs : u.Runs e'.store

theorem Store.Runs.func? (h : s.Runs u) (f : WasmRef) : u.func? f = s.func? f :=
  h.module?_bind f.module _ fun _ _ => rfl

namespace Engine

theorem Enclosed.mono {R' : ModuleRef → Prop} (h : e.Enclosed code R) (hR : ∀ r, R r → R' r) :
    e.Enclosed code R' := by
  rcases h with hrest | ⟨a, rest, n, hrun, hin⟩
  · exact .inl hrest
  · exact .inr ⟨a, rest, n, hrun, fun b hb => hR _ (hin b hb)⟩

/-- The engine comes to a call through the table, of an entry for a function that is missing
in its store, but there in `u`. -/
def Strays (e : Engine η) (code : CodeBuilder) (u : Store) : Prop :=
  e.isIdle = false ∧ e.hostPauseResult = none ∧ ∃ x stop entries r y,
    IrReader.decode code.pages e.pc = .ok (.callIndirect x) stop ∧
    e.store.tables[e.table]? = some entries ∧ entries[e.top.toNat]? = some (.func r y) ∧
    e.store.func? ⟨r, y⟩ = none ∧ (u.func? ⟨r, y⟩).isSome

theorem Embeds.pc (h : e.Embeds K T e') : e'.pc = e.pc := by
  obtain ⟨u, rfl, -⟩ := h
  rfl

theorem Embeds.pause (h : e.Embeds K T e') : e'.hostPauseResult = e.hostPauseResult := by
  obtain ⟨u, rfl, -⟩ := h
  rfl

/-- A pop without an operand. -/
theorem pop_bind_panics {β : Type} (hsp : ¬(1 ≤ e.sp ∧ e.sp ≤ e.stack.words.length))
    {f : Engine η → U32 → ExecM η β} :
    (dropSp 1 >>= fun _ => get >>= fun v => readWord v.sp >>= fun w => f v w) e = .panic := by
  by_cases hpos : 1 ≤ e.sp
  · have hdrop := dropSp_withStack e (s := e.sp) e.stack.touched (l := e.stack.words) hpos
    have hword : e.stack.words[e.sp - 1]? = none := List.getElem?_eq_none_iff.2 (by omega)
    rw [withStack_self] at hdrop
    rw [bind_of_ok hdrop, bind_of_ok (get_apply _)]
    unfold readWord
    rw [bind_apply, bind_of_ok (get_apply _)]
    simp only [withStack, hword]
    rfl
  · have hbelow : (spBelow 1 : ExecM η ℕ) e = .panic := by
      unfold spBelow
      rw [bind_of_ok (get_apply e), show assert (1 ≤ e.sp) = panic from if_neg hpos]
      rfl
    unfold dropSp
    rw [bind_apply, bind_apply, hbelow]

/-- A call through the table of an entry for a function that does not exist. -/
theorem callIndirect_dangling (env : ExecEnv η) (x : Idx) (hdead : ¬e.CalleeLive) :
    Interpreter.callIndirect env x e = .panic := by
  obtain ⟨entries, y, hentries, hy, hdead⟩ : ∃ entries y, e.store.tables[e.table]? = some entries ∧
      entries[e.top.toNat]? = some y ∧ ¬e.store.EntryLive y := by
    simpa only [CalleeLive, not_forall, exists_prop] using hdead
  unfold Interpreter.callIndirect
  by_cases hsp : 1 ≤ e.sp ∧ e.sp ≤ e.stack.words.length
  · rw [pop_bind hsp.1 hsp.2]
    dsimp only
    cases e.store.module? e.module with
    | none => rfl
    | some m =>
        rw [unwrap_some, pure_bind]
        cases m.types[x]? with
        | none => rfl
        | some ty =>
            rw [unwrap_some, pure_bind, hentries, unwrap_some, pure_bind, hy]
            cases y with
            | uninitialized => exact absurd trivial hdead
            | func r y =>
                dsimp only
                cases hfm : e.store.module? r with
                | none => rfl
                | some fm =>
                    have hf : fm.functions[y.toNat]? = none := by
                      simpa [Store.EntryLive, Store.func?, hfm] using hdead
                    rw [unwrap_some, pure_bind, hf]
                    rfl
            | host r y =>
                dsimp only
                cases hhm : e.store.hostModule? r with
                | none => rfl
                | some hm =>
                    have hf : hm.functions[y.toNat]? = none :=
                      Option.eq_none_iff_forall_ne_some.2 fun f hf => hdead ⟨hm, f, hhm, hf⟩
                    rw [unwrap_some, pure_bind, hf]
                    rfl
  · exact pop_bind_panics hsp

theorem runRound_dangling {env : ExecEnv η} (hpc : e.pc ≠ JumpTarget.sentinel) {x : Idx}
    {stop : JumpTarget} (hdecode : IrReader.decode env.code e.pc = .ok (.callIndirect x) stop)
    (hdead : ¬e.CalleeLive) : runRound env e = none := by
  unfold runRound
  rw [if_neg hpc, hdecode]
  dsimp only [Interpreter.exec]
  rw [bind_apply, callIndirect_dangling env x hdead]

namespace Pairs

variable (h : Pairs R K T host code code' u e e')

include h

/-- A module in which the engine is has the memory and the table of the engine. -/
theorem sees (hrun : e.Running e.store code a rest n) (hin : e.store.Inner R a.module) :
    e.Sees K T e' := by
  have hcoherent := h.safe.coherent hrun.at_.ne_sentinel
  obtain ⟨m, ctx, L, i, hbody, -⟩ := hrun.at_
  have hR : R e.module := by
    rw [hrun.module]
    refine hin.resolve_right fun hnone => ?_
    have hm := hbody.module
    rw [hnone] at hm
    cases hm
  obtain ⟨v, heq, hv⟩ := h.embeds
  exact ⟨v, heq, hv, h.apart.memory _ _ hR hcoherent.memory, fun mem hmem =>
    h.apart.memory _ _ hR ((Store.getMemoryMut_eq _ _).symm.trans hmem),
    h.apart.table _ _ hR hcoherent.table⟩

variable (hext : code.Extends code') (hhost : host.LooksWithin K)

include hext hhost

/-- What a round does, it does beside the new module too. -/
theorem round (hpause : e.hostPauseResult = none) {r : RoundResult}
    (hround : runRound ⟨code.pages, floats, host⟩ e = some (r, t)) :
    ∃ t', runRound ⟨code'.pages, floats, host⟩ e' = some (r, t') ∧
      Pairs R K T host code code' u t t' ∧ (r = none → t.hostPauseResult = none) := by
  have hpause' : e'.hostPauseResult = none := h.embeds.pause.trans hpause
  have hpairs : ∀ t', runRound ⟨code'.pages, floats, host⟩ e' = some (r, t') → t.Embeds K T t' →
      Pairs R K T host code code' u t t' := by
    intro t' hround' ht'
    obtain ⟨hconfined, henclosed⟩ := h.safe.round_confined (P := fun _ => True) hpause
      h.apart.encloses h.enclosed (fun _ _ _ _ _ _ => trivial) hround
    exact ⟨(h.safe.round hpause hround).1, (h.safe'.round hpause' hround').1, ht',
      h.apart.runs hconfined.runs, henclosed.mono fun _ => .of_runs hconfined.runs,
      h.runs.trans (runRound_continues hround').runs⟩
  have hfree := (h.safe.round hpause hround).2.1
  rcases h.enclosed with hrest | ⟨a, rest, n, hrun, hin⟩
  · rw [runRound_idle hrest.pc] at hround
    cases hround
    have hidle : runRound ⟨code'.pages, floats, host⟩ e' = some (some .finished, e') :=
      runRound_idle (h.embeds.pc.trans hrest.pc)
    exact ⟨e', hidle, hpairs e' hidle h.embeds, hfree⟩
  · obtain ⟨hdecode, hcase⟩ := hrun.decode_extends hext
    have hhost : (ExecEnv.mk code.pages floats host).host.LooksWithin K := hhost
    have hsees := h.sees hrun (hin a List.mem_cons_self)
    obtain ⟨t', hround', ht'⟩ := runRound_embeds hhost hsees hdecode hcase hround
    exact ⟨t', hround', hpairs t' hround' ht', hfree⟩

omit hhost in
/-- A round that is undefined is so beside the new module too, unless it comes to a function
of that module. -/
theorem round_none (hpause : e.hostPauseResult = none)
    (hround : runRound ⟨code.pages, floats, host⟩ e = none) (hstrays : ¬e.Strays code u) :
    runRound ⟨code'.pages, floats, host⟩ e' = none := by
  rcases h.enclosed with hrest | ⟨a, rest, n, hrun, hin⟩
  · rw [runRound_idle hrest.pc] at hround
    cases hround
  · have hpc := hrun.at_.ne_sentinel
    obtain ⟨x, stop, hdecode, hdead⟩ : ∃ x stop,
        IrReader.decode code.pages e.pc = .ok (.callIndirect x) stop ∧ ¬e.CalleeLive := by
      rcases hrun.round (.refl e) (h.safe.ready hpc hpause) with
        ⟨r, t, -, hround', -⟩ | ⟨⟨i, stop, hdecode, x, rfl⟩, hdead, -⟩
      · rw [hround] at hround'
        cases hround'
      · exact ⟨x, stop, hdecode, hdead⟩
    have hdecode' := (hrun.decode_extends hext).1.trans hdecode
    rw [← h.embeds.pc] at hdecode'
    refine runRound_dangling (h.embeds.pc ▸ hpc) hdecode' fun hlive => hdead ?_
    intro entries y hentries hy
    have hruns := h.runs.func?
    obtain ⟨v, rfl, hv⟩ := h.sees hrun (hin a List.mem_cons_self)
    have hv : e.context.Sees K T v := hv
    have hentry := hlive entries y ((hv.embeds.table _ hv.table).trans hentries) hy
    cases y with
    | uninitialized => exact trivial
    | host r z =>
        obtain ⟨hm, f, hhm, hf⟩ := hentry
        exact ⟨hm, f, (hv.embeds.hostModule? r).symm.trans hhm, hf⟩
    | func r z =>
        refine Option.ne_none_iff_isSome.1 fun hmissing => hstrays ?_
        exact ⟨decide_eq_false hpc, hpause, x, stop, entries, r, z, hdecode, hentries, hy, hmissing,
          hruns ⟨r, z⟩ ▸ hentry⟩

omit hext hhost in
variable (floats) in
/-- A round that comes to a function of the new module is undefined without it, and not with
it. -/
theorem round_strays (hstrays : e.Strays code u) :
    runRound ⟨code.pages, floats, host⟩ e = none ∧
      ∃ r t', runRound ⟨code'.pages, floats, host⟩ e' = some (r, t') := by
  obtain ⟨hidle, hpause, x, stop, entries, r, y, hdecode, hentries, hy, hmissing, hthere⟩ := hstrays
  have hpc := of_decide_eq_false hidle
  refine ⟨runRound_dangling hpc hdecode fun hlive => ?_, ?_⟩
  · have hentry : (e.store.func? ⟨r, y⟩).isSome := hlive entries _ hentries hy
    rw [hmissing] at hentry
    cases hentry
  · have hpc' := fun heq => hpc (h.embeds.pc.symm.trans heq)
    obtain ⟨a', rest', n', hrun'⟩ := h.safe'.sited.running hpc'
    rcases hrun'.round (.refl e') (h.safe'.ready hpc' (h.embeds.pause.trans hpause)) with
      ⟨r, t', -, hround, -⟩ | ⟨-, hdead, -⟩
    · exact ⟨r, t', hround⟩
    · refine absurd (fun entries' z hentries' hz => ?_) hdead
      rcases h.enclosed with hrest | ⟨a, rest, n, hrun, hin⟩
      · exact absurd hrest.pc hpc
      · have hruns := h.runs.func?
        obtain ⟨v, rfl, hv⟩ := h.sees hrun (hin a List.mem_cons_self)
        have hv : e.context.Sees K T v := hv
        obtain rfl := Option.some.inj (hentries.symm.trans ((hv.embeds.table _ hv.table).symm.trans
          hentries'))
        obtain rfl := Option.some.inj (hy.symm.trans hz)
        exact (congrArg Option.isSome (hruns ⟨r, y⟩)).trans hthere

/-- A run in a pair of engines. -/
theorem run (hpause : e.hostPauseResult = none) {k : ℕ} {r : InterpreterResult}
    (hrun : SpaceWasm.run ⟨code.pages, floats, host⟩ k e = some (r, t)) :
    ∃ t', SpaceWasm.run ⟨code'.pages, floats, host⟩ k e' = some (r, t') ∧
      Pairs R K T host code code' u t t' ∧ (r = .outOfFuel → t.hostPauseResult = none) := by
  refine boundedRun_simulates
    (R := fun e e' => Pairs R K T host code code' u e e' ∧ e.hostPauseResult = none)
    (Q := fun r e e' => Pairs R K T host code code' u e e' ∧
      (r = .outOfFuel → e.hostPauseResult = none)) (fun _ _ h => ⟨h.1, fun _ => h.2⟩) ?_
    ⟨h, hpause⟩ hrun
  rintro e e' r t ⟨h, hpause⟩ hround
  obtain ⟨t', hround', ht, hfree⟩ := h.round hext hhost hpause hround
  refine ⟨t', hround', ?_⟩
  cases r with
  | none => exact ⟨ht, hfree rfl⟩
  | some r => exact ⟨ht, fun heq => absurd heq (runRound_ne_outOfFuel _ _ _ _ hround)⟩

/-- A run that is undefined without the new module comes to a function of that module, or it
is undefined with it too. -/
theorem run_none (hpause : e.hostPauseResult = none) {n : ℕ}
    (hrun : SpaceWasm.run ⟨code.pages, floats, host⟩ n e = none) :
    SpaceWasm.run ⟨code'.pages, floats, host⟩ n e' = none ∨
      ∃ k v, SpaceWasm.run ⟨code.pages, floats, host⟩ k e = some (.outOfFuel, v) ∧
        v.Strays code u := by
  obtain ⟨k, m, v, rfl, hv, hround⟩ := boundedRun_undefined hrun
  obtain ⟨v', hv', hpairs, hfree⟩ := h.run hext hhost hpause hv
  by_cases hstrays : v.Strays code u
  · exact .inr ⟨k, v, hv, hstrays⟩
  · left
    have hround' : runRound ⟨code'.pages, floats, host⟩ v' = none :=
      hpairs.round_none hext (hfree rfl) hround hstrays
    unfold SpaceWasm.run at hv' ⊢
    rw [boundedRun_add_of_timeout (m + 1) (runRound_ne_outOfFuel _) hv', boundedRun, hround']

end Pairs

/-! ### Drives -/

/-- The command abides by the protocol, and starts no function of a module outside of `R`. -/
def Command.Inside (R : ModuleRef → Prop) (e : Engine η) (c : Command) : Prop :=
  c.Allowed e ∧ ∀ f params, c = .invoke f params → R f.module

instance [DecidablePred R] (e : Engine η) : (c : Command) → Decidable (c.Inside R e)
  | .invoke f params =>
      if hR : R f.module then .isTrue ⟨trivial, fun _ _ heq => by cases heq; exact hR⟩
      else .isFalse fun h => hR (h.2 f params rfl)
  | .run _ => decidable_of_iff (e.hostPauseResult = none) ⟨fun h => ⟨h, nofun⟩, And.left⟩
  | .resume _ | .reset => .isTrue ⟨trivial, nofun⟩

theorem Embeds.inside_iff (h : e.Embeds K T e') (c : Command) : c.Inside R e' ↔ c.Inside R e := by
  cases c with
  | run => exact and_congr_left fun _ => Eq.congr_left h.pause
  | _ => exact Iff.rfl

theorem answer_covers {ε : Type} {f : Except ε Unit → Reply} {Q : Engine η → Engine η → Prop}
    {o o' : Outcome ε (Engine η) Unit} (h : o.Covers Q Q o') {r : Reply}
    (ho : answer f o = some (r, t)) : ∃ t', answer f o' = some (r, t') ∧ Q t t' := by
  cases h with
  | ok h =>
      cases ho
      exact ⟨_, rfl, h⟩
  | error h =>
      cases ho
      exact ⟨_, rfl, h⟩
  | panic | diverge => cases ho

/-- Every engine is in some modules. -/
theorem Safe.enclosed (h : e.Safe host code) : e.Enclosed code fun _ => True :=
  h.sited.imp_right fun ⟨a, rest, n, hrun⟩ => ⟨a, rest, n, hrun, fun _ _ => trivial⟩

/-- A command that is no run changes nothing in the store. -/
theorem Command.still (h : e.Safe host code) (hin : e.Enclosed code R) {c : Command}
    (hrun : ∀ n, c ≠ .run n) (hinvoke : ∀ f params, c = .invoke f params → R f.module) {r : Reply}
    (hperform : c.perform ⟨code.pages, floats, host⟩ e = some (r, t)) :
    t.store = e.store ∧ t.Enclosed code R := by
  cases c with
  | invoke f params =>
      rcases answer_eq_some hperform with ⟨-, hok⟩ | ⟨err, -, herr⟩
      · exact h.invoke_confined (hinvoke f params rfl) hok
      · exact h.invokeRejected_confined hin herr
  | run fuel => exact absurd rfl (hrun fuel)
  | resume v =>
      rcases answer_eq_some hperform with ⟨-, hok⟩ | ⟨err, -, herr⟩
      · refine ⟨?_, (h.resume_confined (P := fun _ => True) hin hok).2⟩
        obtain ⟨-, -, -, as, -, -, -, rfl⟩ := h.resume hok
        rfl
      · obtain rfl := resume_rejected herr
        exact ⟨rfl, hin⟩
  | reset =>
      cases hperform
      exact ⟨rfl, .inl ⟨rfl, rfl, rfl, rfl, rfl⟩⟩

namespace Pairs

variable (h : Pairs R K T host code code' u e e') (hext : code.Extends code')
  (hhost : host.LooksWithin K) {c : Command} {r : Reply}

include h hext hhost

/-- A command to the code of these modules does the same beside the new one. -/
theorem perform (hc : c.Inside R e)
    (hperform : c.perform ⟨code.pages, floats, host⟩ e = some (r, t)) :
    ∃ t', c.perform ⟨code'.pages, floats, host⟩ e' = some (r, t') ∧
      Pairs R K T host code code' u t t' := by
  have hpairs : (∀ n, c ≠ .run n) →
      (∃ t', c.perform ⟨code'.pages, floats, host⟩ e' = some (r, t') ∧ t.Embeds K T t') →
      ∃ t', c.perform ⟨code'.pages, floats, host⟩ e' = some (r, t') ∧
        Pairs R K T host code code' u t t' := by
    rintro hrun ⟨t', hperform', ht⟩
    obtain ⟨hstore, henclosed⟩ := Command.still h.safe h.enclosed hrun
      (fun f params hf => .inl (hc.2 f params hf)) hperform
    obtain ⟨hstore', -⟩ := Command.still h.safe' h.safe'.enclosed hrun
      (fun _ _ _ => trivial) hperform'
    exact ⟨t', hperform', Command.safe h.safe hc.1 hperform,
      Command.safe h.safe' ((h.embeds.inside_iff c).2 hc).1 hperform', ht, hstore ▸ h.apart,
      hstore ▸ henclosed, hstore' ▸ h.runs⟩
  cases c with
  | invoke f params =>
      exact hpairs (fun _ h => by cases h)
        (answer_covers (follows_invoke f params e e' h.embeds) hperform)
  | run fuel =>
      obtain ⟨⟨res, w⟩, hrun, heq⟩ := Option.map_eq_some_iff.1 hperform
      cases heq
      obtain ⟨t', hrun', ht, -⟩ := h.run hext hhost hc.1 hrun
      exact ⟨t', by rw [Command.perform, hrun']; rfl, ht⟩
  | resume v =>
      exact hpairs (fun _ h => by cases h)
        (answer_covers (follows_resume v e e' h.embeds) hperform)
  | reset =>
      cases hperform
      exact hpairs (fun _ h => by cases h) ⟨e'.reset, rfl, h.embeds.reset⟩

/-- A command that has no reply without the new module comes to a function of that module, or
it has none with it either. -/
theorem perform_none (hc : c.Inside R e)
    (hperform : c.perform ⟨code.pages, floats, host⟩ e = none) :
    c.perform ⟨code'.pages, floats, host⟩ e' = none ∨
      ∃ k v, Command.Inside R e (.run k) ∧
        SpaceWasm.run ⟨code.pages, floats, host⟩ k e = some (.outOfFuel, v) ∧ v.Strays code u := by
  cases c with
  | invoke f params =>
      left
      obtain ⟨m, hm⟩ := Option.isSome_iff_exists.1 (h.apart.there _ (hc.2 f params rfl))
      have hbeyond : m.functions[f.index.toNat]? = none := by
        refine List.getElem?_eq_none_iff.2 (Nat.le_of_not_lt fun hlt => ?_)
        rcases h.safe.invoke_answers hm hlt params with ⟨t, hok⟩ | ⟨err, t, herr⟩
        · rw [Command.perform, hok] at hperform
          cases hperform
        · rw [Command.perform, herr] at hperform
          cases hperform
      have hpc : e'.pc = JumpTarget.sentinel := by
        refine h.embeds.pc.trans (Decidable.not_not.1 fun hpc => ?_)
        rw [Command.perform, invoke_busy hpc] at hperform
        cases hperform
      rw [Command.perform]
      by_cases hpanic : SpaceWasm.invoke f params e' = .panic
      · rw [hpanic, answer]
      · obtain ⟨m', func, ty, hm', hfunc, -⟩ := invoke_exists (h.safe'.sited.idle hpc) hpanic
        obtain ⟨v, rfl, hv⟩ := h.embeds
        have hv : e.store.Embeds K T v := hv
        obtain rfl := Option.some.inj ((hv.module? hm).symm.trans hm')
        rw [hbeyond] at hfunc
        cases hfunc
  | run fuel =>
      have hrun : SpaceWasm.run ⟨code.pages, floats, host⟩ fuel e = none :=
        Option.map_eq_none_iff.1 hperform
      rcases h.run_none hext hhost hc.1 hrun with
        hnone | ⟨k, v, hv, hstrays⟩
      · exact .inl (Option.map_eq_none_iff.2 hnone)
      · exact .inr ⟨k, v, ⟨hc.1, fun _ _ h => by cases h⟩, hv, hstrays⟩
  | resume v =>
      rcases h.safe.resume_answers v with ⟨t, hok⟩ | ⟨err, t, herr⟩
      · rw [Command.perform, hok] at hperform
        cases hperform
      · rw [Command.perform, herr] at hperform
        cases hperform
  | reset => cases hperform

end Pairs

/-- Commands to the code of the modules in `R` do the same in both engines. -/
structure Unaffected (R : ModuleRef → Prop) (K : MemRef → Prop) (T : TableRef → Prop)
    (env env' : ExecEnv η) (e e' : Engine η) : Prop where
  /-- What the first one does, the second one does. -/
  same : ∀ cs t, Drive (fun e c => c.Inside R e) env e cs t →
    ∃ t', Drive (fun e c => c.Inside R e) env' e' cs t' ∧ t.Embeds K T t'
  /-- It does nothing else. -/
  only : ∀ cs t', Drive (fun e c => c.Inside R e) env' e' cs t' →
    ∃ t, Drive (fun e c => c.Inside R e) env e cs t ∧ t.Embeds K T t'

theorem Drive.pairs {cs : List (Command × Reply)}
    (hd : Drive (fun e c => c.Inside R e) ⟨code.pages, floats, host⟩ e cs t)
    (h : Pairs R K T host code code' u e e') (hext : code.Extends code')
    (hhost : host.LooksWithin K) :
    ∃ t', Drive (fun e c => c.Inside R e) ⟨code'.pages, floats, host⟩ e' cs t' ∧
      Pairs R K T host code code' u t t' := by
  induction hd generalizing e' with
  | nil => exact ⟨e', .nil e', h⟩
  | cons hc hperform _ ih =>
      obtain ⟨v, hv, hpairs⟩ := h.perform hext hhost hc hperform
      obtain ⟨t', hdrive, ht⟩ := ih hpairs
      exact ⟨t', .cons ((h.embeds.inside_iff _).2 hc) hv hdrive, ht⟩

/-- The engine in the larger store does the same and nothing else exactly if the other one
never comes to a function of the new module. -/
theorem Pairs.unaffected_iff (h : Pairs R K T host code code' u e e') (hext : code.Extends code')
    (hhost : host.LooksWithin K) :
    Unaffected R K T ⟨code.pages, floats, host⟩ ⟨code'.pages, floats, host⟩ e e' ↔
      ∀ cs t, Drive (fun e c => c.Inside R e) ⟨code.pages, floats, host⟩ e cs t →
        ¬t.Strays code u := by
  constructor
  · intro hunaffected cs t hd hstrays
    obtain ⟨t', hd', ht⟩ := hd.pairs h hext hhost
    obtain ⟨hnone, r, w, hround⟩ := ht.round_strays floats hstrays
    obtain ⟨res, hrun⟩ : ∃ res, SpaceWasm.run ⟨code'.pages, floats, host⟩ 1 t' = some (res, w) := by
      unfold SpaceWasm.run
      rw [boundedRun, hround]
      cases r with
      | none => exact ⟨_, rfl⟩
      | some res => exact ⟨res, rfl⟩
    have hinside : Command.Inside R t' (.run 1) :=
      ⟨ht.embeds.pause.trans hstrays.2.1, fun _ _ h => by cases h⟩
    have hone : Drive (fun e c => c.Inside R e) ⟨code'.pages, floats, host⟩ t'
        [(.run 1, .ran res)] w :=
      .cons hinside (by rw [Command.perform, hrun]; rfl) (.nil w)
    obtain ⟨v, hv, -⟩ := hunaffected.only _ _ (hd'.append hone)
    cases hd.append_inv hv with
    | cons _ hperform _ =>
        have hpanics : SpaceWasm.run ⟨code.pages, floats, host⟩ 1 t = none := by
          unfold SpaceWasm.run
          rw [boundedRun, hnone]
        rw [Command.perform, hpanics] at hperform
        cases hperform
  · intro hstrays
    refine ⟨fun cs t hd => ?_, fun cs t' hd => ?_⟩
    · obtain ⟨t', hd', ht⟩ := hd.pairs h hext hhost
      exact ⟨t', hd', ht.embeds⟩
    · generalize henv : (⟨code'.pages, floats, host⟩ : ExecEnv η) = env' at hd
      induction hd generalizing e with
      | nil e' => exact ⟨e, .nil e, h.embeds⟩
      | @cons e' v' t' c r cs hc hperform _ ih =>
          subst henv
          have hc := (h.embeds.inside_iff c).1 hc
          cases hleft : c.perform ⟨code.pages, floats, host⟩ e with
          | some p =>
              obtain ⟨r₁, v⟩ := p
              obtain ⟨v₁, hv₁, hpairs⟩ := h.perform hext hhost hc hleft
              rw [hperform] at hv₁
              cases hv₁
              obtain ⟨t, hd, ht⟩ := ih hpairs fun cs t hd => hstrays _ t (.cons hc hleft hd)
              exact ⟨t, .cons hc hleft hd, ht⟩
          | none =>
              rcases h.perform_none hext hhost hc hleft with hnone | ⟨k, v, hinside, hrun, hv⟩
              · rw [hperform] at hnone
                cases hnone
              · exact absurd hv (hstrays _ v (.cons hinside (by rw [Command.perform, hrun]; rfl)
                  (.nil v)))

end Engine

end SpaceWasm
