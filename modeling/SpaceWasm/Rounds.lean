import SpaceWasm.Branching

/-!
# Rounds

A round of a running engine decodes the instruction of its function at the program
counter and executes it. The heights of the listing say that the instruction finds its
operands on the stack and where it leads, whatever it is: an instruction that stays in
the activation, a branch, a call or a return.
-/

namespace SpaceWasm

open Fallible

variable {η : Type} {s : Store} {code : CodeBuilder} {env : ExecEnv η} {a : Activation}
  {rest : List Activation} {h : ℕ} {e e' : Engine η} {safe : Prop} {next : JumpTarget}
  {m : Module} {ctx : Context} {L : Listing} {d : ℕ}

/-- Every entry of a table designates a function of the store or of the host. -/
def Store.EntryLive (s : Store) : TableElement → Prop
  | .func r index => (s.func? ⟨r, index⟩).isSome
  | .host r index => ∃ hm f, s.hostModule? r = some hm ∧ hm.functions[index.toNat]? = some f
  | .uninitialized => True

def Store.TablesLive (s : Store) : Prop := ∀ entries ∈ s.tables, ∀ x ∈ entries, s.EntryLive x

/-- The entry that a call through the table would look up is one for a function that exists. -/
def Engine.CalleeLive (e : Engine η) : Prop :=
  ∀ entries x, e.store.tables[e.table]? = some entries → entries[e.top.toNat]? = some x →
    e.store.EntryLive x

theorem Store.TablesLive.calleeLive {e : Engine η} (h : e.store.TablesLive) : e.CalleeLive :=
  fun _ x hentries hx => h _ (List.mem_of_getElem? hentries) x (List.mem_of_getElem? hx)

theorem Store.Linked.getTable_lt (hs : s.Linked) {r : ModuleRef} {table : TableRef}
    (h : s.getTable r = some table) : table < s.tables.length := by
  obtain ⟨m, hm, h⟩ := Option.bind_eq_some_iff.1 h
  have hsound := hs.module hm
  cases hkind : m.table with
  | none =>
      rw [hkind] at h
      cases h
      exact hs.zeroTable
  | some kind =>
      rw [hkind] at h
      obtain ⟨t, ht, hlt⟩ := hsound.table kind hkind
      cases kind with
      | owned table ty =>
          cases h
          cases ht
          exact hlt
      | import_ | importHost =>
          obtain rfl := Option.some.inj (ht.symm.trans h)
          exact hlt

/-! ### Instructions without branches -/

/-- A call through a table. -/
def IrInstr.CallsIndirect (i : IrInstr) : Prop := ∃ x, i = .callIndirect x

/-- A trap at once. -/
theorem Engine.Matches.throws (hm : e.Matches e') (hpause : e.hostPauseResult = none)
    {reason : TrapReason} (h : reason ≠ .malformedIr) :
    Breaks d s code a rest e next (.trap reason) e e' :=
  .trap h hpause hm.beside hm.length ⟨rfl, fun _ _ => rfl, [], rfl, fun _ hi => by cases hi⟩

/-- An instruction on a global of the current module. -/
theorem Engine.Matches.ownModule (hm : e.Matches e') {x : ModuleRef → ExecM η Unit} {r : ModuleRef}
    (hr : e.module = r)
    (hx : Executes safe d s code a rest e e' next next (x r >>= fun _ => pure next)) :
    Executes safe d s code a rest e e' next next
      (get >>= fun u => x u.module >>= fun _ => pure next) := by
  unfold Executes at hx ⊢
  rw [bind_of_ok (get_apply e), bind_of_ok (get_apply e'), hm.module, hr]
  exact hx

/-- The memory of the current module. -/
theorem Engine.Ready.memory (hr : e.Ready env code) :
    ∃ m, e.store.memories[e.memory]? = some m :=
  ⟨_, List.getElem?_eq_getElem (hr.linked.getMemory_lt hr.coherent.memory)⟩

section Plain

variable (hw : e.Within e.store code a rest h) (hm : e.Matches e') (hr : e.Ready env code)
  (hbody : a.Body e.store code m ctx L)

include hw hm hr

/-- A call of a host function. -/
theorem Engine.Within.callsHost {r : HostModuleRef} {x : U16} {hostModule : HostModule}
    {f : HostFunction} (hmodule : e.store.hostModule? r = some hostModule)
    (hf : hostModule.functions[x.toNat]? = some f) (hle : wordsOf f.params ≤ h)
    (hat : a.IsAt e.store code next (h - wordsOf f.params + f.returns.words)) :
    Executes safe d e.store code a rest e e' next next
      (Interpreter.callHost env r x >>= fun _ => pure next) := by
  have hsp := hw.sp
  have hcall : Coupled safe (Twins _ _ _ e.besideStack _ _) _ _ _ _ :=
    Interpreter.callHost_works hw.high_le hm.length env hmodule hf
      (fun args v => hr.host.call ⟨r, x⟩ hostModule f _ args _ v hmodule hf)
    hr.pause (hw.room hle hat.le)
  refine Coupled.bind (hcall.weaken id (fun _ _ h => h) (fun _ _ _ h => h) fun b t t' hb => ?_)
    (fun _ => .pure fun _ _ ht => hw.stays hm hr.pause ht (by omega) hat) _ _ (Twins.start _ hm)
  rcases hb with hb | hb
  · exact hm.traps (hr.pause ▸ hb)
  · exact hw.pauses hm hb (by omega) (by omega) hat

include hbody

theorem Engine.Within.call {x : Idx} {ref : Ref} {ty : FuncType}
    (hx : ctx.func? x = some (ref, ty)) (hle : wordsOf ty.params ≤ h)
    (hpc : e.pc ≠ JumpTarget.sentinel) (hnext : next = e.pc + 2)
    (hat : a.IsAt e.store code next (h - wordsOf ty.params + wordsOf ty.returns)) :
    Executes safe d e.store code a rest e e' next next
      (Interpreter.exec env (Asm.callInstr ref) next) := by
  have hty := hbody.compiled.describes.func x ref ty hx
  have hdeclared : ∀ {r : ModuleRef} {fm : Module} {f : Func}, e.store.module? r = some fm →
      f ∈ fm.functions → fm.types[f.ty]? = some ty → f.Declared fm.types ty := by
    intro r fm f hfm hf hfty
    obtain ⟨ty', hty'⟩ := (hr.coded fm (List.mem_of_getElem? hfm)).declared f hf
    obtain rfl := Option.some.inj (hty'.type.symm.trans hfty)
    exact hty'
  cases ref with
  | module index =>
      obtain ⟨f, hf, hfty⟩ := Option.bind_eq_some_iff.1 hty
      have hmodule : e.store.module? e.module = some m := hw.module ▸ hbody.module
      have hcalls : Executes safe d e.store code a rest e e' next next _ :=
        hw.calls hm hr hmodule hf
        (hdeclared hmodule (List.mem_of_getElem? hf) hfty) hle hpc (.inl hw.module) (hnext ▸ hat)
      have hown : ∀ u : Engine η, u.module = e.module →
          callImplEnterModule ⟨e.module, index⟩ u = Interpreter.call index u := by
        intro u hu
        unfold callImplEnterModule
        rw [bind_of_ok (get_apply u), if_pos hu.symm]
        rfl
      unfold Executes at hcalls ⊢
      rw [bind_apply, bind_apply, hown e rfl, hown e' hm.module] at hcalls
      exact hcalls
  | host r index =>
      obtain ⟨hostModule, hmodule, hty⟩ := Option.bind_eq_some_iff.1 hty
      obtain ⟨f, hf, hfty⟩ := Option.bind_eq_some_iff.1 hty
      cases hfty
      exact hw.callsHost hm hr hmodule hf hle (by rwa [← Asm.wordsOf_toList])
  | extern_ r index =>
      obtain ⟨fm, hfm, hty⟩ := Option.bind_eq_some_iff.1 hty
      obtain ⟨f, hf, hfty⟩ := Option.bind_eq_some_iff.1 hty
      exact hw.calls hm hr hfm hf (hdeclared hfm (List.mem_of_getElem? hf) hfty) hle hpc
        (.inr (.inl ⟨m, x, index, hbody.module, hbody.compiled.describes.funcRef x _ ty hx⟩))
        (hnext ▸ hat)

/-- A call through the table: the entry that is called has the type of the call. -/
theorem Engine.Within.callIndirect {x : Idx} {ty : FuncType} (hx : ctx.types[x]? = some ty)
    (hle : 1 + wordsOf ty.params ≤ h) (hpc : e.pc ≠ JumpTarget.sentinel) (hnext : next = e.pc + 2)
    (hat : a.IsAt e.store code next (h - (1 + wordsOf ty.params) + wordsOf ty.returns)) :
    Executes e.CalleeLive 1 e.store code a rest e e' next next
      (Interpreter.callIndirect env x >>= fun _ => pure next) := by
  have hw' := hw.popped (by omega : 1 ≤ h)
  have hm' := hm.popped
  have hmodule : e.store.module? e.module = some m := hw.module ▸ hbody.module
  have htypes : m.types[x]? = some ty := hbody.compiled.describes.types ▸ hx
  obtain ⟨entries, hentries⟩ : ∃ entries, e.store.tables[e.table]? = some entries :=
    ⟨_, List.getElem?_eq_getElem (hr.linked.getTable_lt hr.coherent.table)⟩
  have hat' : a.IsAt e.store code next (h - 1 - wordsOf ty.params + wordsOf ty.returns) := by
    rwa [Nat.sub_sub]
  refine hw.pops_pure hm (by omega) rfl ?_
  simp only [hm.store, hm.module, hm.table, hmodule, htypes, hentries, unwrap_some, pure_bind]
  have hentry_mem : ∀ x, entries[e.top.toNat]? = some x → e.CalleeLive → e.store.EntryLive x :=
    fun x hx hlive => hlive entries x hentries hx
  cases hentry : entries[e.top.toNat]? with
  | none => exact .error (hm'.throws hr.pause (by simp))
  | some entry =>
      have hlive := hentry_mem entry hentry
      cases entry with
      | uninitialized => exact .error (hm'.throws hr.pause (by simp))
      | func r index =>
          dsimp only
          cases hfm : e.store.module? r with
          | none =>
              refine .panic fun hsafe => ?_
              have hlive := hlive hsafe
              simp [Store.EntryLive, Store.func?, hfm] at hlive
          | some fm =>
              cases hf : fm.functions[index.toNat]? with
              | none =>
                  simp only [unwrap_some, pure_bind, hf]
                  refine .panic fun hsafe => ?_
                  have hlive := hlive hsafe
                  simp [Store.EntryLive, Store.func?, hfm, hf] at hlive
              | some f =>
                  have hmem := List.mem_of_getElem? hf
                  obtain ⟨ty', hty⟩ := (hr.coded fm (List.mem_of_getElem? hfm)).declared f hmem
                  simp only [unwrap_some, pure_bind, hty.type, hf]
                  by_cases hsame : ty' = ty
                  · subst hsame
                    simp only [ne_eq, not_true_eq_false, if_false]
                    have htable : e.store.getTable a.module = some e.table :=
                      hw.module ▸ hr.coherent.table
                    exact hw'.calls hm' hr.popped hfm hf hty (by omega) hpc (.inr (.inr ⟨_, entries,
                      index, htable, hentries, List.mem_of_getElem? hentry⟩)) (hnext ▸ hat')
                  · simp only [ne_eq, hsame, not_false_eq_true, if_true]
                    exact .error (hm'.throws hr.pause (by simp))
      | host r index =>
          dsimp only
          cases hhm : e.store.hostModule? r with
          | none =>
              refine .panic fun hsafe => ?_
              obtain ⟨hostModule, f, hmodule, -⟩ := hlive hsafe
              simp [hhm] at hmodule
          | some hostModule =>
              cases hf : hostModule.functions[index.toNat]? with
              | none =>
                  simp only [unwrap_some, pure_bind, hf]
                  refine .panic fun hsafe => ?_
                  obtain ⟨hostModule', f, hmodule, hfunction⟩ := hlive hsafe
                  rw [hhm] at hmodule
                  cases hmodule
                  simp [hf] at hfunction
              | some f =>
                  simp only [unwrap_some, pure_bind, hf]
                  by_cases hsame : f.params ≠ ty.params ∨ f.returns.toList ≠ ty.returns
                  · rw [if_pos hsame]
                    exact .error (hm'.throws hr.pause (by simp))
                  · rw [if_neg hsame]
                    obtain ⟨hparams, hreturns⟩ := not_or.1 hsame
                    rw [not_ne_iff] at hparams hreturns
                    rw [← hparams, ← hreturns, Asm.wordsOf_toList] at hat'
                    exact hw'.callsHost hm' hr.popped hhm hf (by rw [hparams]; omega) hat'

theorem Engine.Within.globalGet {x : Idx} {g : GlobalVariable} (hx : ctx.global? x = some g)
    (hat : a.IsAt e.store code next (h + g.ty.words)) :
    Executes safe d e.store code a rest e e' next next
      (Interpreter.exec env (Asm.globalGetInstr g.reference) next) := by
  have hroom := hw.room (Nat.zero_le h) (by rw [Nat.sub_zero]; exact hat.le)
  have hg := hbody.compiled.describes.global x g hx
  have hsp : e.sp + g.ty.words = a.base + (h + g.ty.words) := by rw [hw.sp, Nat.add_assoc]
  cases href : g.reference with
  | module index =>
      rw [href] at hg
      obtain ⟨y, hy, hg⟩ := Option.bind_eq_some_iff.1 hg
      cases hg
      exact hm.ownModule (x := fun r => Interpreter.globalGet r index) hw.module (hw.works hm
        hr.pause (Interpreter.globalGet_works (o := e.besideStack) hw.high_le hm.length
          hbody.module hy hroom) hsp hat)
  | host r index =>
      rw [href] at hg
      obtain ⟨hostModule, hmodule, hg⟩ := Option.bind_eq_some_iff.1 hg
      obtain ⟨y, hy, hg⟩ := Option.bind_eq_some_iff.1 hg
      cases hg
      exact hw.works hm hr.pause
        (Interpreter.globalGetHost_works (o := e.besideStack) hw.high_le hm.length env hmodule hy
        (fun v hv => hr.host.readGlobal ⟨r, index⟩ hostModule y _ v hmodule hy hv) hroom) hsp hat
  | extern_ r index =>
      rw [href] at hg
      obtain ⟨em, hem, hg⟩ := Option.bind_eq_some_iff.1 hg
      obtain ⟨y, hy, hg⟩ := Option.bind_eq_some_iff.1 hg
      cases hg
      exact hw.works hm hr.pause
        (Interpreter.globalGet_works (o := e.besideStack) hw.high_le hm.length hem hy hroom) hsp hat

theorem Engine.Within.globalSet {x : Idx} {g : GlobalVariable} (hx : ctx.global? x = some g)
    (hle : g.ty.words ≤ h) (hat : a.IsAt e.store code next (h - g.ty.words)) :
    Executes safe d e.store code a rest e e' next next
      (Interpreter.exec env (Asm.globalSetInstr g.reference) next) := by
  have hroom : a.window.Room e.sp _ 0 := hw.room hle hat.le
  have hg := hbody.compiled.describes.global x g hx
  have hsp : e.sp - g.ty.words = a.base + (h - g.ty.words) := by
    have := hw.sp
    omega
  cases href : g.reference with
  | module index =>
      rw [href] at hg
      obtain ⟨y, hy, hg⟩ := Option.bind_eq_some_iff.1 hg
      cases hg
      exact hm.ownModule (x := fun r => Interpreter.globalSet r index) hw.module (hw.works hm
        hr.pause (Interpreter.globalSet_works (o := e.besideStack) hw.high_le hm.length
          hbody.module hy hroom) hsp hat)
  | host r index =>
      rw [href] at hg
      obtain ⟨hostModule, hmodule, hg⟩ := Option.bind_eq_some_iff.1 hg
      obtain ⟨y, hy, hg⟩ := Option.bind_eq_some_iff.1 hg
      cases hg
      exact hw.works hm hr.pause
        (Interpreter.globalSetHost_works (o := e.besideStack) hw.high_le hm.length env hmodule hy
        hroom) hsp hat
  | extern_ r index =>
      rw [href] at hg
      obtain ⟨em, hem, hg⟩ := Option.bind_eq_some_iff.1 hg
      obtain ⟨y, hy, hg⟩ := Option.bind_eq_some_iff.1 hg
      cases hg
      exact hw.works hm hr.pause
        (Interpreter.globalSet_works (o := e.besideStack) hw.high_le hm.length hem hy hroom) hsp hat

/-- Every instruction that the compiler emits for typed operands and that is no branch. Only a
call through a table relies on the entries of the tables. -/
theorem Engine.Within.emitted {i : WasmInstr} {j : IrInstr} {ins outs : List ValType}
    (hj : ctx.Emits i j ins outs) (hle : wordsOf ins ≤ h) (hpc : e.pc ≠ JumpTarget.sentinel)
    (hnext : next = e.pc + BitVec.ofNat 32 j.encode.length)
    (hat : a.IsAt e.store code next (h - wordsOf ins + wordsOf outs)) :
    Executes (j.CallsIndirect → e.CalleeLive) 1 e.store code a rest e e' next next
      (Interpreter.exec env j next) := by
  have hroom : ∀ {n k : ℕ}, n = wordsOf ins → k = wordsOf outs → a.window.Room e.sp n k := by
    rintro _ _ rfl rfl
    exact hw.room hle hat.le
  have hworks : ∀ {x : ExecM η Unit} {sp₁ : ℕ}, Coupled (j.CallsIndirect → e.CalleeLive)
      (Twins a.window e.stack e'.stack e.besideStack e.sp e.sp) x x
      (fun _ => Worked a.window e.stack e'.stack e.besideStack sp₁)
      (Traps a.window e.stack e'.stack e.hostPauseResult) →
        sp₁ = e.sp - wordsOf ins + wordsOf outs →
      Executes (j.CallsIndirect → e.CalleeLive) 1 e.store code a rest e e' next next
        (x >>= fun _ => pure next) := by
    intro x sp₁ hx hsp₁
    have hsp := hw.sp
    exact hw.works hm hr.pause hx (by omega) hat
  have hlocals : a.window.link + 2 + a.func.localSize + h = e.sp := hw.sp.symm
  have hsmall : a.window.high < 2 ^ 31 := Nat.lt_of_le_of_lt hw.high_le hr.small
  have hbelow := (hw.room hle hat.le).below
  obtain ⟨mem, hmem⟩ := hr.memory
  cases hj with
  | @call _ ref _ hx =>
      simp only [wordsOf_reverse] at hle hat
      refine hw.call hm hr hbody hx hle hpc (hnext.trans ?_) hat
      cases ref <;> rfl
  | callIndirect _ hx =>
      simp only [wordsOf_cons, wordsOf_reverse, ValType.words] at hle hat
      exact (hw.callIndirect hm hr hbody hx hle hpc hnext hat).weaken (fun hsafe => hsafe ⟨_, rfl⟩)
        (fun _ _ _ h => h) fun _ _ _ h => h
  | drop => exact hworks (Interpreter.drop_works (hroom rfl rfl)) rfl
  | @select ty =>
      have hwords : wordsOf [.i32, ty, ty] = 1 + 2 * ty.words := by
        simp [ValType.words, Nat.two_mul]
      exact hworks (Interpreter.select_works hw.high_le hm.length (hroom hwords.symm rfl))
        (by rw [hwords]; rfl)
  | localGet hx =>
      exact hworks (Interpreter.localGet_works hw.high_le hm.length
        (hbody.compiled.describes.local_ _ _ hx) hw.low_add hsmall hw.fp (by omega)
          (hroom rfl rfl)) rfl
  | localSet hx =>
      rw [wordsOf_cons, wordsOf_nil] at hle
      exact hworks (Interpreter.localSet_works hw.high_le hm.length
        (hbody.compiled.describes.local_ _ _ hx) hw.low_add hsmall hw.fp (by omega) (hroom rfl rfl))
        rfl
  | localTee hx =>
      rw [wordsOf_cons, wordsOf_nil] at hle
      refine hworks (Interpreter.localTee_works hw.high_le hm.length
        (hbody.compiled.describes.local_ _ _ hx) hw.low_add hsmall hw.fp (by omega)
          (hroom rfl rfl)) ?_
      rw [wordsOf_cons, wordsOf_nil]
      omega
  | globalGet hx => exact hw.globalGet hm hr hbody hx hat
  | globalSet hx _ => exact hw.globalSet hm hr hbody hx hle hat
  | load _ _ =>
      exact hworks (Interpreter.load_works (o := e.besideStack) hw.high_le hm.length hmem
        (hroom rfl rfl)) rfl
  | @store op =>
      have hwords : wordsOf [op.operand, .i32] = 1 + op.operand.words := by
        simp [ValType.words, Nat.add_comm]
      exact hworks (Interpreter.store_works (o := e.besideStack) hw.high_le hm.length hmem
        (hroom hwords.symm rfl)) (by rw [hwords]; rfl)
  | memorySize _ =>
      exact hworks (Interpreter.memorySize_works (o := e.besideStack) hw.high_le hm.length hmem
        (hroom rfl rfl)) rfl
  | memoryGrow _ =>
      have hmut : e.store.getMemoryMut e.module = some e.memory :=
        (e.store.getMemoryMut_eq e.module).trans hr.coherent.memory
      refine hworks (Interpreter.memoryGrow_works (o := e.besideStack) hw.high_le hm.length env
        hmut hmem (hroom rfl rfl)) ?_
      simp only [wordsOf_cons, wordsOf_nil, ValType.words] at hbelow ⊢
      omega
  | i32Const | i64Const | f32Const | f64Const =>
      exact hworks (Interpreter.pushValue_works hw.high_le hm.length (hroom rfl rfl)) rfl
  | @num op =>
      obtain ⟨hins, houts⟩ := op.sem_words env.floats
      rw [show op.result.words = wordsOf [op.result] from rfl] at houts
      exact hworks (Twins.works (NumSem.exec_works hw.high_le hm.length (op.sem_regular env.floats)
        (hroom hins houts)) (Nat.le_refl _)) (by rw [hins, houts])
  | @sat op =>
      obtain ⟨hins, houts⟩ := op.sem_words
      rw [show op.operand.words = wordsOf [op.operand] from rfl] at hins
      rw [show op.result.words = wordsOf [op.result] from rfl] at houts
      exact hworks (Twins.works (NumSem.exec_works hw.high_le hm.length op.sem_regular
        (hroom hins houts)) (Nat.le_refl _)) (by rw [hins, houts])

end Plain

/-! ### One instruction -/

theorem Asm.instrReturn_eq (r : ResultType) :
    ∃ size, Asm.instrReturn r = .return_ size ∧ size.toNat = r.words := by
  rcases r with _ | ty
  · exact ⟨0, rfl, rfl⟩
  · exact ⟨_, rfl, by cases ty <;> rfl⟩

theorem addrOf_add (i n : ℕ) : addrOf (i + n) = addrOf i + BitVec.ofNat 32 n :=
  BitVec.ofNat_add i n

/-- The operand of the only label of a branch. -/
theorem Listing.Holding.label {pages : List TextPage} {en : Entry} (hh : L.Holding pages en)
    {l : Label}
    {w : U16} (hhead : en.instr.head = [w]) (hlabels : en.instr.labels = [l]) :
    L.Lands (en.addr + 1) l (L.operand (en.addr + 1) l) := by
  obtain ⟨xs, -, -, hxs⟩ := hh.words
  have hlands := (hxs 0 l (by rw [hlabels]; rfl)).2
  rwa [hhead, List.length_singleton, Nat.mul_zero, Nat.add_zero] at hlands

/-- A running engine decodes an instruction of its function and executes it. -/
theorem Engine.Running.executes (hrun : e.Running e.store code a rest h) (hm : e.Matches e')
    (hr : e.Ready env code) :
    ∃ i stop next, IrReader.decode env.code e.pc = .ok i stop ∧
      Executes (i.CallsIndirect → e.CalleeLive) 1 e.store code a rest e e' stop next
        (Interpreter.exec env i stop) := by
  have hw := hrun.within hr.pause
  have hpc := hrun.at_.ne_sentinel
  obtain ⟨m, ctx, L, i, hbody, hi, en, hen, rfl, hheight⟩ := hrun.at_
  have hholding := (hbody.compiled.installed code (.refl code)).holding en hen
  have hleads := hbody.compiled.heighted.leads en hen h hheight
  have hone : e.pc + 1 = addrOf (en.addr + 1) := by rw [addrOf_add, hi]; rfl
  rw [hr.pages, hi]
  unfold Listing.Leads at hleads
  cases hinstr : en.instr with
  | plain j =>
      rw [hinstr] at hleads
      refine ⟨j, _, addrOf en.next, hholding.decode_plain hinstr, ?_⟩
      have hnext : addrOf en.next = e.pc + BitVec.ofNat 32 j.encode.length := by
        rw [Entry.next, addrOf_add, hi, AsmInstr.cells_length, hinstr]
        rfl
      rcases hleads with ⟨i, ins, outs, hemits, hle, hat⟩ | rfl | ⟨rfl, hle⟩
      · exact hw.emitted hm hr hbody hemits hle hpc hnext (hbody.isAt hat)
      · exact .error (hm.throws hr.pause (by simp))
      · obtain ⟨size, hsize, hwords⟩ := Asm.instrReturn_eq ctx.returnTy
        rw [hbody.compiled.describes.returnTy] at hwords hle
        rw [hsize]
        unfold Interpreter.exec
        simp only [hwords]
        exact hw.returns hm hr hle (hbody.parameterSize_le hr)
  | if_ l =>
      rw [hinstr] at hleads
      obtain ⟨hle, hat, hne, tgt, htarget, hheight⟩ := hleads
      have hlands := hholding.label (l := l) (by rw [hinstr]; rfl) (by rw [hinstr]; rfl)
      exact ⟨_, _, addrOf en.next, hholding.decode_label (f := .if_) (by rw [hinstr]; rfl)
        (by rw [hinstr]; rfl)
        (fun _ => rfl) fun _ => trivial,
        hw.if_ hm hr hbody hle (hbody.isAt hat) hne hlands hone htarget hheight⟩
  | br l =>
      rw [hinstr] at hleads
      have hlands := hholding.label (l := l) (by rw [hinstr]; rfl) (by rw [hinstr]; rfl)
      exact ⟨_, _, addrOf en.next, hholding.decode_label (f := .br) (by rw [hinstr]; rfl)
        (by rw [hinstr]; rfl)
        (fun _ => rfl) fun _ => trivial, hw.branches hm hr hbody hleads hlands hone⟩
  | brIf l =>
      rw [hinstr] at hleads
      obtain ⟨hle, hat, hbranch⟩ := hleads
      have hlands := hholding.label (l := l) (by rw [hinstr]; rfl) (by rw [hinstr]; rfl)
      exact ⟨_, _, addrOf en.next, hholding.decode_label (f := .brIf) (by rw [hinstr]; rfl)
        (by rw [hinstr]; rfl)
        (fun _ => rfl) fun _ => trivial,
          hw.brIf hm hr hbody hle (hbody.isAt hat) hbranch hlands hone⟩
  | brTable n ls =>
      rw [hinstr] at hleads
      obtain ⟨hle, hbranches⟩ := hleads
      obtain ⟨hdecode, hlt⟩ := hholding.decode_brTable hinstr
      refine ⟨_, _, addrOf en.next, hdecode, hw.brTable hm hr hbody hle fun v => ?_⟩
      obtain ⟨l, hl, hcase⟩ := hholding.brTableCase hinstr v
      obtain ⟨xs, -, -, hxs⟩ := hholding.words
      refine ⟨l, _, _, by rw [hr.pages]; exact hcase, hbranches l (List.mem_of_getElem? hl),
        (hxs _ l (by rw [hinstr]; exact hl)).2, ?_⟩
      rw [hi, hinstr]
      exact Listing.addrOf_brTableOffset hlt ls en.addr v

/-! ### One round -/

/-- An engine without activations. -/
structure Engine.Rests (e : Engine η) : Prop where
  pc : e.pc = JumpTarget.sentinel
  sp : e.sp = 0
  fp : e.fp = 0
  jumped : e.jumped = false
  pause : e.hostPauseResult = none

theorem Engine.Rests.isIdle (h : e.Rests) : e.isIdle = true := decide_eq_true h.pc

/-- How a round ends in two engines. -/
inductive Engine.RoundsTo (s : Store) (code : CodeBuilder) (a : Activation)
    (rest : List Activation) (e : Engine η) : RoundResult → Engine η → Engine η → Prop
  | next {t t' : Engine η} (advance : Engine.Advance 1 s code a rest e t)
      (pause : t.hostPauseResult = none) (twin : t.Matches t') : RoundsTo s code a rest e none t t'
  | pause {t t' : Engine η} {h : ℕ} (running : t.Running s code a rest h)
      (pending : t.hostPauseResult ≠ none)
      (stack : e.stack.Changes (a.window.Covers · 1) (a.window.Writable · 1) t.stack)
      (twin : t.Matches t') : RoundsTo s code a rest e (some .pause) t t'
  | trap {t t' : Engine η} {reason : TrapReason} (regular : reason ≠ .malformedIr)
      (rests : t.Rests)
      (stack : e.stack.Changes (a.window.Covers · 1) (a.window.Covers · 1) t.stack)
      (twin : t.Matches t') : RoundsTo s code a rest e (some (.trap reason)) t t'
  | finished {t t' : Engine η} (top : ℕ) (rest_eq : rest = []) (rests : t.Rests)
      (result : t.result = some (Interpreter.wordsValue t.stack.words 0 a.func.returnTy.words))
      (stack : e.stack.Changes (a.window.Covers · 1) (a.window.Covers · 1) t.stack)
      (top_le : a.base + a.func.returnTy.words ≤ top) (le_top : top ≤ e.sp)
      (dropped : e.sp ≤ top + 1)
      (results : ∀ i < a.func.returnTy.words,
        t.stack.words[i]? = e.stack.words[top - a.func.returnTy.words + i]?)
      (twin : t.Matches t') : RoundsTo s code a rest e (some .finished) t t'

/-- A round of two running engines that differ in stale words. It is undefined only when it
is a call through the table, of an entry for a function that does not exist. -/
theorem Engine.Running.round (hrun : e.Running e.store code a rest h) (hm : e.Matches e')
    (hr : e.Ready env code) :
    (∃ r t t', runRound env e = some (r, t) ∧ runRound env e' = some (r, t') ∧
        RoundsTo e.store code a rest e r t t') ∨
      (∃ i stop, IrReader.decode env.code e.pc = .ok i stop ∧ i.CallsIndirect) ∧
        ¬e.CalleeLive ∧ runRound env e = none ∧ runRound env e' = none := by
  have hpc := hrun.at_.ne_sentinel
  obtain ⟨i, stop, next, hdecode, hexec⟩ := hrun.executes hm hr
  simp only [runRound, hm.pc, if_neg hpc, hdecode]
  unfold Executes at hexec
  generalize Interpreter.exec env i stop e = o at hexec
  generalize Interpreter.exec env i stop e' = o' at hexec
  cases hexec with
  | @ok pc t t' hok =>
      obtain ⟨rfl, hadvance, hpause, htwin⟩ := hok
      refine .inl ⟨_, _, _, rfl, rfl, .next hadvance ?_ (htwin.afterInstr _)⟩
      rw [afterInstr_eq]
      exact hpause
  | error hbreaks =>
      cases hbreaks with
      | @trap reason t t' regular pending beside length stack =>
          exact .inl ⟨_, _, _, rfl, rfl, .trap regular ⟨rfl, rfl, rfl, rfl, pending⟩ stack
            (.trapped beside length)⟩
      | @pause t t' h' running pending stack twin =>
          refine .inl ⟨_, _, _, rfl, rfl, .pause running ?_ ?_ (twin.afterInstr _)⟩
          · rw [afterInstr_eq]
            exact pending
          · rw [afterInstr_eq]
            exact stack
      | @finished t t' top rest_eq pc jumped fp sp pending result stack top_le le_top dropped
        results
          twin =>
          refine .inl ⟨_, _, _, rfl, rfl, .finished top rest_eq ?_ ?_ ?_ top_le le_top dropped ?_
            (twin.afterInstr _)⟩ <;> rw [afterInstr_eq]
          · exact ⟨by rw [jumped, if_pos rfl, pc], sp, fp, rfl, pending⟩
          · exact result
          · exact stack
          · exact results
  | panic hsafe =>
      obtain ⟨hcalls, hdangling⟩ := Classical.not_imp.1 hsafe
      exact .inr ⟨⟨i, stop, rfl, hcalls⟩, hdangling, rfl, rfl⟩

end SpaceWasm
