import SpaceWasm.FlowStep

/-!
# Heights of compiled code

The listing of a function body that compiles has the heights of its reachable
instructions, all of them at most the stack usage that the compiler reports:
control starts with no operands, and each instruction finds the operands it pops
and leads to instructions that expect what it leaves.
-/

namespace SpaceWasm

open Fallible

namespace Listing

/-- A branch on the label `l` with `h` operand words: a return with its results, or
a jump that leaves the results on top of what is below the block. -/
def Branches (L : Listing) (returnTy : ResultType) (h : ℕ) (l : Label) : Prop :=
  l.dest = .ret ∧ l.result = returnTy ∧ returnTy.words ≤ h ∨
    l.dest ≠ .ret ∧ l.result.words ≤ l.depth ∧ l.depth ≤ h ∧
      ∃ a, L.resolve l.dest = some (addrOf a) ∧ L.HeightAt a (h - l.depth + l.result.words)

/-- Where control goes from the instruction `e` with `h` operand words. -/
def Leads (L : Listing) (ctx : Context) (e : Entry) (h : ℕ) : Prop :=
  match e.instr with
  | .plain j =>
      (∃ i ins outs, ctx.Emits i j ins outs ∧ wordsOf ins ≤ h ∧
        L.HeightAt e.next (h - wordsOf ins + wordsOf outs)) ∨
      j = .unreachable ∨ j = Asm.instrReturn ctx.returnTy ∧ ctx.returnTy.words ≤ h
  | .if_ l => 1 ≤ h ∧ L.HeightAt e.next (h - 1) ∧ l.dest ≠ .ret ∧
      ∃ a, L.resolve l.dest = some (addrOf a) ∧ L.HeightAt a (h - 1)
  | .br l => L.Branches ctx.returnTy h l
  | .brIf l => 1 ≤ h ∧ L.HeightAt e.next (h - 1) ∧ L.Branches ctx.returnTy (h - 1) l
  | .brTable _ ls => 1 ≤ h ∧ ∀ l ∈ ls, L.Branches ctx.returnTy (h - 1) l

/-- The heights of a listing fit together, and none is above `usage`. -/
structure Heighted (L : Listing) (ctx : Context) (usage : ℕ) : Prop where
  start : L.HeightAt L.base 0
  le : ∀ e ∈ L.entries, ∀ h, e.height = some h → h ≤ usage
  leads : ∀ e ∈ L.entries, ∀ h, e.height = some h → L.Leads ctx e h

end Listing

namespace Asm

variable {ctx : Context} {s t : Asm}

/-- With the return at the end of the function, everything that is met has been
emitted. -/
theorem heightAt_of_meets {i : AsmInstr} (hE : t.entries = (s.push i).entries) {a h : ℕ}
    (hm : s.Meets .code a h) : t.HeightAt a h := by
  have hmet : t.Meets (.table 0 0) a h := meets_push hE hm
  exact hmet.resolve_right fun hc => by cases hc.1

/-- In the end no block is left for which a branch could wait. -/
theorem resolve_of_aims {i : AsmInstr} (hE : t.entries = (s.push i).entries)
    (hlen : s.blocks.length = 1) (hends : ∀ id a, s.ends id = some a → t.ends id = some a)
    (helses : ∀ id a, s.elses id = some a → t.elses id = some a) {d : Dest} {h : ℕ}
    (hd : s.Aims .code d h) (hne : d ≠ .ret) :
    ∃ a, t.resolve d = some (addrOf a) ∧ t.HeightAt a h := by
  have hopen : ∀ {b : Block} {bs : List Block}, s.Exposed b bs → bs = [] := by
    intro b bs hb
    have hle := hb.suffix.length_le
    rw [hlen, List.length_cons] at hle
    exact List.length_eq_zero_iff.1 (Nat.le_zero.1 (Nat.le_of_succ_le_succ hle))
  cases d with
  | ret => exact absurd rfl hne
  | back a => exact ⟨a, rfl, heightAt_of_meets hE hd⟩
  | end_ id =>
      cases hid : s.ends id with
      | some a =>
          refine ⟨a, ?_, heightAt_of_meets hE (hd.1 a hid)⟩
          rw [Listing.resolve, hends id a hid]
          rfl
      | none =>
          obtain ⟨b, bs, hb, hbs, -⟩ := hd.2 hid
          exact absurd (hopen hb) hbs
  | else_ id =>
      cases hid : s.elses id with
      | some a =>
          refine ⟨a, ?_, heightAt_of_meets hE (hd.1 a hid)⟩
          rw [Listing.resolve, helses id a hid]
          rfl
      | none =>
          obtain ⟨b, bs, hb, hbs, -⟩ := hd.2 hid
          exact absurd (hopen hb) hbs

theorem branches_of_takes {i : AsmInstr} (hE : t.entries = (s.push i).entries)
    (hlen : s.blocks.length = 1) (hends : ∀ id a, s.ends id = some a → t.ends id = some a)
    (helses : ∀ id a, s.elses id = some a → t.elses id = some a) {h : ℕ} {l : Label}
    (hl : s.Takes ctx .code h l) : t.Branches ctx.returnTy h l := by
  by_cases hd : l.dest = .ret
  · obtain ⟨hresult, hle⟩ := hl.ret hd
    exact Or.inl ⟨hd, hresult, hresult ▸ hle⟩
  · exact Or.inr ⟨hd, hl.result_le hd, hl.depth_le,
      resolve_of_aims hE hlen hends helses hl.aims hd⟩

theorem leads_of_flows {i : AsmInstr} (hE : t.entries = (s.push i).entries)
    (hlen : s.blocks.length = 1) (hends : ∀ id a, s.ends id = some a → t.ends id = some a)
    (helses : ∀ id a, s.elses id = some a → t.elses id = some a) {e : Entry} {h : ℕ}
    (hf : s.Flows ctx .code e h) : t.Leads ctx e h := by
  unfold Flows at hf
  unfold Listing.Leads
  cases hi : e.instr with
  | plain j =>
      rw [hi] at hf
      rcases hf with ⟨i, ins, outs, hemits, hle, hnext⟩ | hf
      · exact Or.inl ⟨i, ins, outs, hemits, hle, heightAt_of_meets hE hnext⟩
      · exact Or.inr hf
  | if_ l =>
      rw [hi] at hf
      obtain ⟨hle, hnext, hne, haims⟩ := hf
      exact ⟨hle, heightAt_of_meets hE hnext, hne, resolve_of_aims hE hlen hends helses haims hne⟩
  | br l =>
      rw [hi] at hf
      exact branches_of_takes hE hlen hends helses hf
  | brIf l =>
      rw [hi] at hf
      exact ⟨hf.1, heightAt_of_meets hE hf.2.1, branches_of_takes hE hlen hends helses hf.2.2⟩
  | brTable n ls =>
      rw [hi] at hf
      exact ⟨hf.1, fun l hl => branches_of_takes hE hlen hends helses (hf.2 l hl)⟩

/-- The end of the function. -/
theorem Flowing.finish (h : s.Flowing ctx .code) (hok : s.Ok) (hlen : s.blocks.length = 1)
    (hstep : Step ctx s .finish t) : t.toListing.Heighted ctx t.highwater := by
  obtain ⟨hends, helses⟩ := hstep.keeps hok
  cases hstep with
  | silent hr => cases hr
  | plain he => cases he
  | @finish b bs opds hb hp hheight hif =>
      have hlen' := hlen
      rw [hb, List.length_cons] at hlen'
      obtain rfl : bs = [] := List.length_eq_zero_iff.1 (Nat.succ_injective hlen')
      have hsuffix : [b] <:+ s.blocks := hb ▸ List.suffix_rfl
      obtain ⟨hout, hstart, hzero⟩ := h.function b hsuffix
      refine ⟨?_, fun e he n hn => ?_, fun e he n hn => ?_⟩
      · have hmeets := h.starts b [] ⟨hsuffix, nofun⟩ (Or.inr rfl)
        rw [hstart, hzero] at hmeets
        exact heightAt_of_meets (i := .plain (instrReturn b.out)) rfl hmeets
      · exact h.heights_push (i := .plain (instrReturn b.out)) (Nat.le_refl _) e he n hn
      · rcases List.mem_cons.1 he with rfl | he
        · obtain ⟨hl, rfl⟩ := of_height hn
          have hwords := hp.words (certain_of_live h.toFits hl)
          rw [wordsOf_toList, hout] at hwords
          exact Or.inr (Or.inr ⟨by rw [hout], by rw [hwords]; exact Nat.le_add_left _ _⟩)
        · refine leads_of_flows (i := .plain (instrReturn b.out)) ?_ hlen hends helses
            (h.flows e he n hn)
          rfl

end Asm

/-! ### Function bodies -/

section Body

variable {job : Job} {F D : ℕ} {calls : List WasmInstr} {b₀ b : TextBuilder F D} {t₀ t : Asm}

/-- The run of the assembler that goes with a run of the compiler. -/
theorem okRun_of_prefix (hD : D < 2 ^ 16) (hstream : Stream 0 calls)
    (h : RepWith job Asm.Linked 1 b₀ t₀) (hv : visitAll Compiler.visit calls b₀ = .ok () b)
    {pre post : List WasmInstr} (hpre : pre ++ post = calls) {t' : Asm}
    (ht' : visitAll (Asm.visitor job.context) pre t₀ = .ok () t')
    (ht : visitAll (Asm.visitor job.context) post t' = .ok () t) :
    Asm.OkRun job.context t' post t := by
  induction post generalizing pre t' with
  | nil =>
      cases ht
      exact Asm.OkRun.nil
  | cons i post ih =>
      rw [visitAll, forEach_cons] at ht
      obtain ⟨_, t₁, hi, hrest⟩ := bind_eq_ok.1 ht
      have hpre' : pre ++ [i] ++ post = calls := by rw [List.append_assoc]; exact hpre
      have ht₁ : visitAll (Asm.visitor job.context) (pre ++ [i]) t₀ = .ok () t₁ :=
        visitAll_append.2 ⟨t', ht', by rw [visitAll_singleton]; exact hi⟩
      obtain ⟨hok, -⟩ := asm_prefix hD hstream h hv hpre' ht₁
      exact Asm.OkRun.cons hok (Asm.visit_step (Asm.visitor_eq_ok.1 hi)) (ih hpre' ht₁ hrest)

end Body

variable {env : LoadEnv} {ctx : Func} {s s' : LoadState} {entry : JumpTarget} {usage : ℕ}

/-- The heights of a function body that compiles fit together. -/
theorem readExpr_heighted (h : readExpr env ctx s = .ok (entry, usage) s') :
    ∃ t, Compiled s s' ctx env entry usage t ∧ t.Linked .code ∧
      t.toListing.Heighted (s.job ctx).context usage := by
  obtain ⟨t, hcompiled, hlinked⟩ := readExpr_compiles (s.job ctx).linked_invariant
    (s.job ctx).start_linked h
  have hD : env.maxStackDepth < 2 ^ 16 := by
    have := env.maxStackDepth_le
    omega
  have hstart : RepWith (s.job ctx) Asm.Linked 1 (s.builder env ctx) (s.job ctx).start :=
    ⟨builder_rep env.maxControlFrames_pos, (s.job ctx).start_linked⟩
  obtain ⟨calls, hcalls, hasm⟩ := readCode_eq_ok.1 hcompiled.assembles
  have hstream := record_stream hcalls
  obtain ⟨b, hv⟩ : ∃ b, visitAll Compiler.visit calls (s.builder env ctx) = .ok () b := by
    obtain ⟨calls', b, hcalls', hv⟩ := readExpr_calls h
    rw [hcalls] at hcalls'
    cases hcalls'
    exact ⟨b, hv⟩
  have hrun := okRun_of_prefix hD hstream hstart hv (List.nil_append calls) rfl hasm
  obtain ⟨u, hflow, hok, hlen, hfinish⟩ := Asm.Flowing.run hstream (Asm.start_flowing _ _)
    hstart.1.ok rfl hrun
  refine ⟨t, hcompiled, hlinked, ?_⟩
  rw [hcompiled.usage_eq]
  exact hflow.finish hok hlen hfinish

end SpaceWasm
