import SpaceWasm.Installed
import SpaceWasm.Module

/-!
# The code of a function

A body that `Expr::read` compiles is a body that the symbolic assembler accepts,
and its listing is installed in the code buffer: the decoder reads it back from
the entry of the function on, also after the code of later functions has been
appended.
-/

namespace SpaceWasm

open Fallible

/-- The compilation of the body of `ctx`. -/
def LoadState.job (s : LoadState) (ctx : Func) : Job := ⟨s.store, s.module, ctx, s.code⟩

variable {env : LoadEnv} {ctx : Func} {s s' : LoadState} {entry : JumpTarget} {usage : ℕ}

theorem CodeBuilder.Extends.refl (c : CodeBuilder) : c.Extends c := ⟨Nat.le_refl _, fun _ _ => rfl⟩

theorem CodeBuilder.Extends.trans {c c' c'' : CodeBuilder} (h : c.Extends c')
    (h' : c'.Extends c'') : c.Extends c'' := by
  refine ⟨Nat.le_trans h.size h'.size, fun i hi => ?_⟩
  rw [h'.word i (Nat.lt_of_lt_of_le hi h.size), h.word i hi]

/-- A listing with the shape that the assembler gives it is installed. -/
theorem Rep.installed {job : Job} {F D : ℕ} {b : TextBuilder F D} {t : Asm} {c : CodeBuilder}
    (h : Rep job 0 [] b t) (hshaped : t.Shaped .code) (hext : b.code.Extends c) :
    t.toListing.Installed c.pages := by
  have hblocks : t.blocks = [] := List.length_eq_zero_iff.1 h.depth
  have hids := h.code.ids
  rw [hblocks] at hids
  exact ⟨hshaped.placed.listed, fun e he =>
    h.code.code.holding hids hshaped.placed hext he (hshaped.mode e he) (h.code.encodable e he)⟩

/-- What compiling a body leaves in the load. -/
structure Compiled (s s' : LoadState) (ctx : Func) (env : LoadEnv) (entry : JumpTarget) (usage : ℕ)
    (t : Asm) : Prop where
  assembles : readCode (Asm.visitor (s.job ctx).context) ⟨s.wasm, (s.job ctx).start⟩ =
    .ok () ⟨s'.wasm, t⟩
  rep : ∃ b : TextBuilder env.maxControlFrames env.maxStackDepth,
    Rep (s.job ctx) 0 [] b t ∧ s'.code = b.code
  entry_eq : entry = addrOf s.code.size
  usage_eq : usage = t.highwater
  usage_le : usage ≤ 0xFFFF
  store : s'.store = s.store
  module : s'.module = s.module

theorem readExpr_compiles {I : Mode → Asm → Prop} (hI : (s.job ctx).Invariant I)
    (hstart : I .code (s.job ctx).start) (h : readExpr env ctx s = .ok (entry, usage) s') :
    ∃ t, Compiled s s' ctx env entry usage t ∧ I .code t := by
  obtain ⟨e, s₁, hpc, h⟩ := bind_eq_ok.1 h
  obtain ⟨c, hc, rfl⟩ := zoom_eq_ok.1 hpc
  rw [CodeBuilder.pc_apply] at hc
  cases hc
  obtain ⟨u, s₂, hread, h⟩ := bind_eq_ok.1 h
  obtain ⟨d, hd, rfl⟩ := zoom_eq_ok.1 hread
  obtain ⟨_, d', hcode, hgets⟩ := bind_eq_ok.1 hd
  cases hgets
  have hD : env.maxStackDepth < 2 ^ 16 := by
    have := env.maxStackDepth_le
    omega
  by_cases hlimit : 0xFFFF < d.visitor.stackHighwater
  · rw [if_pos hlimit] at h
    cases h
  · rw [if_neg hlimit, pure_eq_ok, Prod.mk.injEq] at h
    obtain ⟨⟨rfl, rfl⟩, rfl⟩ := h
    obtain ⟨t, ht, hrep, hIt⟩ := readCode_compiles hI hstart
      env.maxControlFrames_pos hD hcode
    exact ⟨t, ⟨ht, ⟨d.visitor, hrep, rfl⟩, rfl, hrep.check.highwater, Nat.le_of_not_lt hlimit, rfl,
      rfl⟩, hIt⟩

/-- The calls of the compiler. -/
theorem readExpr_calls (h : readExpr env ctx s = .ok (entry, usage) s') :
    ∃ calls b, readCode record ⟨s.wasm, []⟩ = .ok () ⟨s'.wasm, calls⟩ ∧
      visitAll Compiler.visit calls
        ((s.job ctx).builder env.maxControlFrames env.maxStackDepth) = .ok () b := by
  obtain ⟨e, s₁, hpc, h⟩ := bind_eq_ok.1 h
  obtain ⟨c, hc, rfl⟩ := zoom_eq_ok.1 hpc
  rw [CodeBuilder.pc_apply] at hc
  cases hc
  obtain ⟨u, s₂, hread, h⟩ := bind_eq_ok.1 h
  obtain ⟨d, hd, rfl⟩ := zoom_eq_ok.1 hread
  obtain ⟨_, d', hcode, hgets⟩ := bind_eq_ok.1 hd
  cases hgets
  obtain ⟨calls, hcalls, hv⟩ := readCode_eq_ok.1 hcode
  by_cases hlimit : 0xFFFF < d.visitor.stackHighwater
  · rw [if_pos hlimit] at h
    cases h
  · rw [if_neg hlimit] at h
    obtain ⟨-, rfl⟩ := pure_eq_ok.1 h
    exact ⟨calls, _, hcalls, hv⟩

theorem Compiled.installed {t : Asm} (h : Compiled s s' ctx env entry usage t)
    (hshaped : t.Shaped .code) {c : CodeBuilder} (hext : s'.code.Extends c) :
    t.toListing.Installed c.pages := by
  obtain ⟨b, hrep, hcode⟩ := h.rep
  rw [hcode] at hext
  exact hrep.installed hshaped hext

theorem Compiled.base {t : Asm} (h : Compiled s s' ctx env entry usage t) :
    entry = addrOf t.base ∧ s'.code.size = t.here := by
  obtain ⟨b, hrep, hcode⟩ := h.rep
  have hsize := hrep.code.code.size
  rw [List.length_nil, Nat.add_zero] at hsize
  rw [hcode, h.entry_eq, hrep.code.code.base]
  exact ⟨rfl, hsize⟩

/-- The decoder reads a listing back from `entry` on: every instruction with its
operands, at the address where the one before it ends. -/
structure Listing.ReadsBack (L : Listing) (code : List TextPage) (entry : JumpTarget) : Prop where
  entry_eq : entry = addrOf L.base
  listed : Listed L.base L.entries
  run : ∀ vs, vs.length = L.entries.length →
    IrReader.visitInstructions code vs entry =
      .ok (List.zipWith L.visited L.entries.reverse vs) (addrOf L.here)
  step : ∀ e ∈ L.entries, ∀ v,
    IrReader.visitInstruction code v (addrOf e.addr) = .ok (L.visited e v) (addrOf e.next)
  operand : ∀ e ∈ L.entries, ∀ k l, e.instr.labels[k]? = some l →
    L.Lands (e.addr + e.instr.head.length + 2 * k) l
      (L.operand (e.addr + e.instr.head.length + 2 * k) l)
  brTable : ∀ e ∈ L.entries, ∀ n ls, e.instr = .brTable n ls →
    n < 2 ^ 16 ∧ ls.length = n + 1 ∧ ∀ v : U32,
      addrOf e.addr + brTableOffset (BitVec.ofNat 32 n) v =
        addrOf (e.addr + e.instr.head.length + 2 * min v.toNat n)

theorem Listing.Installed.readsBack {L : Listing} {code : List TextPage} (h : L.Installed code) :
    L.ReadsBack code (addrOf L.base) := by
  refine ⟨rfl, h.listed, h.visits, fun e he => (h.holding e he).visit, fun e he k l hl => ?_,
    fun e he n ls hi => ?_⟩
  · obtain ⟨xs, -, -, hxs⟩ := (h.holding e he).words
    exact (hxs k l hl).2
  · have hcomplete := (h.holding e he).complete
    have hencodable := (h.holding e he).encodable
    rw [hi] at hcomplete hencodable ⊢
    exact ⟨hencodable.1, hcomplete, addrOf_brTableOffset hencodable.1 ls e.addr⟩

/-- The decoder reads back exactly the instructions that the compiler emitted. -/
theorem readExpr_readsBack (h : readExpr env ctx s = .ok (entry, usage) s') :
    ∃ t, readCode (Asm.visitor (s.job ctx).context) ⟨s.wasm, (s.job ctx).start⟩ =
        .ok () ⟨s'.wasm, t⟩ ∧
      t.base = s.code.size ∧ t.here = s'.code.size ∧
      ∀ c, s'.code.Extends c → t.toListing.ReadsBack c.pages entry := by
  obtain ⟨t, hcompiled, hshaped⟩ := readExpr_compiles (I := fun m t => t.Shaped m)
    (fun _ _ _ _ _ hok _ hI hm hstep => hstep.shaped hok hI hm) (Asm.start_shaped _ _) h
  obtain ⟨hentry, hsize⟩ := hcompiled.base
  obtain ⟨b, hrep, -⟩ := hcompiled.rep
  refine ⟨t, hcompiled.assembles, hrep.code.code.base, hsize.symm, fun c hc => ?_⟩
  rw [hentry]
  exact (hcompiled.installed hshaped hc).readsBack

/-! ### A body with a `br_table` -/

def simpleEnv : LoadEnv := {
  maxControlFrames := 16
  maxStackDepth := 16
  maxControlFrames_pos := by decide
  maxStackDepth_le := by decide
  readGlobal := fun _ => none
  tableHandles := fun _ => 0
  allocates := fun _ => true }

theorem emptyBuilder_offset_le : 0 ≤ 256 := by decide

theorem emptyBuilder_offset_nil : ([] : List TextPage) = [] → 0 = 0 := fun _ => rfl

def emptyBuilder : CodeBuilder := {
  pages := []
  offset := 0
  options := ⟨true, none, 16⟩
  heap := ⟨fun _ _ => none, 0⟩
  pages_le := by decide
  maxCodePages_lt := by decide
  offset_le := emptyBuilder_offset_le
  offset_nil := emptyBuilder_offset_nil }

def emptyStore : Store := ⟨[], 8, [], [Memory.zero], [[]], 0, 0⟩

/-- A function without parameters, results and locals. -/
def thunk : Func := ⟨0, 0, 0, 0, none, [], 0⟩

def simpleLoad (input : List U8) : LoadState :=
  ⟨Reader.new (.ofBytes input), emptyStore, emptyBuilder, Module.empty []⟩

/-- `block`, `i32.const 0`, `br_table 0 0`, `end`, `end`. -/
def tableBody : List U8 := [0x02, 0x40, 0x41, 0x00, 0x0E, 0x01, 0x00, 0x00, 0x0B, 0x0B]

theorem tableBody_readsBack :
    ∃ entry usage s', readExpr simpleEnv thunk (simpleLoad tableBody) = .ok (entry, usage) s' ∧
      ∃ t : Asm, ∀ c, s'.code.Extends c → t.toListing.ReadsBack c.pages entry := by
  have hok : (readExpr simpleEnv thunk (simpleLoad tableBody)).isOk = true := by decide +kernel
  obtain ⟨⟨entry, usage⟩, s', h⟩ := Outcome.isOk_iff.1 hok
  obtain ⟨t, -, -, -, hback⟩ := readExpr_readsBack h
  exact ⟨entry, usage, s', h, t, hback⟩

end SpaceWasm
