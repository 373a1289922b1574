import SpaceWasm.Anchor
import SpaceWasm.FunctionCode

/-!
# Pending references

While a function is being compiled, the branches to the end of an open block form
a chain that starts at its control frame. The chains of different blocks are
disjoint, and a walk along one of them visits strictly decreasing addresses inside
the function. When the block ends every operand of its chain gets its target, so
none is left at the end of the function.
-/

namespace SpaceWasm

open Fallible TextBuilder

/-! ### Walks -/

/-- The operands that the rounds of `backpatch` visit. -/
inductive Visits (w : ℕ → U16) : JumpTarget → List ℕ → Prop where
  | last {a : ℕ} : (labelAt w a).isSentinel = true → Visits w (addrOf a) [a]
  | step {a : ℕ} {as : List ℕ} : (labelAt w a).isSentinel = false →
      Visits w (addrOf a + (labelAt w a).jump) as → Visits w (addrOf a) (a :: as)

/-- The operands that `backpatch` visits from the head of a chain on. -/
def Walk (w : ℕ → U16) (head : JumpTarget) (as : List ℕ) : Prop :=
  if head = JumpTarget.sentinel then as = [] else Visits w head as

theorem Chained.visits {w : ℕ → U16} {head : JumpTarget} {s : Site} {sites : List Site} {n : ℕ}
    (h : Chained w head (s :: sites)) (hn : n < 2 ^ 32 - 1)
    (hinside : ∀ s' ∈ s :: sites, s'.addr + 1 < n) :
    Visits w head ((s :: sites).map Site.addr) := by
  induction sites generalizing head s with
  | nil =>
      obtain ⟨rfl, -, next, ⟨o, ho, hl⟩, hend⟩ := h
      obtain rfl : next = JumpTarget.sentinel := hend
      rw [JumpOffset.new_sentinel] at ho
      cases ho
      refine Visits.last ?_
      rw [hl, Label.pack, LabelTarget.isSentinel_new JumpOffset.fits_zero]
      rfl
  | cons r sites ih =>
      obtain ⟨rfl, hlt, next, ⟨o, ho, hl⟩, hnext⟩ := h
      have hs := hinside s List.mem_cons_self
      have hr := hlt r List.mem_cons_self
      have hne : o ≠ 0 := by
        rw [hnext.1] at ho
        exact link_ne_zero (by omega) (by omega) ho
      have hfits := JumpOffset.new_fits ho
      refine Visits.step ?_ ?_
      · rw [hl, Label.pack, LabelTarget.isSentinel_new hfits]
        exact decide_eq_false hne
      · have hadd : addrOf s.addr + (labelAt w s.addr).jump = next := by
          rw [hl, Label.pack, LabelTarget.jump_new hfits]
          rw [hnext.1] at ho ⊢
          exact add_link (by omega) ho
        rw [hadd]
        exact ih hnext fun s' hs' => hinside s' (List.mem_cons_of_mem s hs')

theorem Chained.walk {w : ℕ → U16} {head : JumpTarget} {sites : List Site} {n : ℕ}
    (h : Chained w head sites) (hn : n < 2 ^ 32 - 1) (hinside : ∀ s ∈ sites, s.addr + 1 < n) :
    Walk w head (sites.map Site.addr) := by
  unfold Walk
  cases sites with
  | nil =>
      have hhead : head = JumpTarget.sentinel := h
      rw [if_pos hhead]
      rfl
  | cons s sites =>
      have hs := hinside s List.mem_cons_self
      have hne : head ≠ JumpTarget.sentinel := by
        rw [h.1]
        exact addrOf_ne_sentinel (by omega)
      rw [if_neg hne]
      exact h.visits hn hinside

theorem Chained.decreasing {w : ℕ → U16} {head : JumpTarget} {sites : List Site}
    (h : Chained w head sites) : (sites.map Site.addr).Pairwise fun a b => b + 2 ≤ a := by
  induction sites generalizing head with
  | nil => exact List.Pairwise.nil
  | cons s sites ih =>
      obtain ⟨-, hlt, next, -, hnext⟩ := h
      refine List.Pairwise.cons (fun b hb => ?_) (ih hnext)
      obtain ⟨s', hs', rfl⟩ := List.mem_map.1 hb
      exact hlt s' hs'

/-! ### The chains of the open blocks -/

/-- The operands `as` are the chain from `head` on. -/
structure PendingChain (c : CodeBuilder) (base : ℕ) (head : JumpTarget) (as : List ℕ) : Prop where
  walk : Walk c.word head as
  decreasing : as.Pairwise fun a b => b + 2 ≤ a
  inside : ∀ a ∈ as, base ≤ a ∧ a + 1 < c.size

theorem length_le_of_decreasing {as : List ℕ} {n : ℕ} (h : as.Pairwise fun a b => b + 2 ≤ a)
    (hn : ∀ a ∈ as, a + 1 < n) : as.length ≤ n := by
  induction as generalizing n with
  | nil => exact Nat.zero_le n
  | cons a as ih =>
      rw [List.pairwise_cons] at h
      have ha := hn a List.mem_cons_self
      have hrest := ih (n := a) h.2 fun b hb => by
        have := h.1 b hb
        omega
      rw [List.length_cons]
      omega

/-- `backpatch` visits the operands of a walk: it does so with a closure that
records them. -/
theorem PendingChain.backpatch {c : CodeBuilder} {base : ℕ} {head : JumpTarget} {as : List ℕ}
    (h : PendingChain c base head as) (hlimit : c.options.maxBackpatchIterations = none) :
    CodeBuilder.backpatch head [] (fun visited address _ => pure (visited ++ [address])) c =
      .ok (as.map addrOf) c := by
  have hloop : ∀ (as : List ℕ) (head : JumpTarget) (visited : List JumpTarget) (fuel n : ℕ),
      Visits c.word head as → (∀ a ∈ as, a + 1 < c.size) → as.length ≤ fuel →
      CodeBuilder.backpatchLoop (fun visited address _ => pure (visited ++ [address])) fuel n head
        visited c = .ok (visited ++ as.map addrOf) c := by
    intro as
    induction as with
    | nil =>
        intro head visited fuel n h
        cases h
    | cons a as ih =>
        intro head visited fuel n h hinside hfuel
        obtain ⟨fuel, rfl⟩ : ∃ m, fuel = m + 1 := ⟨fuel - 1, by
          rw [List.length_cons] at hfuel
          omega⟩
        have hread := read32_labelAt (hinside a List.mem_cons_self)
        cases h with
        | last hsent =>
            rw [CodeBuilder.backpatchLoop, bind_of_ok hread, pure_bind, if_pos hsent]
            rfl
        | step hsent hnext =>
            have hrest := ih _ (visited ++ [addrOf a]) fuel (n + 1) hnext
              (fun b hb => hinside b (List.mem_cons_of_mem a hb)) (Nat.le_of_succ_le_succ hfuel)
            rw [CodeBuilder.backpatchLoop, bind_of_ok hread, pure_bind, hsent]
            simp only [Bool.false_eq_true, if_false]
            rw [bind_of_ok (get_apply c), hlimit]
            simp only
            rw [hrest, List.map_cons, List.append_assoc]
            rfl
  have hwalk := h.walk
  unfold CodeBuilder.backpatch
  unfold Walk at hwalk
  by_cases hhead : head = JumpTarget.sentinel
  · rw [if_pos hhead] at hwalk ⊢
    rw [hwalk]
    rfl
  · rw [if_neg hhead] at hwalk ⊢
    rw [bind_of_ok (get_apply c)]
    have hsize := c.size_le
    have hlen := length_le_of_decreasing h.decreasing fun a ha => (h.inside a ha).2
    exact hloop as head [] _ 0 hwalk (fun a ha => (h.inside a ha).2) (by omega)

variable {job : Job} {F D : ℕ}

/-- The chains of the control frames of blocks, which have no operand in common. -/
def PendingChains (base : ℕ) (s : TextBuilder F D) : Prop :=
  ∃ chain : ℕ → List ℕ,
    (∀ k f, s.controlFrames.toList[k]? = some f → f.kind ≠ .loop →
      PendingChain s.code base f.target (chain k)) ∧
    ∀ k k' f f', s.controlFrames.toList[k]? = some f → s.controlFrames.toList[k']? = some f' →
      f.kind ≠ .loop → f'.kind ≠ .loop → k ≠ k' → (chain k).Disjoint (chain k')

/-- The operands of a listing that wait for a block. -/
def Listing.Waits (L : Listing) (p : List Cell) (b : Block) (a : ℕ) : Prop :=
  ∃ i l, a = L.base + i ∧ (image L.entries ++ p)[i]? = some (Cell.lo l) ∧ Awaits b.kind b.id l.dest

theorem ChainRel.pending {L : Listing} {p : List Cell} {c : CodeBuilder} {b : Block}
    {target : JumpTarget} (hcode : CodeRel job L p c)
    (h : ChainRel L p c.word b.kind b.id b.start target) (hk : b.kind ≠ .loop) :
    ∃ as, PendingChain c job.code.size target as ∧ ∀ a ∈ as, L.Waits p b a := by
  obtain ⟨sites, hchain, hmem, -⟩ := h.chain hk
  have hwaits : ∀ s ∈ sites, L.Waits p b s.addr := by
    intro s hs
    obtain ⟨i, hi, hcell, hw⟩ := (hmem s).1 hs
    exact ⟨i, s.label, hi, hcell, hw⟩
  have hinside : ∀ s ∈ sites, s.addr + 1 < c.size := by
    intro s hs
    obtain ⟨i, l, hi, hcell, -⟩ := hwaits s hs
    rw [hi]
    exact hcode.lo_lt_size hcell
  have hsize := c.size_lt
  refine ⟨sites.map Site.addr, ⟨hchain.walk hsize hinside, hchain.decreasing, ?_⟩, ?_⟩
  · intro a ha
    obtain ⟨s, hs, rfl⟩ := List.mem_map.1 ha
    obtain ⟨i, l, hi, -, -⟩ := hwaits s hs
    refine ⟨?_, hinside s hs⟩
    rw [hi, hcode.base]
    exact Nat.le_add_right _ _
  · intro a ha
    obtain ⟨s, hs, rfl⟩ := List.mem_map.1 ha
    exact hwaits s hs

/-- An operand waits for one block only. -/
theorem Listing.Waits.unique {L : Listing} {p : List Cell} {b b' : Block} {a : ℕ}
    (h : L.Waits p b a) (h' : L.Waits p b' a) : b'.id = b.id := by
  obtain ⟨i, l, rfl, hcell, hw⟩ := h
  obtain ⟨i', l', ha, hcell', hw'⟩ := h'
  obtain rfl : i = i' := Nat.add_left_cancel ha
  rw [hcell, Option.some.injEq, Cell.lo.injEq] at hcell'
  subst hcell'
  by_contra hne
  exact not_awaits_of_ne hne hw hw'

theorem Rep.pendingChains {n : ℕ} {p : List Cell} {s : TextBuilder F D} {t : Asm}
    (h : Rep job n p s t) : PendingChains job.code.size s := by
  have hchains := h.code.chains
  have hkinds := h.check.types
  have hexists : ∀ k : ℕ, ∃ as, ∀ (b : Block) (f : ControlFrame), t.blocks[k]? = some b →
      s.controlFrames.toList[k]? = some f → f.kind ≠ .loop →
        PendingChain s.code job.code.size f.target as ∧ ∀ a ∈ as, t.toListing.Waits p b a := by
    intro k
    cases hb : t.blocks[k]? with
    | none => exact ⟨[], fun b f h => by cases h⟩
    | some b =>
        obtain ⟨f, hf, hrel⟩ := forall₂_getElem? hchains hb
        obtain ⟨f', hf', htypes⟩ := forall₂_getElem? hkinds hb
        rw [hf, Option.some.injEq] at hf'
        subst hf'
        by_cases hk : b.kind = .loop
        · refine ⟨[], fun b' f' hb' hf' hk' => absurd ?_ hk'⟩
          rw [hf, Option.some.injEq] at hf'
          rw [← hf', htypes.kind, hk]
        · obtain ⟨as, has, hw⟩ := hrel.pending h.code.code hk
          refine ⟨as, fun b' f' hb' hf' _ => ?_⟩
          rw [Option.some.injEq] at hb'
          rw [hf, Option.some.injEq] at hf'
          rw [← hb', ← hf']
          exact ⟨has, hw⟩
  choose chain hchain using hexists
  have hblock : ∀ (k : ℕ) (f : ControlFrame), s.controlFrames.toList[k]? = some f →
      ∃ b, t.blocks[k]? = some b := by
    intro k f hf
    obtain ⟨hlt, -⟩ := List.getElem?_eq_some_iff.1 hf
    rw [← hchains.length_eq] at hlt
    exact ⟨_, List.getElem?_eq_getElem hlt⟩
  refine ⟨chain, fun k f hf hk => ?_, fun k k' f f' hf hf' hk hk' hne => ?_⟩
  · obtain ⟨b, hb⟩ := hblock k f hf
    exact (hchain k b f hb hf hk).1
  · obtain ⟨b, hb⟩ := hblock k f hf
    obtain ⟨b', hb'⟩ := hblock k' f' hf'
    intro a ha ha'
    have hid := ((hchain k b f hb hf hk).2 a ha).unique ((hchain k' b' f' hb' hf' hk').2 a ha')
    have hnodup := h.code.ids.nodup_ids
    have hget : (t.blocks.map Block.id)[k]? = (t.blocks.map Block.id)[k']? := by
      rw [List.getElem?_map, List.getElem?_map, hb, hb', Option.map_some, Option.map_some, hid]
    obtain ⟨hlt, -⟩ := List.getElem?_eq_some_iff.1 hb
    exact hne ((List.getElem?_inj (by rw [List.length_map]; exact hlt) hnodup).1 hget)

/-! ### During the compilation -/

/-- After the calls of a prefix of a stream, the compiler state represents the
assembler state. -/
def AfterPrefix (job : Job) (I : Mode → Asm → Prop) (t : Asm) (pre post : List WasmInstr)
    (s' : TextBuilder F D) : Prop :=
  ∃ m n t', visitAll (Asm.visitor job.context) pre t = .ok () t' ∧ Rep job n [] s' t' ∧ I m t' ∧
    ∀ i rest, post = i :: rest → ∃ m', m.Next i m'

section Prefix

variable {I : Mode → Asm → Prop}

theorem AfterPrefix.cons {t t₁ : Asm} {i : WasmInstr} {pre post : List WasmInstr}
    {s' : TextBuilder F D} (hi : Asm.visit job.context i t = .ok () t₁)
    (h : AfterPrefix job I t₁ pre post s') : AfterPrefix job I t (i :: pre) post s' := by
  obtain ⟨m, n, t', ht, hrep, hI, hnext⟩ := h
  refine ⟨m, n, t', ?_, hrep, hI, hnext⟩
  rw [visitAll, forEach_cons, bind_of_ok (Asm.visitor_eq_ok.2 hi)]
  exact ht

theorem AfterPrefix.nil {m : Mode} {n : ℕ} {s : TextBuilder F D} {t : Asm} {post : List WasmInstr}
    (hrep : Rep job n [] s t) (hI : I m t)
    (hnext : ∀ i rest, post = i :: rest → ∃ m', m.Next i m') :
    AfterPrefix job I t [] post s :=
  ⟨m, n, t, rfl, hrep, hI, hnext⟩

/-- A call and the calls after it. -/
theorem visitAll_cons {v : WasmVisitor (TextBuilder F D)} {i : WasmInstr} {is : List WasmInstr}
    {s s' : TextBuilder F D} (h : visitAll v (i :: is) s = .ok () s') :
    ∃ s₁, v i s = .ok () s₁ ∧ visitAll v is s₁ = .ok () s' := by
  rw [visitAll, forEach_cons] at h
  obtain ⟨_, s₁, hi, hrest⟩ := bind_eq_ok.1 h
  exact ⟨s₁, hi, hrest⟩

/-- A prefix of a list that is not empty. -/
theorem prefix_cases {i : WasmInstr} {is pre post : List WasmInstr} (h : pre ++ post = i :: is) :
    pre = [] ∧ post = i :: is ∨ ∃ pre', pre = i :: pre' ∧ pre' ++ post = is := by
  cases pre with
  | nil => exact Or.inl ⟨rfl, h⟩
  | cons j pre' =>
      rw [List.cons_append, List.cons.injEq] at h
      exact Or.inr ⟨pre', by rw [h.1], h.2⟩

/-- The labels of a `br_table`, and what follows. -/
theorem afterPrefix_labels (hI : job.Invariant I) {depth n k : ℕ} {ls : List Idx} {l : Idx}
    {rest pre post : List WasmInstr} {s s' : TextBuilder F D} {t : Asm} (hn : k + ls.length = n)
    (hrest : ∀ {pre s t}, pre ++ post = rest → RepWith job I (depth + 1) s t →
      visitAll Compiler.visit pre s = .ok () s' → AfterPrefix job I t pre post s')
    (hpre : pre ++ post = ls.map .brTableBranch ++ .brTableFinish l :: rest)
    (h : RepTable job I (depth + 1) n k s t) (hv : visitAll Compiler.visit pre s = .ok () s') :
    AfterPrefix job I t pre post s' := by
  induction ls generalizing k s t pre with
  | nil =>
      obtain rfl : k = n := hn
      rcases prefix_cases hpre with ⟨rfl, rfl⟩ | ⟨pre', rfl, hpre'⟩
      · cases hv
        refine AfterPrefix.nil h.1.1 h.2 ?_
        rintro i rest' ⟨⟩
        exact ⟨_, .finish⟩
      · obtain ⟨s₁, hs₁, hv⟩ := visitAll_cons hv
        have hsim := visit_keeps (F := F) (D := D) (i := .brTableFinish l) hI (.finish (n := k))
          (brTableFinish_sim (m := depth) l) (fun s t h => h.1.ok) fun s t h => h.ok
        obtain ⟨_, t₁, ht₁, hrep, hIt⟩ := hsim.ok (t := t) ⟨h.1, h.2⟩ hs₁
        exact AfterPrefix.cons ht₁ (hrest hpre' ⟨hrep, hIt⟩ hv)
  | cons l' ls ih =>
      rcases prefix_cases hpre with ⟨rfl, rfl⟩ | ⟨pre', rfl, hpre'⟩
      · cases hv
        refine AfterPrefix.nil h.1.1 h.2 ?_
        rintro i rest' ⟨⟩
        exact ⟨_, .branch⟩
      · obtain ⟨s₁, hs₁, hv⟩ := visitAll_cons hv
        have hsim := visit_keeps (F := F) (D := D) (i := .brTableBranch l') hI
          (.branch (n := n) (k := k)) (brTableBranch_sim (m := depth) l') (fun s t h => h.1.ok)
          fun s t h => h.1.ok
        obtain ⟨_, t₁, ht₁, hrep, hIt⟩ := hsim.ok (t := t) ⟨h.1, h.2⟩ hs₁
        have hn' : k + 1 + ls.length = n := by
          rw [List.length_cons] at hn
          omega
        exact AfterPrefix.cons ht₁ (ih hn' hpre' ⟨hrep, hIt⟩ hv)

/-- The compiler state represents the assembler state after every prefix of the
calls. -/
theorem afterPrefix (hI : job.Invariant I) (hD : D < 2 ^ 16) {depth : ℕ}
    {calls pre post : List WasmInstr} (hstream : Stream depth calls) (hpre : pre ++ post = calls)
    {s s' : TextBuilder F D} {t : Asm} (h : RepWith job I (depth + 1) s t)
    (hv : visitAll Compiler.visit pre s = .ok () s') : AfterPrefix job I t pre post s' := by
  induction hstream generalizing pre s t with
  | @single depth depth' i rest hsingle hdepth hrest ih =>
      rcases prefix_cases hpre with ⟨rfl, rfl⟩ | ⟨pre', rfl, hpre'⟩
      · cases hv
        refine AfterPrefix.nil h.1 h.2 ?_
        rintro i rest' ⟨⟩
        exact ⟨_, .single hsingle⟩
      · obtain ⟨s₁, hs₁, hv⟩ := visitAll_cons hv
        have hsim := visit_keeps (F := F) (D := D) hI (.single hsingle) (visit_sim hD hsingle)
          (fun s t h => h.ok) fun s t h => h.ok
        obtain ⟨_, t₁, ht₁, hrep, hIt⟩ := hsim.ok h hs₁
        rw [hdepth] at hrep
        exact AfterPrefix.cons ht₁ (ih hpre' ⟨hrep, hIt⟩ hv)
  | @table depth len ls l rest hlen hrest ih =>
      rw [List.cons_append] at hpre
      rcases prefix_cases hpre with ⟨rfl, rfl⟩ | ⟨pre', rfl, hpre'⟩
      · cases hv
        refine AfterPrefix.nil h.1 h.2 ?_
        rintro i rest' ⟨⟩
        exact ⟨_, .start⟩
      · obtain ⟨s₁, hs₁, hv⟩ := visitAll_cons hv
        have hsim := visit_keeps (F := F) (D := D) (i := .brTableStart len) hI .start
          (brTableStart_sim (m := depth) len) (fun s t h => h.ok) fun s t h => h.1.ok
        obtain ⟨_, t₁, ht₁, hrep, hIt⟩ := hsim.ok h hs₁
        have hn : 0 + ls.length = len.toNat := by rw [Nat.zero_add, hlen]
        exact AfterPrefix.cons ht₁
          (afterPrefix_labels hI hn (fun hp hr hv => ih hp hr hv) hpre' ⟨hrep, hIt⟩ hv)
  | last =>
      rcases prefix_cases hpre with ⟨rfl, rfl⟩ | ⟨pre', rfl, hpre'⟩
      · cases hv
        refine AfterPrefix.nil h.1 h.2 ?_
        rintro i rest' ⟨⟩
        exact ⟨_, .single (rfl : WasmInstr.Single 0 .finish)⟩
      · obtain ⟨s₁, hs₁, hv⟩ := visitAll_cons hv
        obtain ⟨rfl, rfl⟩ := List.append_eq_nil_iff.1 hpre'
        cases hv
        have hsim := visit_keeps (F := F) (D := D) (i := .finish) hI
            (.single (rfl : WasmInstr.Single 0 .finish))
          (visit_sim hD rfl) (fun s t h => h.ok) fun s t h => h.ok
        obtain ⟨_, t₁, ht₁, hrep, hIt⟩ := hsim.ok h hs₁
        exact AfterPrefix.cons ht₁ (AfterPrefix.nil hrep hIt nofun)

end Prefix

/-! ### Addresses that are bound -/

namespace Asm

variable {ctx : Context} {t t' : Asm}

theorem dead_ends (t : Asm) : t.dead.ends = t.ends := by rw [dead_toListing]

theorem dead_elses (t : Asm) : t.dead.elses = t.elses := by rw [dead_toListing]

theorem update_of_none {f : ℕ → Option ℕ} {i j a x : ℕ} (hnone : f i = none) (h : f j = some a) :
    Function.update f i (some x) j = some a := by
  have hne : j ≠ i := by
    rintro rfl
    rw [hnone] at h
    cases h
  rw [Function.update_of_ne hne, h]

/-- The end of an open block is bound to the current address. -/
theorem bound_keeps {b : Block} (hok : t.Ok) (hb : b ∈ t.blocks) :
    (∀ id a, t.ends id = some a → (t.bound b).ends id = some a) ∧
      ∀ id a, t.elses id = some a → (t.bound b).elses id = some a := by
  have hmem : (b.id, b.kind) ∈ t.blocks.map Block.tag := List.mem_map_of_mem hb
  constructor
  · intro id a h
    exact update_of_none (hok.ids.ends_none _ hmem) h
  · intro id a h
    by_cases hk : b.kind = .if_
    · simp only [bound, if_pos hk]
      exact update_of_none (hok.ids.elses_none _ hmem hk) h
    · simp only [bound, if_neg hk]
      exact h

/-- An address stays bound. -/
theorem Step.keeps {i : WasmInstr} (hok : t.Ok) (hstep : Step ctx t i t') :
    (∀ id a, t.ends id = some a → t'.ends id = some a) ∧
      ∀ id a, t.elses id = some a → t'.elses id = some a := by
  cases hstep with
  | @else_ label types b bs opds _ hb hk _ _ =>
      have hmem : (b.id, b.kind) ∈ t.blocks.map Block.tag := by
        rw [hb]
        exact List.mem_cons_self
      exact ⟨fun id a h => h, fun id a h => update_of_none (hok.ids.elses_none _ hmem hk) h⟩
  | @exitBlock b bs opds hw hb _ _ _ _ =>
      exact bound_keeps hok (by rw [hb]; exact List.mem_cons_self)
  | @finish b bs opds hb _ _ _ =>
      exact bound_keeps hok (by rw [hb]; exact List.mem_cons_self)
  | unreachable => exact ⟨fun _ _ h => by rwa [dead_ends], fun _ _ h => by rwa [dead_elses]⟩
  | return_ => exact ⟨fun _ _ h => by rwa [dead_ends], fun _ _ h => by rwa [dead_elses]⟩
  | br => exact ⟨fun _ _ h => by rwa [dead_ends], fun _ _ h => by rwa [dead_elses]⟩
  | brTableFinish => exact ⟨fun _ _ h => by rwa [dead_ends], fun _ _ h => by rwa [dead_elses]⟩
  | _ => exact ⟨fun _ _ h => h, fun _ _ h => h⟩

/-- What the next call binds: `end` the end of the innermost block, and the
`else` arm that an `if` does not have; `else` the arm behind its branch. -/
def Binds (t : Asm) (b : Block) : WasmInstr → Asm → Prop
  | .exitBlock, t' => t'.ends b.id = some t.here ∧ (b.kind = .if_ → t'.elses b.id = some t.here)
  | .finish, t' => t'.ends b.id = some t.here ∧ (b.kind = .if_ → t'.elses b.id = some t.here)
  | .else_, t' => ∃ label, t'.elses b.id = some (t.push (.br label)).here
  | _, _ => True

theorem bound_binds (t : Asm) (b : Block) : (t.bound b).ends b.id = some t.here ∧
    (b.kind = .if_ → (t.bound b).elses b.id = some t.here) := by
  refine ⟨Function.update_self _ _ _, fun hk => ?_⟩
  simp only [bound, if_pos hk, Function.update_self]

theorem Step.binds {i : WasmInstr} {b : Block} {bs : List Block} (hb : t.blocks = b :: bs)
    (hstep : Step ctx t i t') : t.Binds b i t' := by
  cases hstep with
  | @else_ label types b' bs' opds _ hb' _ _ _ =>
      rw [hb] at hb'
      obtain ⟨rfl, rfl⟩ := List.cons.inj hb'
      exact ⟨label, Function.update_self _ _ _⟩
  | @exitBlock b' bs' opds hw hb' _ _ _ _ =>
      rw [hb] at hb'
      obtain ⟨rfl, rfl⟩ := List.cons.inj hb'
      exact bound_binds t b
  | @finish b' bs' opds hb' _ _ _ =>
      rw [hb] at hb'
      obtain ⟨rfl, rfl⟩ := List.cons.inj hb'
      exact bound_binds t b
  | silent hr => cases hr <;> exact trivial
  | plain he => cases he <;> exact trivial
  | _ => exact trivial

theorem Binds.mono {t'' : Asm} {b : Block} {i : WasmInstr} (h : t.Binds b i t')
    (hends : ∀ id a, t'.ends id = some a → t''.ends id = some a)
    (helses : ∀ id a, t'.elses id = some a → t''.elses id = some a) : t.Binds b i t'' := by
  cases i with
  | exitBlock => exact ⟨hends _ _ h.1, fun hk => helses _ _ (h.2 hk)⟩
  | finish => exact ⟨hends _ _ h.1, fun hk => helses _ _ (h.2 hk)⟩
  | else_ =>
      obtain ⟨label, h⟩ := h
      exact ⟨label, helses _ _ h⟩
  | _ => exact trivial

/-- The listing is in place, and its targets are instructions. -/
def Linked (m : Mode) (t : Asm) : Prop := t.Shaped m ∧ t.Anchored m

end Asm

theorem Job.linked_invariant (job : Job) : job.Invariant Asm.Linked :=
  fun _ _ _ _ _ hok _ hI hm hstep => ⟨hstep.shaped hok hI.1 hm, hstep.anchored hI.2 hm⟩

theorem Job.start_linked (job : Job) : job.start.Linked .code :=
  ⟨Asm.start_shaped _ _, Asm.start_anchored _ _⟩

section Run

variable {calls : List WasmInstr} {b₀ b : TextBuilder F D} {t₀ t : Asm}

/-- The assembler state after a prefix of the calls. -/
theorem asm_prefix (hD : D < 2 ^ 16) (hstream : Stream 0 calls)
    (h : RepWith job Asm.Linked 1 b₀ t₀) (hv : visitAll Compiler.visit calls b₀ = .ok () b)
    {pre post : List WasmInstr} (hpre : pre ++ post = calls) {t' : Asm}
    (ht' : visitAll (Asm.visitor job.context) pre t₀ = .ok () t') :
    t'.Ok ∧ ∃ m, t'.Linked m ∧ ∀ i rest, post = i :: rest → ∃ m', m.Next i m' := by
  rw [← hpre, visitAll_append] at hv
  obtain ⟨b', hb', -⟩ := hv
  obtain ⟨m, n, t'', ht'', hrep, hI, hnext⟩ :=
    afterPrefix job.linked_invariant hD hstream hpre h hb'
  rw [ht'] at ht''
  cases ht''
  exact ⟨hrep.ok, m, hI, hnext⟩

theorem keeps_of_prefix (hD : D < 2 ^ 16) (hstream : Stream 0 calls)
    (h : RepWith job Asm.Linked 1 b₀ t₀) (hv : visitAll Compiler.visit calls b₀ = .ok () b)
    {pre post : List WasmInstr} (hpre : pre ++ post = calls) {t' : Asm}
    (ht' : visitAll (Asm.visitor job.context) pre t₀ = .ok () t')
    (ht : visitAll (Asm.visitor job.context) post t' = .ok () t) :
    (∀ id a, t'.ends id = some a → t.ends id = some a) ∧
      ∀ id a, t'.elses id = some a → t.elses id = some a := by
  induction post generalizing pre t' with
  | nil =>
      cases ht
      exact ⟨fun _ _ h => h, fun _ _ h => h⟩
  | cons i post ih =>
      obtain ⟨hok, -⟩ := asm_prefix hD hstream h hv hpre ht'
      rw [visitAll, forEach_cons] at ht
      obtain ⟨_, t₁, hi, hrest⟩ := bind_eq_ok.1 ht
      have hstep := Asm.visit_step (Asm.visitor_eq_ok.1 hi)
      have hpre' : pre ++ [i] ++ post = calls := by rw [List.append_assoc]; exact hpre
      have ht₁ : visitAll (Asm.visitor job.context) (pre ++ [i]) t₀ = .ok () t₁ :=
        visitAll_append.2 ⟨t', ht', by rw [visitAll_singleton]; exact hi⟩
      obtain ⟨hends, helses⟩ := ih hpre' ht₁ hrest
      obtain ⟨hends', helses'⟩ := hstep.keeps hok
      exact ⟨fun id a ha => hends _ _ (hends' id a ha), fun id a ha => helses _ _ (helses' id a ha)⟩

/-- What a call binds is bound in the end. -/
theorem binds_of_prefix (hD : D < 2 ^ 16) (hstream : Stream 0 calls)
    (h : RepWith job Asm.Linked 1 b₀ t₀) (hv : visitAll Compiler.visit calls b₀ = .ok () b)
    {pre post : List WasmInstr} {i : WasmInstr} (hpre : pre ++ i :: post = calls) {t' : Asm}
    (ht' : visitAll (Asm.visitor job.context) pre t₀ = .ok () t')
    (ht : visitAll (Asm.visitor job.context) calls t₀ = .ok () t) {b : Block} {bs : List Block}
    (hb : t'.blocks = b :: bs) : t'.Binds b i t := by
  rw [← hpre, visitAll_append] at ht
  obtain ⟨t'', ht'', hrest⟩ := ht
  rw [ht'] at ht''
  cases ht''
  rw [visitAll, forEach_cons] at hrest
  obtain ⟨_, t₁, hi, hrest⟩ := bind_eq_ok.1 hrest
  have hpre' : pre ++ [i] ++ post = calls := by rw [List.append_assoc]; exact hpre
  have ht₁ : visitAll (Asm.visitor job.context) (pre ++ [i]) t₀ = .ok () t₁ :=
    visitAll_append.2 ⟨t', ht', by rw [visitAll_singleton]; exact hi⟩
  obtain ⟨hends, helses⟩ := keeps_of_prefix hD hstream h hv hpre' ht₁ hrest
  exact (Asm.Step.binds hb (Asm.visit_step (Asm.visitor_eq_ok.1 hi))).mono hends helses

/-- In the end every address that is mentioned is the one of an instruction. -/
theorem at_of_mentions (hD : D < 2 ^ 16) (hstream : Stream 0 calls)
    (h : RepWith job Asm.Linked 1 b₀ t₀) (hv : visitAll Compiler.visit calls b₀ = .ok () b)
    (ht : visitAll (Asm.visitor job.context) calls t₀ = .ok () t) {a : ℕ} (ha : t.Mentions a) :
    t.At a := by
  obtain ⟨pre, rfl⟩ := hstream.eq_append_finish
  obtain ⟨t', ht', hfinish⟩ := visitAll_append.1 ht
  rw [visitAll_singleton] at hfinish
  obtain ⟨-, m, ⟨-, hanchored⟩, hnext⟩ := asm_prefix hD hstream h hv rfl ht'
  obtain ⟨m', hm⟩ := hnext _ _ rfl
  cases Asm.visit_step (Asm.visitor_eq_ok.1 hfinish) with
  | silent hr => cases hr
  | plain he => cases he
  | @finish b' bs opds hb _ _ _ =>
      cases hm
      -- The `return` of the function lies at the end of all blocks.
      rcases Asm.mentions_of (t := t') (P := fun a => a = t'.here) ha (fun _ _ => Asm.bound_ends)
        (fun _ _ => Asm.bound_elses) (fun b' hb' => Or.inl (Asm.mentions_tail hb hb'))
        (fun e he => by
          rcases List.mem_cons.1 he with rfl | he
          · exact Or.inr fun l hl => by cases hl
          · exact Or.inl he) with hold | rfl
      · rcases hanchored a hold with ⟨e, he, rfl⟩ | ⟨-, rfl⟩
        · exact ⟨e, List.mem_cons_of_mem _ he, rfl⟩
        · exact ⟨_, List.mem_cons_self, rfl⟩
      · exact ⟨_, List.mem_cons_self, rfl⟩

end Run

/-! ### Exactness -/

namespace Listing

/-- The address that a target is bound to. -/
def address? (L : Listing) : Dest → Option ℕ
  | .ret => none
  | .back a => some a
  | .end_ id => L.ends id
  | .else_ id => L.elses id

/-- Every branch operand jumps to the address of its target, which is the one of
an instruction and not of a word inside one; an operand without an offset is a
return. -/
structure Exact (L : Listing) (w : ℕ → U16) : Prop where
  lands : ∀ e ∈ L.entries, ∀ k l, e.instr.labels[k]? = some l →
    L.Lands (e.addr + e.instr.head.length + 2 * k) l
      (labelAt w (e.addr + e.instr.head.length + 2 * k))
  bound : ∀ e ∈ L.entries, ∀ l ∈ e.instr.labels, l.dest ≠ .ret → ∃ a, L.address? l.dest = some a
  target : ∀ e ∈ L.entries, ∀ l ∈ e.instr.labels, ∀ a, L.address? l.dest = some a →
    L.At a ∧ ∀ e' ∈ L.entries, a ≤ e'.addr ∨ e'.next ≤ a

/-- Instructions do not overlap. -/
theorem At.outside {L : Listing} {base a : ℕ} (hlisted : Listed base L.entries) (h : L.At a)
    {e : Entry} (he : e ∈ L.entries) : a ≤ e.addr ∨ e.next ≤ a := by
  have hall : ∀ es : List Entry, Listed base es → ∀ e₁ ∈ es, ∀ e₂ ∈ es,
      e₁.addr ≤ e₂.addr ∨ e₂.next ≤ e₁.addr := by
    intro es
    induction es with
    | nil =>
        intro _ e₁ h₁
        cases h₁
    | cons e₀ es ih =>
        intro hl e₁ h₁ e₂ h₂
        have hle : ∀ e ∈ es, e.addr ≤ e₀.addr ∧ e.next ≤ e₀.addr := by
          intro e he
          have := (hl.2.next_le he).2
          rw [hl.1]
          refine ⟨Nat.le_trans ?_ this, this⟩
          rw [Entry.next]
          exact Nat.le_add_right _ _
        rcases List.mem_cons.1 h₁ with rfl | h₁'
        · rcases List.mem_cons.1 h₂ with rfl | h₂'
          · exact Or.inl (Nat.le_refl _)
          · exact Or.inr (hle e₂ h₂').2
        · rcases List.mem_cons.1 h₂ with rfl | h₂'
          · exact Or.inl (hle e₁ h₁').1
          · exact ih hl.2 e₁ h₁' e₂ h₂'
  obtain ⟨e', he', rfl⟩ := h
  exact hall L.entries hlisted e' he' e he

end Listing

theorem Asm.mentions_address {t : Asm} {e : Entry} {l : Label} {a : ℕ} (he : e ∈ t.entries)
    (hl : l ∈ e.instr.labels) (ha : t.address? l.dest = some a) : t.Mentions a := by
  cases hd : l.dest with
  | ret =>
      rw [hd] at ha
      cases ha
  | back a' =>
      rw [hd] at ha
      cases ha
      exact Listing.Mentions.back he hl hd
  | end_ id =>
      rw [hd] at ha
      exact Listing.Mentions.end_ ha
  | else_ id =>
      rw [hd] at ha
      exact Listing.Mentions.else_ ha

theorem Listing.address?_of_resolve {L : Listing} {d : Dest} {target : JumpTarget}
    (h : L.resolve d = some target) (hd : d ≠ .ret) : ∃ a, L.address? d = some a := by
  cases d with
  | ret => exact absurd rfl hd
  | back a => exact ⟨a, rfl⟩
  | end_ id =>
      obtain ⟨a, ha, -⟩ := Option.map_eq_some_iff.1 h
      exact ⟨a, ha⟩
  | else_ id =>
      obtain ⟨a, ha, -⟩ := Option.map_eq_some_iff.1 h
      exact ⟨a, ha⟩

theorem Rep.exact {b : TextBuilder F D} {t : Asm} (h : Rep job 0 [] b t) (hshaped : t.Shaped .code)
    (hat : ∀ a, t.Mentions a → t.At a) : t.toListing.Exact b.code.word := by
  have hblocks : t.blocks = [] := List.length_eq_zero_iff.1 h.depth
  have hids := h.code.ids
  rw [hblocks] at hids
  refine ⟨fun e he k l hl => ?_, fun e he l hl hd => ?_, fun e he l hl a ha => ?_⟩
  · obtain ⟨-, hlabel, hlands⟩ :=
      h.code.code.lands hids hshaped.placed he (h.code.encodable e he) hl
    rw [hlabel]
    exact hlands
  · obtain ⟨k, hk, rfl⟩ := List.getElem_of_mem hl
    obtain ⟨-, -, hlands⟩ := h.code.code.lands hids hshaped.placed he (h.code.encodable e he)
      (List.getElem?_eq_getElem hk)
    exact Listing.address?_of_resolve (hlands.jump hd) hd
  · have hmem := hat a (Asm.mentions_address he hl ha)
    exact ⟨hmem, fun e' he' => hmem.outside hshaped.placed.listed he'⟩

/-- The compiler at the start of a body. -/
def LoadState.builder (s : LoadState) (env : LoadEnv) (ctx : Func) :
    TextBuilder env.maxControlFrames env.maxStackDepth :=
  (s.job ctx).builder env.maxControlFrames env.maxStackDepth

/-- The branch of an `else`, before the chain of the `if` is split. -/
theorem elseBranch_pendingChains {n : ℕ} {b b' : TextBuilder F D} {t t' : Asm} {ty : ResultType}
    (h : Rep job n [] b t) (hasm : Asm.visit job.context .else_ t = .ok () t')
    (hb : (do
      instr Opcode.br
      writeLabelTarget 0 : TextM F D ResultType) b = .ok ty b') :
    PendingChains job.code.size b' := by
  cases n with
  | zero =>
      have hnil : t.blocks = [] := List.length_eq_zero_iff.1 h.depth
      cases Asm.visit_step hasm with
      | silent hr => cases hr
      | plain he => cases he
      | else_ _ hblocks => rw [hnil] at hblocks; cases hblocks
  | succ m =>
      obtain ⟨_, t₁, -, -, hrep, -⟩ := (label_sim (m := m) (F := F) (D := D)
        (i := .br) 0 (fun _ => rfl) (fun _ h => h) t.height).ok h hb
      exact hrep.pendingChains

variable {env : LoadEnv} {ctx : Func} {s s' : LoadState} {entry : JumpTarget} {usage : ℕ}

/-- Back-patching is exact: every branch operand of a compiled body ends up with
its target, the ends of the blocks are where the stream ends them, and the
pending references form disjoint, decreasing chains all along. -/
theorem backpatching_exact (h : readExpr env ctx s = .ok (entry, usage) s') :
    ∃ calls t, readCode record ⟨s.wasm, []⟩ = .ok () ⟨s'.wasm, calls⟩ ∧
      visitAll (Asm.visitor (s.job ctx).context) calls (s.job ctx).start = .ok () t ∧
      t.toListing.Exact s'.code.word ∧
      (∀ pre i post t' b bs, pre ++ i :: post = calls →
        visitAll (Asm.visitor (s.job ctx).context) pre (s.job ctx).start = .ok () t' →
        t'.blocks = b :: bs → t'.Binds b i t) ∧
      (∀ pre post b, pre ++ post = calls →
        visitAll Compiler.visit pre (s.builder env ctx) = .ok () b →
        PendingChains s.code.size b ∧
          ∀ rest ty b', post = .else_ :: rest → (do
            instr Opcode.br
            writeLabelTarget 0 : TextM env.maxControlFrames env.maxStackDepth ResultType) b =
              .ok ty b' → PendingChains s.code.size b') := by
  obtain ⟨t, hcompiled, hlinked⟩ := readExpr_compiles (s.job ctx).linked_invariant
    (s.job ctx).start_linked h
  obtain ⟨b, hrep, hcode⟩ := hcompiled.rep
  have hD : env.maxStackDepth < 2 ^ 16 := by
    have := env.maxStackDepth_le
    omega
  have hstart : RepWith (s.job ctx) Asm.Linked 1 (s.builder env ctx) (s.job ctx).start :=
    ⟨builder_rep env.maxControlFrames_pos, (s.job ctx).start_linked⟩
  obtain ⟨calls, hcalls, hasm⟩ := readCode_eq_ok.1 hcompiled.assembles
  have hstream := record_stream hcalls
  obtain ⟨b₁, hv⟩ : ∃ b, visitAll Compiler.visit calls (s.builder env ctx) = .ok () b := by
    obtain ⟨calls', b₁, hcalls', hv⟩ := readExpr_calls h
    rw [hcalls] at hcalls'
    cases hcalls'
    exact ⟨b₁, hv⟩
  refine ⟨calls, t, hcalls, hasm, ?_, ?_, ?_⟩
  · rw [hcode]
    exact hrep.exact hlinked.1 fun a ha => at_of_mentions hD hstream hstart hv hasm ha
  · intro pre i post t' b bs hpre ht' hb
    exact binds_of_prefix hD hstream hstart hv hpre ht' hasm hb
  · intro pre post b hpre hb
    obtain ⟨m, n, t', ht', hrep', -, -⟩ :=
      afterPrefix (s.job ctx).linked_invariant hD hstream hpre hstart hb
    refine ⟨hrep'.pendingChains, fun rest ty b' hpost hb' => ?_⟩
    rw [← hpre, hpost, visitAll_append] at hasm
    obtain ⟨t'', ht'', hrest⟩ := hasm
    rw [ht'] at ht''
    cases ht''
    rw [visitAll, forEach_cons] at hrest
    obtain ⟨_, t₁, hi, -⟩ := bind_eq_ok.1 hrest
    exact elseBranch_pendingChains hrep' (Asm.visitor_eq_ok.1 hi) hb'

/-- `i32.const 0`, `if`, `br 0`, `else`, `nop`, `end`, `end`. -/
def ifElseBody : List U8 := [0x41, 0x00, 0x04, 0x40, 0x0C, 0x00, 0x05, 0x01, 0x0B, 0x0B]

theorem ifElseBody_exact :
    ∃ entry usage s', readExpr simpleEnv thunk (simpleLoad ifElseBody) = .ok (entry, usage) s' ∧
      ∃ t : Asm, t.toListing.Exact s'.code.word := by
  have hok : (readExpr simpleEnv thunk (simpleLoad ifElseBody)).isOk = true := by decide +kernel
  obtain ⟨⟨entry, usage⟩, s', h⟩ := Outcome.isOk_iff.1 hok
  obtain ⟨calls, t, -, -, hexact, -⟩ := backpatching_exact h
  exact ⟨entry, usage, s', h, t, hexact⟩

end SpaceWasm
