import SpaceWasm.Assembler

/-!
# Chains of branch operands

The branches to a block that is still open are linked through their own operand
words: each operand jumps to the one before it, and the first one has no offset.
`Chained` describes such a chain over the words of the code, and the two walks
along it are specified here: one lets every operand jump to a target, the other
one only the first, which it cuts off.
-/

namespace SpaceWasm

open Fallible TextBuilder

/-- The errors of the compiler that are limits of the implementation. -/
def ValidationError.IsLimit : ValidationError → Prop
  | .allocError _ => True
  | .labelJumpTooLarge => True
  | .labelStackJumpTooDeep => True
  | .idxTooLarge => True
  | .possibleBackpatchCycle => True
  | .illegalMemoryGrow => True
  | .stackTooLarge => True
  | _ => False

/-- The branch operand in the two words at an address. -/
def labelAt (w : ℕ → U16) (a : ℕ) : LabelTarget := join32 (w a) (w (a + 1))

/-- The operand of a label with an offset. -/
def Label.pack (l : Label) (o : JumpOffset) : LabelTarget :=
  LabelTarget.new l.result (BitVec.ofNat 8 l.depth) o

/-- The operand at `a` is the one of `l` with a jump to `target`. -/
def Jumps (w : ℕ → U16) (a : ℕ) (l : Label) (target : JumpTarget) : Prop :=
  ∃ o, JumpOffset.new (addrOf a) target = .ok o ∧ labelAt w a = l.pack o

/-- A branch operand in the code. -/
structure Site where
  addr : ℕ
  label : Label
  deriving DecidableEq

/-- The operands of `sites`, the last one first, form a chain that starts at the
code address `head`. -/
def Chained (w : ℕ → U16) : JumpTarget → List Site → Prop
  | head, [] => head = JumpTarget.sentinel
  | head, s :: sites => head = addrOf s.addr ∧ (∀ s' ∈ sites, s'.addr + 2 ≤ s.addr) ∧
      ∃ next, Jumps w s.addr s.label next ∧ Chained w next sites

/-- The words outside a list of operands. -/
def Site.Avoids (sites : List Site) (i : ℕ) : Prop :=
  ∀ s ∈ sites, i ≠ s.addr ∧ i ≠ s.addr + 1

/-- A change of the code within a list of operands. -/
structure Patched (sites : List Site) (c c' : CodeBuilder) : Prop where
  shape : CodeBuilder.SameShape c c'
  word : ∀ i, Site.Avoids sites i → c'.word i = c.word i

/-! ### Single operands -/

theorem JumpOffset.new_fits {a b : JumpTarget} {o : JumpOffset} (h : JumpOffset.new a b = .ok o) :
    o.Fits := by
  by_cases hb : b = JumpTarget.sentinel
  · rw [hb, JumpOffset.new_sentinel] at h
    cases h
    exact JumpOffset.fits_zero
  · exact ((JumpOffset.new_eq_ok hb).1 h).2

theorem Jumps.congr {w w' : ℕ → U16} {a : ℕ} {l : Label} {target : JumpTarget}
    (h : Jumps w a l target) (hlo : w' a = w a) (hhi : w' (a + 1) = w (a + 1)) :
    Jumps w' a l target := by
  obtain ⟨o, ho, hl⟩ := h
  refine ⟨o, ho, ?_⟩
  rw [labelAt, hlo, hhi]
  exact hl

/-- The offset of a link between operands is not the sentinel's. -/
theorem link_ne_zero {a b : ℕ} {o : JumpOffset} (ha : a < 2 ^ 32 - 1) (hab : b < a)
    (h : JumpOffset.new (addrOf a) (addrOf b) = .ok o) : o ≠ 0 := by
  rw [JumpOffset.new_eq_ok (addrOf_ne_sentinel (by omega))] at h
  intro hzero
  rw [hzero] at h
  have heq : addrOf b = addrOf a := by
    have hadd : 0#32 + addrOf a = addrOf b - addrOf a + addrOf a := congrArg (· + addrOf a) h.1
    rwa [BitVec.sub_add_cancel, BitVec.zero_add, eq_comm] at hadd
  rw [addrOf_inj (by omega) (by omega)] at heq
  omega

theorem add_link {a : JumpTarget} {b : ℕ} {o : JumpOffset} (hb : b < 2 ^ 32 - 1)
    (h : JumpOffset.new a (addrOf b) = .ok o) : a + o = addrOf b := by
  rw [JumpOffset.new_eq_ok (addrOf_ne_sentinel hb)] at h
  rw [h.1, BitVec.add_comm, BitVec.sub_add_cancel]

/-- Reading the operand at an address. -/
theorem read32_labelAt {c : CodeBuilder} {a : ℕ} (h : a + 1 < c.size) :
    CodeBuilder.read32 (addrOf a) c = .ok (labelAt c.word a) c :=
  CodeBuilder.read32_apply h

/-- Overwriting the operand at an address. -/
theorem write32_labelAt {c : CodeBuilder} {a : ℕ} (v : LabelTarget) (h : a + 1 < c.size) :
    ∃ c', CodeBuilder.write32 (addrOf a) v c = .ok () c' ∧ labelAt c'.word a = v ∧
      CodeBuilder.SameShape c c' ∧ ∀ i, i ≠ a → i ≠ a + 1 → c'.word i = c.word i := by
  obtain ⟨c', hc, hw, hs⟩ := CodeBuilder.write32_apply v h
  refine ⟨c', hc, ?_, hs, ?_⟩
  · rw [labelAt, hw, Function.update_self, Function.update_of_ne (by omega), Function.update_self,
      join32_words]
  · intro i hi hi'
    rw [hw, Function.update_of_ne hi', Function.update_of_ne hi]

/-- What patching one operand does: it jumps to the target, or the jump is too
large and nothing has changed. -/
theorem patchLabel_spec {c : CodeBuilder} {s : Site} (target : JumpTarget) {o : JumpOffset}
    (h : s.addr + 1 < c.size) :
    match patchLabel target (addrOf s.addr) (s.label.pack o) c with
    | .ok _ c' => Jumps c'.word s.addr s.label target ∧ Patched [s] c c'
    | .error e c' => e.IsLimit ∧ c' = c
    | .panic => False
    | .diverge => False := by
  unfold patchLabel
  cases hnew : JumpOffset.new (addrOf s.addr) target with
  | error e =>
      have he := JumpOffset.new_error hnew
      subst he
      exact ⟨trivial, rfl⟩
  | ok o' =>
      rw [ofExcept_ok, pure_bind]
      obtain ⟨c', hc, hl, hs, hw⟩ :=
        write32_labelAt (LabelTarget.withJump (s.label.pack o) o') h
      rw [hc]
      refine ⟨⟨o', hnew, ?_⟩, hs, ?_⟩
      · rw [hl, Label.pack, LabelTarget.withJump_new, Label.pack]
      · intro i hi
        obtain ⟨h1, h2⟩ := hi s (List.mem_singleton_self s)
        exact hw i h1 h2

/-! ### Chains -/

theorem Chained.congr {w w' : ℕ → U16} {head : JumpTarget} {sites : List Site}
    (h : Chained w head sites)
    (hw : ∀ s ∈ sites, w' s.addr = w s.addr ∧ w' (s.addr + 1) = w (s.addr + 1)) :
    Chained w' head sites := by
  induction sites generalizing head with
  | nil => exact h
  | cons s sites ih =>
      obtain ⟨hhead, hlt, next, hjump, hnext⟩ := h
      obtain ⟨hlo, hhi⟩ := hw s List.mem_cons_self
      refine ⟨hhead, hlt, next, hjump.congr hlo hhi, ih hnext fun s' hs' => ?_⟩
      exact hw s' (List.mem_cons_of_mem s hs')

/-- The chain is no longer than the code. -/
theorem Chained.length_le {w : ℕ → U16} {head : JumpTarget} {sites : List Site} {n : ℕ}
    (h : Chained w head sites) (hn : ∀ s ∈ sites, s.addr + 1 < n) : sites.length ≤ n := by
  induction sites generalizing head n with
  | nil => exact Nat.zero_le n
  | cons s sites ih =>
      obtain ⟨-, hlt, next, -, hnext⟩ := h
      have hs := hn s List.mem_cons_self
      have hrest := ih hnext (n := s.addr) fun s' hs' => by
        have := hlt s' hs'
        omega
      rw [List.length_cons]
      omega

theorem Patched.refl (sites : List Site) (c : CodeBuilder) : Patched sites c c :=
  ⟨⟨rfl, rfl, rfl⟩, fun _ _ => rfl⟩

theorem Patched.mono {sites sites' : List Site} {c c' : CodeBuilder} (h : Patched sites c c')
    (hsub : ∀ s ∈ sites, s ∈ sites') : Patched sites' c c' :=
  ⟨h.shape, fun i hi => h.word i fun s hs => hi s (hsub s hs)⟩

theorem Patched.trans {sites : List Site} {c c' c'' : CodeBuilder} (h : Patched sites c c')
    (h' : Patched sites c' c'') : Patched sites c c'' := by
  refine ⟨⟨?_, ?_, ?_⟩, fun i hi => ?_⟩
  · rw [h'.shape.size, h.shape.size]
  · rw [h'.shape.pages, h.shape.pages]
  · rw [h'.shape.options, h.shape.options]
  · rw [h'.word i hi, h.word i hi]

/-- The words of the operands below one are not touched when it is patched. -/
theorem Patched.word_below {s : Site} {c c' : CodeBuilder} (h : Patched [s] c c') {a : ℕ}
    (ha : a + 2 ≤ s.addr) : c'.word a = c.word a ∧ c'.word (a + 1) = c.word (a + 1) := by
  constructor
  · refine h.word a fun s' hs' => ?_
    rw [List.mem_singleton.1 hs']
    omega
  · refine h.word (a + 1) fun s' hs' => ?_
    rw [List.mem_singleton.1 hs']
    omega

/-- The same for the operands above it. -/
theorem Patched.word_above {s : Site} {c c' : CodeBuilder} (h : Patched [s] c c') {a : ℕ}
    (ha : s.addr + 2 ≤ a) : c'.word a = c.word a ∧ c'.word (a + 1) = c.word (a + 1) := by
  constructor
  · refine h.word a fun s' hs' => ?_
    rw [List.mem_singleton.1 hs']
    omega
  · refine h.word (a + 1) fun s' hs' => ?_
    rw [List.mem_singleton.1 hs']
    omega

/-- What a walk along a chain does when it is one that patches every operand. -/
def PatchedAll (target : JumpTarget) (sites : List Site) (c : CodeBuilder) :
    Outcome ValidationError CodeBuilder Unit → Prop
  | .ok _ c' => Patched sites c c' ∧ ∀ s ∈ sites, Jumps c'.word s.addr s.label target
  | .error e c' => e.IsLimit ∧ Patched sites c c'
  | .panic => False
  | .diverge => False

/-- The rounds of `backpatch` with the closure of `pop_control`. -/
theorem backpatchLoop_patchLabel {target : JumpTarget} {fuel n : ℕ} {c : CodeBuilder} {s : Site}
    {sites : List Site} {head : JumpTarget} (h : Chained c.word head (s :: sites))
    (hsize : ∀ s' ∈ s :: sites, s'.addr + 1 < c.size) (hfuel : sites.length < fuel) :
    PatchedAll target (s :: sites) c
      (CodeBuilder.backpatchLoop (fun _ address label => patchLabel target address label) fuel n
        head () c) := by
  induction sites generalizing c s head fuel n with
  | nil =>
      obtain ⟨fuel, rfl⟩ : ∃ m, fuel = m + 1 := ⟨fuel - 1, by
        rw [List.length_nil] at hfuel
        omega⟩
      obtain ⟨rfl, -, next, ⟨o, ho, hl⟩, hnext⟩ := h
      have hzero : o = 0 := by
        rw [Chained] at hnext
        rw [hnext, JumpOffset.new_sentinel] at ho
        cases ho
        rfl
      have hs := hsize s List.mem_cons_self
      have hpatch := patchLabel_spec target (o := o) hs
      rw [CodeBuilder.backpatchLoop, bind_of_ok (read32_labelAt hs), hl, bind_apply]
      rcases hp : patchLabel target (addrOf s.addr) (s.label.pack o) c with
        ⟨_, c₁⟩ | ⟨e, c₁⟩ | _ | _ <;> rw [hp] at hpatch
      · have hsent : LabelTarget.isSentinel (s.label.pack o) = true := by
          rw [Label.pack, LabelTarget.isSentinel_new (JumpOffset.new_fits ho), hzero]
          rfl
        simp only [hsent, if_true]
        refine ⟨hpatch.2, fun s' hs' => ?_⟩
        rw [List.mem_singleton.1 hs']
        exact hpatch.1
      · exact ⟨hpatch.1, by rw [hpatch.2]; exact Patched.refl _ c⟩
      · exact hpatch
      · exact hpatch
  | cons r sites ih =>
      obtain ⟨fuel, rfl⟩ : ∃ m, fuel = m + 1 := ⟨fuel - 1, by omega⟩
      obtain ⟨rfl, hlt, next, ⟨o, ho, hl⟩, hnext⟩ := h
      have hs := hsize s List.mem_cons_self
      have hsz := c.size_lt
      have hr : next = addrOf r.addr := hnext.1
      have hrs : r.addr + 2 ≤ s.addr := hlt r List.mem_cons_self
      have hpatch := patchLabel_spec target (o := o) hs
      rw [CodeBuilder.backpatchLoop, bind_of_ok (read32_labelAt hs), hl, bind_apply]
      rcases hp : patchLabel target (addrOf s.addr) (s.label.pack o) c with
        ⟨_, c₁⟩ | ⟨e, c₁⟩ | _ | _ <;> rw [hp] at hpatch
      · have hne : o ≠ 0 := by
          rw [hr] at ho
          exact link_ne_zero (by omega) (by omega) ho
        have hfits := JumpOffset.new_fits ho
        have hsent : LabelTarget.isSentinel (s.label.pack o) = false := by
          rw [Label.pack, LabelTarget.isSentinel_new hfits]
          exact decide_eq_false hne
        have hjump : LabelTarget.jump (s.label.pack o) = o := LabelTarget.jump_new hfits
        have hadd : addrOf s.addr + o = next := by
          rw [hr] at ho ⊢
          exact add_link (by omega) ho
        have hchain : Chained c₁.word next (r :: sites) := by
          refine hnext.congr fun s' hs' => hpatch.2.word_below ?_
          exact hlt s' hs'
        have hsize' : ∀ s' ∈ r :: sites, s'.addr + 1 < c₁.size := by
          intro s' hs'
          rw [hpatch.2.shape.size]
          exact hsize s' (List.mem_cons_of_mem s hs')
        have hrest : ∀ m, PatchedAll target (s :: r :: sites) c
            (CodeBuilder.backpatchLoop (fun _ address label => patchLabel target address label)
              fuel m next () c₁) := by
          intro m
          have hfuel' : sites.length < fuel := Nat.lt_of_succ_lt_succ hfuel
          have hih := ih (n := m) hchain hsize' hfuel'
          have hfirst : Patched (s :: r :: sites) c c₁ :=
            hpatch.2.mono fun s' hs' => by rw [List.mem_singleton.1 hs']; exact List.mem_cons_self
          rcases hb : CodeBuilder.backpatchLoop
              (fun _ address label => patchLabel target address label) fuel m next () c₁ with
            ⟨_, c₂⟩ | ⟨e, c₂⟩ | _ | _ <;> rw [hb] at hih
          · have hlater : Patched (s :: r :: sites) c₁ c₂ :=
              hih.1.mono fun s' hs' => List.mem_cons_of_mem s hs'
            refine ⟨hfirst.trans hlater, fun s' hs' => ?_⟩
            rcases List.mem_cons.1 hs' with rfl | hs'
            · have hword : ∀ i, s'.addr ≤ i → c₂.word i = c₁.word i := by
                intro i hi
                refine hih.1.word i fun x hx => ?_
                have := hlt x hx
                omega
              exact hpatch.1.congr (hword _ (Nat.le_refl _)) (hword _ (Nat.le_succ _))
            · exact hih.2 s' hs'
          · exact ⟨hih.1, hfirst.trans (hih.2.mono fun s' hs' => List.mem_cons_of_mem s hs')⟩
          · exact hih
          · exact hih
        simp only [hsent, Bool.false_eq_true, if_false, hjump, hadd]
        rw [bind_of_ok (get_apply c₁)]
        cases c₁.options.maxBackpatchIterations with
        | none => exact hrest (n + 1)
        | some max =>
            simp only
            by_cases hmax : max < n + 1
            · rw [if_pos hmax]
              exact ⟨trivial, hpatch.2.mono fun s' hs' => by
                rw [List.mem_singleton.1 hs']; exact List.mem_cons_self⟩
            · rw [if_neg hmax]
              exact hrest (n + 1)
      · exact ⟨hpatch.1, by rw [hpatch.2]; exact Patched.refl _ c⟩
      · exact hpatch
      · exact hpatch

/-- Patching all operands of a chain. -/
theorem backpatch_patchLabel (target : JumpTarget) {c : CodeBuilder} {sites : List Site}
    {head : JumpTarget} (h : Chained c.word head sites)
    (hsize : ∀ s ∈ sites, s.addr + 1 < c.size) :
    PatchedAll target sites c
      (CodeBuilder.backpatch head ()
        (fun _ address label => patchLabel target address label) c) := by
  unfold CodeBuilder.backpatch
  cases sites with
  | nil =>
      rw [Chained] at h
      rw [if_pos h]
      exact ⟨Patched.refl _ c, fun s hs => by cases hs⟩
  | cons s sites =>
      have hhead : head = addrOf s.addr := h.1
      have hs := hsize s List.mem_cons_self
      have hne : head ≠ JumpTarget.sentinel := by
        rw [hhead]
        exact addrOf_ne_sentinel (by have := c.size_lt; omega)
      rw [if_neg hne, bind_of_ok (get_apply c)]
      refine backpatchLoop_patchLabel h hsize ?_
      have hlen := h.length_le hsize
      have hsz := c.size_le
      rw [List.length_cons] at hlen
      omega

/-! ### The tail of a chain -/

/-- What the walk of `pop_control_and_patch_if` does once it has passed the
operand `p`: the tail jumps to the target, and the operand before it ends the
chain. -/
def PatchedTail (target head : JumpTarget) (p : Site) (sites : List Site) (tail : Site)
    (c : CodeBuilder) : Outcome ValidationError CodeBuilder (JumpTarget × JumpTarget) → Prop
  | .ok acc c' => acc.2 = head ∧ Patched (p :: sites ++ [tail]) c c' ∧
      Jumps c'.word tail.addr tail.label target ∧
      ∀ start, Chained c.word start (p :: sites ++ [tail]) →
        Chained c'.word start (p :: sites)
  | .error e c' => e.IsLimit ∧ Patched (p :: sites ++ [tail]) c c'
  | .panic => False
  | .diverge => False

/-- The last round: patch the tail and cut it off from the operand before it. -/
theorem patchIfTail_tail (target head rem : JumpTarget) {c : CodeBuilder} {p tail : Site}
    {o : JumpOffset} (hp : p.addr + 1 < c.size) (htail : tail.addr + 2 ≤ p.addr)
    (hpack : ∃ o, labelAt c.word p.addr = p.label.pack o)
    (hsent : LabelTarget.isSentinel (tail.label.pack o) = true) :
    PatchedTail target head p [] tail c
      (patchIfTail head target (addrOf p.addr, rem) (addrOf tail.addr) (tail.label.pack o) c) := by
  have hsz := c.size_lt
  have hne : addrOf p.addr ≠ JumpTarget.sentinel := addrOf_ne_sentinel (by omega)
  have hpatch := patchLabel_spec target (s := tail) (o := o) (c := c) (by omega)
  unfold patchIfTail
  simp only [hsent, if_true]
  rw [bind_apply]
  rcases hpl : patchLabel target (addrOf tail.addr) (tail.label.pack o) c with
    ⟨_, c₁⟩ | ⟨e, c₁⟩ | _ | _ <;> rw [hpl] at hpatch
  · obtain ⟨hjump, hpatched⟩ := hpatch
    obtain ⟨op, hop⟩ := hpack
    have hp₁ : p.addr + 1 < c₁.size := by rw [hpatched.shape.size]; exact hp
    have habove := hpatched.word_above htail
    have hl₁ : labelAt c₁.word p.addr = p.label.pack op := by
      rw [labelAt, habove.1, habove.2]
      exact hop
    obtain ⟨c₂, hc₂, hl₂, hs₂, hw₂⟩ :=
      write32_labelAt (LabelTarget.withJump (p.label.pack op) JumpOffset.sentinel) hp₁
    rw [Label.pack, LabelTarget.withJump_new] at hl₂
    simp only [ne_eq, hne, not_false_eq_true, if_true]
    rw [bind_of_ok (read32_labelAt hp₁), hl₁, bind_of_ok hc₂, pure_apply]
    have hp₂ : Patched [p] c₁ c₂ := ⟨hs₂, fun i hi => by
      obtain ⟨h1, h2⟩ := hi p (List.mem_singleton_self p)
      exact hw₂ i h1 h2⟩
    have hbelow := hp₂.word_below htail
    refine ⟨rfl, (hpatched.mono ?_).trans (hp₂.mono ?_), hjump.congr hbelow.1 hbelow.2, ?_⟩
    · intro s hs
      rw [List.mem_singleton.1 hs]
      simp
    · intro s hs
      rw [List.mem_singleton.1 hs]
      simp
    · intro start hchain
      refine ⟨hchain.1, (fun s hs => by cases hs), JumpTarget.sentinel, ⟨0, ?_, hl₂⟩, rfl⟩
      exact JumpOffset.new_sentinel _
  · exact ⟨hpatch.1, by rw [hpatch.2]; exact Patched.refl _ c⟩
  · exact hpatch
  · exact hpatch

/-- The rounds of `backpatch` with the closure of `pop_control_and_patch_if`,
after the first one. -/
theorem backpatchLoop_patchIfTail {target head rem : JumpTarget} {fuel n : ℕ} {c : CodeBuilder}
    {p tail : Site} {sites : List Site} {start next : JumpTarget}
    (h : Chained c.word start (p :: sites ++ [tail]))
    (hnext : Chained c.word next (sites ++ [tail]))
    (hsize : p.addr + 1 < c.size) (hfuel : sites.length < fuel) :
    PatchedTail target head p sites tail c
      (CodeBuilder.backpatchLoop (patchIfTail head target) fuel n next (addrOf p.addr, rem) c) := by
  induction sites generalizing p start next fuel n with
  | nil =>
      obtain ⟨fuel, rfl⟩ : ∃ m, fuel = m + 1 := ⟨fuel - 1, by
        rw [List.length_nil] at hfuel
        omega⟩
      obtain ⟨hstart, hlt, next', ⟨op, hop, hlp⟩, -⟩ := h
      obtain ⟨rfl, -, next'', ⟨o, ho, hl⟩, hend⟩ := hnext
      have htail : tail.addr + 2 ≤ p.addr := hlt tail (List.mem_singleton_self tail)
      have hzero : o = 0 := by
        rw [Chained] at hend
        rw [hend, JumpOffset.new_sentinel] at ho
        cases ho
        rfl
      have hsent : LabelTarget.isSentinel (tail.label.pack o) = true := by
        rw [Label.pack, LabelTarget.isSentinel_new (JumpOffset.new_fits ho), hzero]
        rfl
      have hround := patchIfTail_tail target head rem (o := o)
        hsize htail ⟨op, hlp⟩ hsent
      rw [CodeBuilder.backpatchLoop, bind_of_ok (read32_labelAt (by omega)), hl, bind_apply]
      rcases hr : patchIfTail head target (addrOf p.addr, rem) (addrOf tail.addr)
          (tail.label.pack o) c with ⟨acc, c₁⟩ | ⟨e, c₁⟩ | _ | _ <;> rw [hr] at hround
      · simp only [hsent, if_true]
        exact hround
      · exact hround
      · exact hround
      · exact hround
  | cons q sites ih =>
      obtain ⟨fuel, rfl⟩ : ∃ m, fuel = m + 1 := ⟨fuel - 1, by omega⟩
      have hsz := c.size_lt
      have hq := h.2.1 q List.mem_cons_self
      have hchain := hnext
      obtain ⟨rfl, hlt, next', ⟨o, ho, hl⟩, hnext'⟩ := hnext
      obtain ⟨r, hr, hrq⟩ : ∃ r : Site, next' = addrOf r.addr ∧ r.addr + 2 ≤ q.addr := by
        cases sites with
        | nil => exact ⟨tail, hnext'.1, hlt tail (List.mem_singleton_self tail)⟩
        | cons r rs => exact ⟨r, hnext'.1, hlt r List.mem_cons_self⟩
      have hfits := JumpOffset.new_fits ho
      have hne : o ≠ 0 := by
        rw [hr] at ho
        exact link_ne_zero (by omega) (by omega) ho
      have hsent : LabelTarget.isSentinel (q.label.pack o) = false := by
        rw [Label.pack, LabelTarget.isSentinel_new hfits]
        exact decide_eq_false hne
      have hjump : LabelTarget.jump (q.label.pack o) = o := LabelTarget.jump_new hfits
      have hadd : addrOf q.addr + o = next' := by
        rw [hr] at ho ⊢
        exact add_link (by omega) ho
      have hrest : ∀ m, PatchedTail target head p (q :: sites) tail c
          (CodeBuilder.backpatchLoop (patchIfTail head target) fuel m next'
            (addrOf q.addr, rem) c) := by
        intro m
        have hfuel' : sites.length < fuel := Nat.lt_of_succ_lt_succ hfuel
        have hih := ih (n := m) hchain hnext' (by omega) hfuel'
        have hmono : ∀ c', Patched (q :: sites ++ [tail]) c c' →
            Patched (p :: q :: sites ++ [tail]) c c' :=
          fun c' hc' => hc'.mono fun s hs => List.mem_cons_of_mem p hs
        rcases hb : CodeBuilder.backpatchLoop (patchIfTail head target) fuel m next'
            (addrOf q.addr, rem) c with ⟨acc, c₂⟩ | ⟨e, c₂⟩ | _ | _ <;> rw [hb] at hih
        · obtain ⟨hacc, hpatched, htail, hcut⟩ := hih
          refine ⟨hacc, hmono c₂ hpatched, htail, fun start' hstart' => ?_⟩
          obtain ⟨hs', hlt', next₀, hjump₀, hrest₀⟩ := hstart'
          have hword : ∀ i, p.addr ≤ i → c₂.word i = c.word i := by
            intro i hi
            refine hpatched.word i fun x hx => ?_
            have := hlt' x hx
            omega
          refine ⟨hs', fun x hx => hlt' x ?_, next₀,
            hjump₀.congr (hword _ (Nat.le_refl _)) (hword _ (Nat.le_succ _)), hcut next₀ hrest₀⟩
          exact List.mem_append_left [tail] hx
        · exact ⟨hih.1, hmono c₂ hih.2⟩
        · exact hih
        · exact hih
      rw [CodeBuilder.backpatchLoop, bind_of_ok (read32_labelAt (by omega)), hl]
      have hround : patchIfTail head target (addrOf p.addr, rem) (addrOf q.addr)
          (q.label.pack o) c =
          .ok (addrOf q.addr, rem) c := by
        unfold patchIfTail
        simp [hsent]
      rw [bind_of_ok hround]
      simp only [hsent, Bool.false_eq_true, if_false, hjump, hadd]
      rw [bind_of_ok (get_apply c)]
      cases c.options.maxBackpatchIterations with
      | none => exact hrest (n + 1)
      | some max =>
          simp only
          by_cases hmax : max < n + 1
          · rw [if_pos hmax]
            exact ⟨trivial, Patched.refl _ c⟩
          · rw [if_neg hmax]
            exact hrest (n + 1)

/-- Cutting the tail off a chain, and letting it jump to a target. -/
theorem backpatch_patchIfTail (target : JumpTarget) {head : JumpTarget} {c : CodeBuilder}
    {p tail : Site}
    {sites : List Site} (h : Chained c.word head (p :: sites ++ [tail]))
    (hsize : p.addr + 1 < c.size) :
    PatchedTail target head p sites tail c
      (CodeBuilder.backpatch head (JumpTarget.sentinel, JumpTarget.sentinel)
        (patchIfTail head target) c) := by
  have hchain := h
  have hall : ∀ s ∈ p :: sites ++ [tail], s.addr + 1 < c.size := by
    intro s hs
    rcases List.mem_cons.1 hs with rfl | hs
    · exact hsize
    · have := h.2.1 s hs
      omega
  have hlen := h.length_le hall
  have hsz := c.size_le
  have hsz' := c.size_lt
  obtain ⟨rfl, hlt, next, ⟨o, ho, hl⟩, hnext⟩ := h
  obtain ⟨r, hr, hrp⟩ : ∃ r : Site, next = addrOf r.addr ∧ r.addr + 2 ≤ p.addr := by
    cases sites with
    | nil => exact ⟨tail, hnext.1, hlt tail (List.mem_singleton_self tail)⟩
    | cons r rs => exact ⟨r, hnext.1, hlt r List.mem_cons_self⟩
  have hne : addrOf p.addr ≠ JumpTarget.sentinel := addrOf_ne_sentinel (by omega)
  have hfits := JumpOffset.new_fits ho
  have hzero : o ≠ 0 := by
    rw [hr] at ho
    exact link_ne_zero (by omega) (by omega) ho
  have hsent : LabelTarget.isSentinel (p.label.pack o) = false := by
    rw [Label.pack, LabelTarget.isSentinel_new hfits]
    exact decide_eq_false hzero
  have hjump : LabelTarget.jump (p.label.pack o) = o := LabelTarget.jump_new hfits
  have hadd : addrOf p.addr + o = next := by
    rw [hr] at ho ⊢
    exact add_link (by omega) ho
  have hround : patchIfTail (addrOf p.addr) target (JumpTarget.sentinel, JumpTarget.sentinel)
      (addrOf p.addr)
      (p.label.pack o) c = .ok (addrOf p.addr, JumpTarget.sentinel) c := by
    unfold patchIfTail
    simp [hsent]
  have hrest : ∀ m, PatchedTail target (addrOf p.addr) p sites tail c
      (CodeBuilder.backpatchLoop (patchIfTail (addrOf p.addr) target) (256 * c.pages.length) m next
        (addrOf p.addr, JumpTarget.sentinel) c) := by
    intro m
    refine backpatchLoop_patchIfTail hchain hnext hsize ?_
    simp only [List.cons_append, List.length_cons, List.length_append, List.length_nil] at hlen
    omega
  unfold CodeBuilder.backpatch
  rw [if_neg hne, bind_of_ok (get_apply c), CodeBuilder.backpatchLoop,
    bind_of_ok (read32_labelAt hsize), hl, bind_of_ok hround]
  simp only [hsent, Bool.false_eq_true, if_false, hjump, hadd]
  rw [bind_of_ok (get_apply c)]
  cases c.options.maxBackpatchIterations with
  | none => exact hrest (0 + 1)
  | some max =>
      simp only
      by_cases hmax : max < 0 + 1
      · rw [if_pos hmax]
        exact ⟨trivial, Patched.refl _ c⟩
      · rw [if_neg hmax]
        exact hrest (0 + 1)

end SpaceWasm
