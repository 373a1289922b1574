import Mathlib.Logic.Function.Basic
import SpaceWasm.IrReader

/-!
# The code buffer as a flat sequence of words

The pages of the code builder hold one sequence of words: `size` is its length
and `word` its content, and the address of the `i`-th word is `i` itself. Pushes
append to the sequence, writes update it, and the IR decoder fetches from it.
-/

namespace SpaceWasm

open Fallible

/-- The address of the `i`-th word. -/
abbrev addrOf (i : ℕ) : JumpTarget := BitVec.ofNat 32 i

theorem JumpTarget.page_eq (a : JumpTarget) : a.page = a.toNat / 256 := by
  simp only [JumpTarget.page, BitVec.toNat_ushiftRight, Nat.shiftRight_eq_div_pow]

theorem JumpTarget.offset_eq (a : JumpTarget) : a.offset = a.toNat % 256 := by
  have hmask : (0xFF#32).toNat = 2 ^ 8 - 1 := by decide
  rw [JumpTarget.offset, BitVec.toNat_and, hmask, Nat.and_two_pow_sub_one_eq_mod]

theorem toNat_addrOf {i : ℕ} (h : i < 2 ^ 32) : (addrOf i).toNat = i := by
  rw [BitVec.toNat_ofNat, Nat.mod_eq_of_lt h]

theorem addrOf_page {i : ℕ} (h : i < 2 ^ 32) : (addrOf i).page = i / 256 := by
  rw [JumpTarget.page_eq, toNat_addrOf h]

theorem addrOf_offset {i : ℕ} (h : i < 2 ^ 32) : (addrOf i).offset = i % 256 := by
  rw [JumpTarget.offset_eq, toNat_addrOf h]

@[simp] theorem addrOf_add_one (i : ℕ) : addrOf i + 1 = addrOf (i + 1) := by
  rw [addrOf, addrOf, BitVec.ofNat_add]
  rfl

theorem addrOf_inj {i j : ℕ} (hi : i < 2 ^ 32) (hj : j < 2 ^ 32) :
    addrOf i = addrOf j ↔ i = j := by
  constructor
  · intro h
    have hnat := congrArg BitVec.toNat h
    rwa [addrOf, addrOf, BitVec.toNat_ofNat, BitVec.toNat_ofNat, Nat.mod_eq_of_lt hi,
      Nat.mod_eq_of_lt hj] at hnat
  · rintro rfl
    rfl

theorem addrOf_ne_sentinel {i : ℕ} (h : i < 2 ^ 32 - 1) : addrOf i ≠ JumpTarget.sentinel := by
  intro heq
  have hnat : (addrOf i).toNat = 2 ^ 32 - 1 := congrArg BitVec.toNat heq
  rw [BitVec.toNat_ofNat] at hnat
  omega

/-- The `i`-th word of a list of pages. -/
def pageWord (pages : List TextPage) (i : ℕ) : U16 :=
  match pages[i / 256]? with
  | some page => page[i % 256]
  | none => 0

namespace CodeBuilder

/-- The number of words pushed so far. -/
def size (c : CodeBuilder) : ℕ :=
  if c.pages.length = 0 then 0 else 256 * (c.pages.length - 1) + c.offset

/-- The `i`-th word. -/
def word (c : CodeBuilder) (i : ℕ) : U16 := pageWord c.pages i

theorem size_le (c : CodeBuilder) : c.size ≤ 256 * c.pages.length := by
  have hoff := c.offset_le
  unfold size
  split <;> omega

theorem length_pages_lt (c : CodeBuilder) : c.pages.length < 2 ^ 24 :=
  Nat.lt_of_le_of_lt c.pages_le c.maxCodePages_lt

theorem size_lt (c : CodeBuilder) : c.size < 2 ^ 32 - 1 := by
  have h1 := c.size_le
  have h2 := c.length_pages_lt
  omega

theorem page_lt {c : CodeBuilder} {i : ℕ} (h : i < c.size) : i / 256 < c.pages.length := by
  have := c.size_le
  omega

theorem pcParts_eq (c : CodeBuilder) :
    256 * c.pcParts.1 + c.pcParts.2 = c.size ∧ c.pcParts.1 < 2 ^ 24 ∧ c.pcParts.2 < 256 := by
  have hlen := c.length_pages_lt
  have hoff := c.offset_le
  have hnil := c.offset_nil
  unfold pcParts size
  rcases hp : c.pages with _ | ⟨page, pages⟩
  · simp [hnil hp]
  · rw [hp, List.length_cons] at hlen
    rw [List.length_cons, if_neg (Nat.succ_ne_zero _), Nat.add_sub_cancel]
    by_cases hfull : c.offset = 256
    · simp only [hfull, if_true]
      omega
    · have hlt : c.offset < 256 := Nat.lt_of_le_of_ne hoff hfull
      simp only [hfull, if_false, List.isEmpty_cons, Bool.false_eq_true]
      exact ⟨trivial, by omega, hlt⟩

/-- `pc` is the address of the next word. -/
theorem pc_apply (c : CodeBuilder) : CodeBuilder.pc c = .ok (addrOf c.size) c := by
  obtain ⟨hsum, hpage, hoff⟩ := c.pcParts_eq
  have hlt : c.size < 2 ^ 32 := by have := c.size_lt; omega
  have hbits : (BitVec.ofNat 32 c.pcParts.1 <<< 8) ||| BitVec.ofNat 32 c.pcParts.2 =
      addrOf c.size := by
    apply BitVec.eq_of_toNat_eq
    rw [BitVec.toNat_or, BitVec.toNat_shiftLeft, BitVec.toNat_ofNat, BitVec.toNat_ofNat,
      BitVec.toNat_ofNat, Nat.mod_eq_of_lt (by omega : c.pcParts.1 < 2 ^ 32),
      Nat.mod_eq_of_lt (by omega : c.pcParts.2 < 2 ^ 32), Nat.mod_eq_of_lt hlt,
      Nat.shiftLeft_eq, Nat.mod_eq_of_lt (by omega), ← hsum, Nat.mul_comm _ (2 ^ 8),
      ← Nat.two_pow_add_eq_or_of_lt (show c.pcParts.2 < 2 ^ 8 from hoff)]
  unfold CodeBuilder.pc
  rw [bind_of_ok (get_apply c)]
  have hpage' : c.pcParts.1 < maxAddressableCodePages := hpage
  simp only [assert_of hpage', assert_of hoff, pure_bind, pure_apply, hbits]

/-- Reading a word of an allocated page. -/
theorem read_of_page {c : CodeBuilder} {a : JumpTarget} (h : a.page < c.pages.length) :
    CodeBuilder.read a c = .ok (c.word a.toNat) c := by
  rw [JumpTarget.page_eq] at h
  unfold CodeBuilder.read word pageWord
  rw [JumpTarget.page_eq, List.getElem?_eq_getElem h]
  simp only [JumpTarget.offset_eq, Nat.mod_lt a.toNat (by decide : 0 < 256), dif_pos]

theorem addrOf_page_lt {c : CodeBuilder} {i : ℕ} (h : i < c.size) :
    (addrOf i).page < c.pages.length := by
  have hlt := c.size_lt
  rw [addrOf_page (by omega)]
  exact page_lt h

/-- Reading a word that has been pushed. -/
theorem read_apply {c : CodeBuilder} {i : ℕ} (h : i < c.size) :
    CodeBuilder.read (addrOf i) c = .ok (c.word i) c := by
  have hlt := c.size_lt
  rw [read_of_page (addrOf_page_lt h), toNat_addrOf (by omega)]

theorem read32_apply {c : CodeBuilder} {i : ℕ} (h : i + 1 < c.size) :
    CodeBuilder.read32 (addrOf i) c =
      .ok ((c.word i).setWidth 32 ||| ((c.word (i + 1)).setWidth 32 <<< 16)) c := by
  unfold CodeBuilder.read32
  rw [bind_of_ok (read_apply (Nat.lt_of_succ_lt h)), addrOf_add_one,
    bind_of_ok (read_apply h), pure_apply]

/-- What a change of the code leaves alone: the options, and the number of words. -/
structure SameShape (c c' : CodeBuilder) : Prop where
  size : c'.size = c.size
  pages : c'.pages.length = c.pages.length
  options : c'.options = c.options

theorem pageWord_set {pages : List TextPage} {i j : ℕ} {page : TextPage} {v : U16}
    (hp : pages[i / 256]? = some page) :
    pageWord (pages.set (i / 256) (page.set (i % 256) v (Nat.mod_lt _ (by decide)))) j =
      Function.update (pageWord pages) i v j := by
  have hlt : i / 256 < pages.length := by
    obtain ⟨hlt, -⟩ := List.getElem?_eq_some_iff.1 hp
    exact hlt
  unfold pageWord
  by_cases hpage : j / 256 = i / 256
  · simp only [hpage, List.getElem?_set_self hlt]
    by_cases hij : j = i
    · subst hij
      simp
    · have hoff : i % 256 ≠ j % 256 := by omega
      rw [Function.update_of_ne hij]
      simp only [hpage, hp]
      exact Vector.getElem_set_ne _ _ hoff
  · have hij : j ≠ i := fun h => hpage (by rw [h])
    rw [Function.update_of_ne hij, List.getElem?_set_ne (Ne.symm hpage)]

/-- Overwriting a word of an allocated page. -/
theorem write_of_page {c : CodeBuilder} {a : JumpTarget} (v : U16) (h : a.page < c.pages.length) :
    ∃ c', CodeBuilder.write a v c = .ok () c' ∧ c'.word = Function.update c.word a.toNat v ∧
      SameShape c c' ∧ c'.offset = c.offset ∧ c'.heap = c.heap := by
  rw [JumpTarget.page_eq] at h
  have hsome : c.pages[a.toNat / 256]? = some c.pages[a.toNat / 256] := List.getElem?_eq_getElem h
  unfold CodeBuilder.write
  simp only [JumpTarget.page_eq, JumpTarget.offset_eq, hsome,
    Nat.mod_lt a.toNat (by decide : 0 < 256), dif_pos]
  refine ⟨_, rfl, ?_, ?_, rfl, rfl⟩
  · funext j
    exact pageWord_set hsome
  · constructor
    · simp [size]
    · simp
    · rfl

/-- Overwriting a word that has been pushed. -/
theorem write_apply {c : CodeBuilder} {i : ℕ} (v : U16) (h : i < c.size) :
    ∃ c', CodeBuilder.write (addrOf i) v c = .ok () c' ∧
      c'.word = Function.update c.word i v ∧ SameShape c c' := by
  have hlt := c.size_lt
  obtain ⟨c', hwrite, hword, hshape, -, -⟩ := write_of_page v (addrOf_page_lt h)
  rw [toNat_addrOf (by omega)] at hword
  exact ⟨c', hwrite, hword, hshape⟩

/-- Overwriting two words. -/
theorem write32_apply {c : CodeBuilder} {i : ℕ} (v : U32) (h : i + 1 < c.size) :
    ∃ c', CodeBuilder.write32 (addrOf i) v c = .ok () c' ∧
      c'.word = Function.update (Function.update c.word i (v.setWidth 16)) (i + 1)
        ((v >>> 16).setWidth 16) ∧ SameShape c c' := by
  obtain ⟨c₁, h₁, hw₁, hs₁⟩ := write_apply (v.setWidth 16) (Nat.lt_of_succ_lt h)
  have hi : i + 1 < c₁.size := by rw [hs₁.size]; exact h
  obtain ⟨c₂, h₂, hw₂, hs₂⟩ := write_apply ((v >>> 16).setWidth 16) hi
  refine ⟨c₂, ?_, ?_, ?_⟩
  · unfold CodeBuilder.write32
    rw [bind_of_ok h₁, addrOf_add_one]
    exact h₂
  · rw [hw₂, hw₁]
  · exact ⟨by rw [hs₂.size, hs₁.size], by rw [hs₂.pages, hs₁.pages],
      by rw [hs₂.options, hs₁.options]⟩

/-- The words of the code and the options, which an allocation leaves alone. -/
structure SameWords (c c' : CodeBuilder) : Prop where
  size : c'.size = c.size
  word : c'.word = c.word
  options : c'.options = c.options

/-- What a push does: it appends the word, or fails to allocate a page. -/
def Pushed (w : U16) (c : CodeBuilder) : Outcome ValidationError CodeBuilder Unit → Prop
  | .ok _ c' => c'.size = c.size + 1 ∧ c'.word = Function.update c.word c.size w ∧
      c'.options = c.options
  | .error e c' => (∃ a, e = .allocError a) ∧ SameWords c c'
  | .panic => False
  | .diverge => False

theorem allocate_spec (n : ℕ) (c : CodeBuilder) :
    match allocate n c with
    | .ok _ c' => c'.pages = c.pages ∧ c'.offset = c.offset ∧ c'.options = c.options
    | .error e c' => (∃ a, e = .allocError a) ∧ SameWords c c'
    | .panic => False
    | .diverge => False := by
  unfold allocate
  cases c.heap.answer c.heap.requests n with
  | none => exact ⟨rfl, rfl, rfl⟩
  | some a => exact ⟨⟨a, rfl⟩, rfl, rfl, rfl⟩

theorem pageWord_append (pages : List TextPage) (i : ℕ) :
    pageWord (pages ++ [TextPage.default]) i = pageWord pages i := by
  unfold pageWord
  by_cases h : i / 256 < pages.length
  · rw [List.getElem?_append_left h]
  · have hnone : pages[i / 256]? = none := List.getElem?_eq_none (Nat.le_of_not_lt h)
    rw [List.getElem?_append_right (Nat.le_of_not_lt h), hnone]
    by_cases h0 : i / 256 - pages.length = 0
    · rw [h0]
      simp [TextPage.default]
    · rw [List.getElem?_eq_none (by simp; omega)]

/-- The two cases of a full last page and no page at all. -/
def NoRoom (c : CodeBuilder) : Prop := c.pages = [] ∨ c.offset = 256

theorem addPage_spec {c : CodeBuilder} (hroom : c.NoRoom) :
    match CodeBuilder.addPage c with
    | .ok _ c' => c'.pages ≠ [] ∧ c'.offset = 0 ∧ SameWords c c'
    | .error e c' => (∃ a, e = .allocError a) ∧ SameWords c c'
    | .panic => False
    | .diverge => False := by
  have halloc := allocate_spec 512 c
  unfold CodeBuilder.addPage
  rw [bind_apply]
  rcases hc : allocate 512 c with ⟨_, c₁⟩ | ⟨e, c₁⟩ | _ | _ <;> rw [hc] at halloc
  · obtain ⟨hpages, hoff, hopt⟩ := halloc
    have hwords : c₁.size = c.size ∧ c₁.word = c.word := by
      constructor
      · unfold size
        rw [hpages, hoff]
      · unfold word
        rw [hpages]
    simp only
    unfold CodeBuilder.pushPage
    by_cases hcap : c₁.pages.length < c₁.options.maxCodePages
    · simp only [hcap, dif_pos]
      refine ⟨List.append_ne_nil_of_right_ne_nil _ (by simp), trivial, ?_, ?_, hopt⟩
      · have hsize : ∀ n, n = c.pages.length →
            (if n + 1 = 0 then 0 else 256 * (n + 1 - 1) + 0) = c.size := by
          rintro n rfl
          unfold size
          rcases hroom with hnil | hfull
          · rw [hnil]
            rfl
          · rw [if_neg (Nat.succ_ne_zero _), hfull]
            split <;> omega
        have hlen := hsize c₁.pages.length (by rw [hpages])
        simpa [size] using hlen
      · funext i
        rw [← hwords.2]
        exact pageWord_append c₁.pages i
    · simp only [hcap, dif_neg, not_false_eq_true]
      exact ⟨⟨_, rfl⟩, hwords.1, hwords.2, hopt⟩
  · exact halloc
  · exact halloc
  · exact halloc

theorem putWord_spec {c : CodeBuilder} (w : U16) (hp : c.pages ≠ []) (hoff : c.offset < 256) :
    Pushed w c (CodeBuilder.putWord w c) := by
  rcases hpages : c.pages with _ | ⟨page₀, pages⟩
  · exact absurd hpages hp
  · have hlen : c.pages.length = pages.length + 1 := by rw [hpages, List.length_cons]
    have hsize : c.size = 256 * pages.length + c.offset := by
      rw [size, hlen, if_neg (Nat.succ_ne_zero _), Nat.add_sub_cancel]
    have hlast : c.pages.length - 1 = c.size / 256 := by
      rw [hsize, hpages, List.length_cons]
      omega
    have hmod : c.size % 256 = c.offset := by omega
    have hlt : c.pages.length - 1 < c.pages.length := by
      rw [hpages]
      simp
    have hsome : c.pages[c.pages.length - 1]? = some c.pages[c.pages.length - 1] :=
      List.getElem?_eq_getElem hlt
    unfold CodeBuilder.putWord
    split
    · rename_i hnone
      rw [hsome] at hnone
      cases hnone
    · rename_i page hpage
      simp only [hoff, dif_pos]
      refine ⟨?_, ?_, rfl⟩
      · rw [hsize]
        simp only [size, List.length_set, hpages, List.length_cons]
        rw [if_neg (by omega)]
        omega
      · funext j
        have hpage' : c.pages[c.size / 256]? = some page := by rw [← hlast]; exact hpage
        have hset := pageWord_set (v := w) (j := j) hpage'
        simp only [← hlast, hmod] at hset
        exact hset

/-- A push adds a page first if there is no room for a word. -/
theorem push_cases (w : U16) (c : CodeBuilder) :
    c.NoRoom ∧ CodeBuilder.push w c = (CodeBuilder.addPage >>= fun _ => CodeBuilder.putWord w) c ∨
      (c.pages ≠ [] ∧ c.offset < 256) ∧ CodeBuilder.push w c = CodeBuilder.putWord w c := by
  unfold CodeBuilder.push
  rw [bind_of_ok (get_apply c)]
  by_cases h1 : c.offset = 0 ∧ c.pages = []
  · left
    refine ⟨Or.inl h1.2, ?_⟩
    simp only [h1, and_self, if_true]
  · by_cases h2 : 256 ≤ c.offset
    · left
      refine ⟨Or.inr (Nat.le_antisymm c.offset_le h2), ?_⟩
      simp only [h1, h2, if_true, if_false]
    · right
      refine ⟨⟨fun hnil => h1 ⟨c.offset_nil hnil, hnil⟩, Nat.lt_of_not_le h2⟩, ?_⟩
      simp only [h1, h2, if_false]

/-- A push appends a word, or fails to allocate a page. -/
theorem push_spec (w : U16) (c : CodeBuilder) : Pushed w c (CodeBuilder.push w c) := by
  rcases push_cases w c with ⟨hroom, hpush⟩ | ⟨⟨hne, hoff⟩, hpush⟩
  · have hpage := addPage_spec hroom
    rw [hpush, bind_apply]
    rcases hc : CodeBuilder.addPage c with ⟨_, c₁⟩ | ⟨e, c₁⟩ | _ | _ <;> rw [hc] at hpage
    · obtain ⟨hne, hzero, hsame⟩ := hpage
      have hput := putWord_spec w hne (by rw [hzero]; decide)
      simp only
      rcases hw : CodeBuilder.putWord w c₁ with ⟨_, c₂⟩ | ⟨e, c₂⟩ | _ | _ <;> rw [hw] at hput
      · exact ⟨by rw [hput.1, hsame.size], by rw [hput.2.1, hsame.word, hsame.size],
          by rw [hput.2.2, hsame.options]⟩
      · exact ⟨hput.1, by rw [hput.2.size, hsame.size], by rw [hput.2.word, hsame.word],
          by rw [hput.2.options, hsame.options]⟩
      · exact hput
      · exact hput
    · exact hpage
    · exact hpage
    · exact hpage
  · rw [hpush]
    exact putWord_spec w hne hoff

end CodeBuilder

/-! ### Fetching -/

namespace IrReader

/-- The decoder reads the words of allocated pages. -/
theorem read_of_page {c : CodeBuilder} {a : JumpTarget} (h : a.page < c.pages.length) :
    IrReader.read c.pages a = .ok (c.word a.toNat) (a + 1) := by
  rw [JumpTarget.page_eq] at h
  unfold IrReader.read CodeBuilder.word pageWord
  rw [JumpTarget.page_eq, List.getElem?_eq_getElem h]
  simp only [JumpTarget.offset_eq, Nat.mod_lt a.toNat (by decide : 0 < 256), dif_pos]

/-- The decoder reads the words of the code. -/
theorem read_pages {c : CodeBuilder} {i : ℕ} (h : i < c.size) :
    IrReader.read c.pages (addrOf i) = .ok (c.word i) (addrOf (i + 1)) := by
  have hlt := c.size_lt
  rw [read_of_page (CodeBuilder.addrOf_page_lt h), toNat_addrOf (by omega), addrOf_add_one]

end IrReader

end SpaceWasm
