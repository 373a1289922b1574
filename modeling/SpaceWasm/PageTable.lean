import SpaceWasm.Paging
import Mathlib.Data.List.Perm.Basic
import Mathlib.Data.List.Count
import Mathlib.Data.List.Pairwise
import Mathlib.Tactic.Common

/-!
# The table of pages

What a page holds is known only by counting: `Table` relates the pages of the
table, in any order, to the allocations that are live. Every live allocation lies
in the part of one page that has been given out, the pages are apart from each
other, and the count of a page is the number of live allocations in it.
-/

namespace SpaceWasm

/-- A live allocation: the pointer and the layout it was asked with. -/
structure Allocation where
  ptr : ℕ
  layout : Layout
  deriving DecidableEq

/-- Two allocations share no byte. -/
def Allocation.Apart (a b : Allocation) : Prop :=
  SpaceWasm.Apart a.ptr a.layout.size b.ptr b.layout.size

theorem Apart.symm {a n b m : ℕ} (h : Apart a n b m) : Apart b m a n := Or.symm h

namespace Page

/-- The allocation's pointer is from this page, as `dealloc` tells it. -/
def owns (p : Page) (a : Allocation) : Bool :=
  decide (p.ptr ≤ a.ptr ∧ a.ptr < p.ptr + p.size)

/-- The allocation lies in the part of the page that has been given out. -/
def Holds (p : Page) (a : Allocation) : Prop :=
  p.ptr ≤ a.ptr ∧ a.ptr + a.layout.size ≤ p.ptr + p.allocated

/-- The counters of a page of `n` bytes. -/
structure Sound (n : ℕ) (p : Page) : Prop where
  size_eq : p.size = n
  end_le : p.ptr + n ≤ usizeMax
  allocated_le : p.allocated ≤ n
  counts_le : p.wasted + p.nAllocations ≤ p.allocated

theorem alignmentOffset_lt {align : ℕ} (h : 0 < align) (start : ℕ) :
    alignmentOffset start align < align := by
  unfold alignmentOffset
  split
  · exact h
  · omega

theorem add_alignmentOffset_mod {align : ℕ} (h : 0 < align) (start : ℕ) :
    (start + alignmentOffset start align) % align = 0 := by
  unfold alignmentOffset
  split
  · assumption
  · have hlt := Nat.mod_lt start h
    rw [Nat.add_mod, Nat.mod_eq_of_lt (a := align - start % align) (by omega),
      Nat.add_sub_cancel' hlt.le, Nat.mod_self]

theorem usizeAdd_of_le {debug : Bool} {a b : ℕ} (h : a + b ≤ usizeMax) :
    usizeAdd debug a b = some (a + b) := if_pos h

theorem usizeSub_of_le {debug : Bool} {a b : ℕ} (h : b ≤ a) :
    usizeSub debug a b = some (a - b) := if_pos h

/-- An address that wraps is still the same distance from the start of the page. -/
theorem usizeSub_wrapped {start k : ℕ} (hk : k ≤ usizeMax) (hstart : start ≤ usizeMax)
    (h : usizeMax < start + k) :
    usizeSub false ((start + k) % (usizeMax + 1)) start = some k := by
  have hmod : (start + k) % (usizeMax + 1) = start + k - (usizeMax + 1) := by
    rw [Nat.mod_eq_sub_mod (by omega), Nat.mod_eq_of_lt (by omega)]
  rw [usizeSub, hmod, if_neg (by omega)]
  simp
  omega

/-- What `alloc` does: a request that does not fit leaves the page as it is, also
when the aligned address wraps. -/
theorem alloc_eq {n : ℕ} {p : Page} (hp : p.Sound n) (hn : n ≤ isizeMax) (debug : Bool)
    {layout : Layout} (hsize : 0 < layout.size) :
    p.alloc debug layout =
      let offset := alignmentOffset (p.ptr + p.allocated) layout.align
      if p.allocated + offset + layout.size ≤ n then
        some (some (p.ptr + p.allocated + offset), { p with
          wasted := p.wasted + offset, allocated := p.allocated + offset + layout.size,
          nAllocations := p.nAllocations + 1 })
      else if p.ptr + p.allocated + offset ≤ usizeMax ∨ debug = false then some (none, p)
      else none := by
  have hoff := alignmentOffset_lt layout.align_pos (p.ptr + p.allocated)
  have hlayout := layout.size_le
  have hend := hp.end_le
  have hallocated := hp.allocated_le
  have hcounts := hp.counts_le
  have hmax : usizeMax = 2 * isizeMax + 1 := rfl
  simp only [alloc, Option.bind_eq_bind]
  rw [usizeAdd_of_le (by omega), Option.bind_some]
  generalize alignmentOffset (p.ptr + p.allocated) layout.align = offset at hoff ⊢
  by_cases hwrap : p.ptr + p.allocated + offset ≤ usizeMax
  · rw [usizeAdd_of_le hwrap, Option.bind_some,
      usizeSub_of_le (by omega), Option.bind_some,
      usizeAdd_of_le (by omega), Option.bind_some, hp.size_eq]
    have hfinal : p.ptr + p.allocated + offset - p.ptr = p.allocated + offset := by omega
    rw [hfinal]
    by_cases hfit : p.allocated + offset + layout.size ≤ n
    · rw [if_pos hfit, if_pos hfit, usizeAdd_of_le (by omega),
        Option.bind_some, usizeAdd_of_le (by omega)]
      rfl
    · rw [if_neg hfit, if_neg hfit, if_pos (Or.inl hwrap)]
      rfl
  · have hfit : ¬p.allocated + offset + layout.size ≤ n := by omega
    rw [if_neg hfit, usizeAdd, if_neg hwrap]
    cases debug with
    | true => simp [hwrap]
    | false =>
        rw [if_neg (by decide), if_pos (Or.inr rfl), Option.bind_some,
          Nat.add_assoc, usizeSub_wrapped (by omega) (by omega) (by omega),
          Option.bind_some, usizeAdd_of_le (by omega), Option.bind_some,
          hp.size_eq, if_neg hfit]
        rfl

theorem alloc_none {debug : Bool} {layout : Layout} {p p' : Page}
    (h : p.alloc debug layout = some (none, p')) : p' = p := by
  simp only [alloc, Option.bind_eq_bind, Option.bind_eq_some_iff] at h
  obtain ⟨_, -, _, -, _, -, _, -, h⟩ := h
  split at h
  · simp [Option.bind_eq_some_iff] at h
  · cases h
    rfl

theorem dealloc_eq {n : ℕ} {p : Page} (hp : p.Sound n) (debug : Bool) {a : Allocation}
    (hcount : p.owns a → 0 < p.nAllocations) :
    p.dealloc debug a.ptr =
      if p.owns a then
        some (some (decide (p.nAllocations = 1)), { p with nAllocations := p.nAllocations - 1 })
      else some (none, p) := by
  rw [dealloc, usizeAdd_of_le (hp.size_eq ▸ hp.end_le), Option.bind_eq_bind, Option.bind_some]
  by_cases howns : p.owns a
  · have hpos := hcount howns
    rw [if_pos howns, if_pos (by simpa [owns] using howns), if_neg (by omega)]
    have : (p.nAllocations - 1 = 0) = (p.nAllocations = 1) := by
      rw [eq_iff_iff]
      omega
    simp [this]
  · rw [if_neg howns, if_neg (by simpa [owns] using howns)]
    rfl

end Page

/-- The pages of the table, in any order, and the allocations that are live. -/
structure PageTable (n : ℕ) (pages : List Page) (live : List Allocation) : Prop where
  sound : ∀ p ∈ pages, p.Sound n
  count_eq : ∀ p ∈ pages, p.nAllocations = live.countP p.owns
  apart : pages.Pairwise fun p q => Apart p.ptr n q.ptr n
  size_pos : ∀ a ∈ live, 0 < a.layout.size
  aligned : ∀ a ∈ live, a.ptr % a.layout.align = 0
  held : ∀ a ∈ live, ∃ p ∈ pages, p.Holds a
  disjoint : live.Pairwise Allocation.Apart

namespace PageTable

variable {n : ℕ} {pages : List Page} {live : List Allocation} {p : Page}

theorem nil (n : ℕ) : PageTable n [] [] := by
  constructor <;> simp

theorem perm {pages' : List Page} (h : PageTable n pages live) (hperm : pages.Perm pages') :
    PageTable n pages' live where
  sound p hp := h.sound p (hperm.mem_iff.2 hp)
  count_eq p hp := h.count_eq p (hperm.mem_iff.2 hp)
  apart := (hperm.pairwise_iff Apart.symm).1 h.apart
  size_pos := h.size_pos
  aligned := h.aligned
  held a ha := by
    obtain ⟨p, hp, hheld⟩ := h.held a ha
    exact ⟨p, hperm.mem_iff.1 hp, hheld⟩
  disjoint := h.disjoint

theorem owns_of_holds {a : Allocation} (h : p.Holds a) (hp : p.Sound n)
    (ha : 0 < a.layout.size) : p.owns a := by
  have := hp.allocated_le
  have := hp.size_eq
  have := h.1
  have := h.2
  simp only [Page.owns, decide_eq_true_eq]
  omega

/-- Pages that are apart own no allocation together. -/
theorem not_owns_of_apart {q : Page} {a : Allocation} (hp : p.Sound n) (hq : q.Sound n)
    (hapart : Apart p.ptr n q.ptr n) (ha : p.owns a) : q.owns a = false := by
  have := hp.size_eq
  have := hq.size_eq
  simp only [Page.owns, decide_eq_true_eq] at ha
  simp only [Page.owns, decide_eq_false_iff_not]
  rcases hapart with h | h <;> omega

theorem not_owns_of_holds {q : Page} {a : Allocation} (hp : p.Sound n) (hq : q.Sound n)
    (hapart : Apart p.ptr n q.ptr n) (hheld : p.Holds a) (ha : 0 < a.layout.size) :
    q.owns a = false :=
  not_owns_of_apart hp hq hapart (owns_of_holds hheld hp ha)

/-- The page that owns an allocation also holds it. -/
theorem holds_of_owns (h : PageTable n pages live) {a : Allocation} (ha : a ∈ live)
    (hp : p ∈ pages) (howns : p.owns a) : p.Holds a := by
  obtain ⟨q, hq, hheld⟩ := h.held a ha
  by_cases hpq : p = q
  · exact hpq ▸ hheld
  · have : Std.Symm fun p q : Page => Apart p.ptr n q.ptr n := ⟨fun _ _ => Apart.symm⟩
    have hapart := h.apart.forall hp hq hpq
    have := not_owns_of_apart (h.sound p hp) (h.sound q hq) hapart howns
    rw [owns_of_holds hheld (h.sound q hq) (h.size_pos a ha)] at this
    cases this

/-- A new page that is apart from the table. -/
theorem cons_new (h : PageTable n pages live) {addr : ℕ} (hend : addr + n ≤ usizeMax)
    (hapart : ∀ p ∈ pages, Apart addr n p.ptr n) :
    PageTable n (Page.new addr n :: pages) live := by
  have hnew : (Page.new addr n).Sound n := ⟨rfl, hend, Nat.zero_le n, le_rfl⟩
  refine ⟨?_, ?_, ?_, h.size_pos, h.aligned, ?_, h.disjoint⟩
  · rintro p (_ | ⟨_, hp⟩)
    · exact hnew
    · exact h.sound p hp
  · rintro p (_ | ⟨_, hp⟩)
    · symm
      rw [Page.new, List.countP_eq_zero]
      intro a ha
      obtain ⟨q, hq, hheld⟩ := h.held a ha
      have := not_owns_of_holds (h.sound q hq) hnew (hapart q hq).symm hheld (h.size_pos a ha)
      simpa [Page.new] using this
    · exact h.count_eq p hp
  · exact List.pairwise_cons.2 ⟨hapart, h.apart⟩
  · intro a ha
    obtain ⟨q, hq, hheld⟩ := h.held a ha
    exact ⟨q, List.mem_cons_of_mem _ hq, hheld⟩

/-- The rest of the table does not see a page that keeps its place. -/
theorem not_owns_tail (h : PageTable n (p :: pages) live) {a : Allocation} (howns : p.owns a)
    {q : Page} (hq : q ∈ pages) : q.owns a = false :=
  not_owns_of_apart (h.sound p List.mem_cons_self) (h.sound q (List.mem_cons_of_mem _ hq))
    ((List.pairwise_cons.1 h.apart).1 q hq) howns

/-- One more allocation, at the end of a page. -/
theorem alloc (h : PageTable n (p :: pages) live) (hn : n ≤ isizeMax) {debug : Bool}
    {layout : Layout} (hsize : 0 < layout.size) {ptr : ℕ} {p' : Page}
    (halloc : p.alloc debug layout = some (some ptr, p')) :
    PageTable n (p' :: pages) (⟨ptr, layout⟩ :: live) ∧ p'.Holds ⟨ptr, layout⟩ ∧
      p'.ptr = p.ptr ∧ p'.nAllocations = p.nAllocations + 1 := by
  have hp := h.sound p List.mem_cons_self
  have hpcount := h.count_eq p List.mem_cons_self
  have hcounts := hp.counts_le
  have hpsize := hp.size_eq
  rw [Page.alloc_eq hp hn debug hsize] at halloc
  simp only at halloc
  have hmod := Page.add_alignmentOffset_mod layout.align_pos (p.ptr + p.allocated)
  generalize Page.alignmentOffset (p.ptr + p.allocated) layout.align = offset at halloc hmod
  by_cases hfit : p.allocated + offset + layout.size ≤ n
  swap
  · rw [if_neg hfit] at halloc
    split at halloc <;> cases halloc
  rw [if_pos hfit] at halloc
  cases halloc
  have hsound : Page.Sound n { p with
      wasted := p.wasted + offset, allocated := p.allocated + offset + layout.size,
      nAllocations := p.nAllocations + 1 } :=
    ⟨hp.size_eq, hp.end_le, hfit, by simp only; omega⟩
  have howns : p.owns ⟨p.ptr + p.allocated + offset, layout⟩ := by
    simp only [Page.owns, decide_eq_true_eq]
    omega
  have hholds : ∀ {a : Allocation}, p.Holds a → Page.Holds { p with
      wasted := p.wasted + offset, allocated := p.allocated + offset + layout.size,
      nAllocations := p.nAllocations + 1 } a := by
    intro a ha
    exact ⟨ha.1, by have := ha.2; simp only; omega⟩
  refine ⟨⟨?_, ?_, ?_, ?_, ?_, ?_, ?_⟩, ⟨by simp only; omega, by simp only; omega⟩, rfl, rfl⟩
  · rintro q (_ | ⟨_, hq⟩)
    · exact hsound
    · exact h.sound q (List.mem_cons_of_mem _ hq)
  · rintro q (_ | ⟨_, hq⟩)
    · rw [List.countP_cons_of_pos (by exact howns)]
      exact congrArg (· + 1) hpcount
    · rw [List.countP_cons_of_neg (by simpa using h.not_owns_tail howns hq)]
      exact h.count_eq q (List.mem_cons_of_mem _ hq)
  · exact List.pairwise_cons.2 (List.pairwise_cons.1 h.apart)
  · rintro a (_ | ⟨_, ha⟩)
    · exact hsize
    · exact h.size_pos a ha
  · rintro a (_ | ⟨_, ha⟩)
    · exact hmod
    · exact h.aligned a ha
  · rintro a (_ | ⟨_, ha⟩)
    · exact ⟨_, List.mem_cons_self, by simp only; omega, by simp only; omega⟩
    · obtain ⟨q, hq, hheld⟩ := h.held a ha
      rcases List.mem_cons.1 hq with rfl | hq
      · exact ⟨_, List.mem_cons_self, hholds hheld⟩
      · exact ⟨q, List.mem_cons_of_mem _ hq, hheld⟩
  · refine List.pairwise_cons.2 ⟨?_, h.disjoint⟩
    intro a ha
    obtain ⟨q, hq, hheld⟩ := h.held a ha
    rcases List.mem_cons.1 hq with rfl | hq
    · -- the same page gives out its bytes in order
      exact Or.inr (by have := hheld.2; simp only; omega)
    · have hapart := (List.pairwise_cons.1 h.apart).1 q hq
      have hqs := h.sound q (List.mem_cons_of_mem _ hq)
      have := hheld.1
      have := hheld.2
      have := hqs.allocated_le
      simp only [Allocation.Apart, Apart] at hapart ⊢
      omega

/-- One allocation less. -/
theorem free (h : PageTable n (p :: pages) live) {a : Allocation} (ha : a ∈ live)
    (howns : p.owns a) :
    PageTable n ({ p with nAllocations := p.nAllocations - 1 } :: pages) (live.erase a) := by
  have hp := h.sound p List.mem_cons_self
  have hpcount := h.count_eq p List.mem_cons_self
  have hmem : ∀ {b : Allocation}, b ∈ live.erase a → b ∈ live := List.mem_of_mem_erase
  refine ⟨?_, ?_, ?_, ?_, ?_, ?_, ?_⟩
  · rintro q (_ | ⟨_, hq⟩)
    · exact ⟨hp.size_eq, hp.end_le, hp.allocated_le, by have := hp.counts_le; simp only; omega⟩
    · exact h.sound q (List.mem_cons_of_mem _ hq)
  · rintro q (_ | ⟨_, hq⟩)
    · have hperm := (List.perm_cons_erase ha).countP_eq p.owns
      rw [List.countP_cons_of_pos howns, ← hpcount] at hperm
      change p.nAllocations - 1 = (live.erase a).countP p.owns
      omega
    · have hperm := (List.perm_cons_erase ha).countP_eq q.owns
      rw [List.countP_cons_of_neg (by simpa using h.not_owns_tail howns hq)] at hperm
      rw [h.count_eq q (List.mem_cons_of_mem _ hq), hperm]
  · exact List.pairwise_cons.2 (List.pairwise_cons.1 h.apart)
  · exact fun b hb => h.size_pos b (hmem hb)
  · exact fun b hb => h.aligned b (hmem hb)
  · intro b hb
    obtain ⟨q, hq, hheld⟩ := h.held b (hmem hb)
    rcases List.mem_cons.1 hq with rfl | hq
    · exact ⟨_, List.mem_cons_self, hheld⟩
    · exact ⟨q, List.mem_cons_of_mem _ hq, hheld⟩
  · exact h.disjoint.sublist List.erase_sublist

/-- A page without live allocations can leave the table. -/
theorem tail (h : PageTable n (p :: pages) live) (hp : p.nAllocations = 0) :
    PageTable n pages live := by
  refine ⟨fun q hq => h.sound q (List.mem_cons_of_mem _ hq),
    fun q hq => h.count_eq q (List.mem_cons_of_mem _ hq), (List.pairwise_cons.1 h.apart).2,
    h.size_pos, h.aligned, ?_, h.disjoint⟩
  intro a ha
  obtain ⟨q, hq, hheld⟩ := h.held a ha
  rcases List.mem_cons.1 hq with rfl | hq
  · have hcount := h.count_eq q List.mem_cons_self
    rw [hp, eq_comm, List.countP_eq_zero] at hcount
    exact absurd (owns_of_holds hheld (h.sound q List.mem_cons_self) (h.size_pos a ha))
      (hcount a ha)
  · exact ⟨q, hq, hheld⟩

/-- A table whose pages are all in use is empty with the heap. -/
theorem eq_nil_iff (h : PageTable n pages live) (hpos : ∀ p ∈ pages, 0 < p.nAllocations) :
    pages = [] ↔ live = [] := by
  constructor
  · rintro rfl
    apply List.eq_nil_iff_forall_not_mem.2
    intro a ha
    obtain ⟨p, hp, -⟩ := h.held a ha
    cases hp
  · rintro rfl
    apply List.eq_nil_iff_forall_not_mem.2
    intro p hp
    have := h.count_eq p hp
    have := hpos p hp
    simp at *
    omega

end PageTable

end SpaceWasm
