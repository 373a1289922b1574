import SpaceWasm.PageTable
import Mathlib.Logic.Relation

/-!
# Safety of the page allocator

`PageHeap` runs the allocator under any sequence of requests, and remembers which
allocations are live and whether one was freed since the heap was last empty.
What one request keeps is `PageHeap.Valid`; the pages that the backing allocator
has not got back are then the ones of the table, at any point of a run.
-/

namespace SpaceWasm

open Fallible

namespace PageAllocator

variable {β : Type}

/-- The pages of the table. -/
def table (s : PageAllocator β) : List Page := s.pages.filterMap id

theorem filterMap_set_none {pages : List (Option Page)} {i : ℕ} {p : Page}
    (h : pages[i]? = some (some p)) :
    (pages.filterMap id).Perm (p :: (pages.set i none).filterMap id) := by
  induction pages generalizing i with
  | nil => simp at h
  | cons bucket pages ih =>
      cases i with
      | zero =>
          obtain rfl : bucket = some p := by simpa using h
          simp
      | succ i =>
          have := ih (i := i) (by simpa using h)
          cases bucket with
          | none => simpa using this
          | some q => simpa using (this.cons q).trans (List.Perm.swap p q _)

theorem set_of_getElem? {bucket : Option Page} {pages : List (Option Page)} {i : ℕ}
    (h : pages[i]? = some bucket) : pages.set i bucket = pages := by
  obtain ⟨hlt, rfl⟩ := List.getElem?_eq_some_iff.1 h
  exact List.set_getElem_self hlt

theorem filterMap_set_some {pages : List (Option Page)} {i : ℕ} (p : Page)
    (h : pages[i]? = some none) :
    ((pages.set i (some p)).filterMap id).Perm (p :: pages.filterMap id) := by
  have hlt : i < pages.length := (List.getElem?_eq_some_iff.1 h).1
  have hset : (pages.set i (some p))[i]? = some (some p) := List.getElem?_set_self hlt
  have := filterMap_set_none hset
  rwa [List.set_set, set_of_getElem? h] at this

/-- A page that is updated in its bucket. -/
theorem filterMap_set_of_some {pages : List (Option Page)} {i : ℕ} {p : Page} (p' : Page)
    (h : pages[i]? = some (some p)) :
    ((pages.set i (some p')).filterMap id).Perm (p' :: (pages.set i none).filterMap id) := by
  have hlt : i < pages.length := (List.getElem?_eq_some_iff.1 h).1
  have hset : (pages.set i none)[i]? = some none := List.getElem?_set_self hlt
  have := filterMap_set_some p' hset
  rwa [List.set_set] at this

/-! ### What the loops do -/

/-- How `alloc` can end, once the request is for some bytes and the heap is not
poisoned. -/
inductive AllocEnds (A : Allocator β) (debug : Bool) (l layout : Layout) (s : PageAllocator β) :
    Outcome AllocError (PageAllocator β) ℕ → Prop
  /-- At the end of a page of the table. -/
  | bumped {i : ℕ} {page page' : Page} {ptr : ℕ} :
      s.pages[i]? = some (some page) → page.alloc debug layout = some (some ptr, page') →
        AllocEnds A debug l layout s (.ok ptr { s with pages := s.pages.set i (some page') })
  /-- In a new page. -/
  | added {i addr ptr : ℕ} {b : β} {page' : Page} :
      s.pages[i]? = some none → A.alloc l s.pageAllocator = .ok addr b →
        (Page.new addr s.pageSize).alloc debug layout = some (some ptr, page') →
        AllocEnds A debug l layout s
          (.ok ptr { s with pageAllocator := b, pages := s.pages.set i (some page') })
  | full : AllocEnds A debug l layout s (.error .outOfMemory s)
  | refused {e : AllocError} {b : β} : A.alloc l s.pageAllocator = .error e b →
      AllocEnds A debug l layout s (.error e { s with pageAllocator := b })
  | tooSmall {addr : ℕ} {b : β} {page' : Page} : A.alloc l s.pageAllocator = .ok addr b →
      (Page.new addr s.pageSize).alloc debug layout = some (none, page') →
      AllocEnds A debug l layout s
        (.error .pageTooSmall { s with pageAllocator := A.dealloc addr l b })
  /-- The address arithmetic of a page panics. -/
  | panicked {page : Page} : page.alloc debug layout = none →
      (page ∈ s.table ∨ ∃ addr b, A.alloc l s.pageAllocator = .ok addr b ∧
        page = Page.new addr s.pageSize) →
      AllocEnds A debug l layout s .panic

theorem allocPage_ends {A : Allocator β} {l : Layout} {blocks : β → List ℕ}
    (hA : A.Serves l blocks) {debug : Bool} {layout : Layout} {s : PageAllocator β} {i : ℕ}
    (hl : Layout.fromSizeAlign s.pageSize alignment = some l) (hi : s.pages[i]? = some none) :
    AllocEnds A debug l layout s (allocPage A debug layout i s) := by
  rw [allocPage, bind_of_ok (get_apply s), hl, unwrap_some, pure_bind, bind_apply, onBacking, zoom]
  have ht := hA.alloc s.pageAllocator s.pageAllocator rfl
  cases halloc : A.alloc l s.pageAllocator with
  | ok addr b =>
      simp only
      cases hpage : (Page.new addr s.pageSize).alloc debug layout with
      | none => exact AllocEnds.panicked hpage (Or.inr ⟨addr, b, halloc, rfl⟩)
      | some result =>
          rw [unwrap_some, pure_bind]
          obtain ⟨_ | ptr, page'⟩ := result
          · exact AllocEnds.tooSmall halloc hpage
          · exact AllocEnds.added hi halloc hpage
  | error e b => exact AllocEnds.refused halloc
  | panic => rw [halloc] at ht; exact (ht trivial).elim
  | diverge => rw [halloc] at ht; exact ht.elim

theorem setBucket_self {s : PageAllocator β} {i : ℕ} {bucket : Option Page}
    (h : s.pages[i]? = some bucket) : setBucket i bucket s = .ok () s := by
  rw [setBucket, modify_apply, set_of_getElem? h]

theorem allocFrom_ends {A : Allocator β} {l : Layout} {blocks : β → List ℕ}
    (hA : A.Serves l blocks) {debug : Bool} {layout : Layout} {s : PageAllocator β}
    (hl : Layout.fromSizeAlign s.pageSize alignment = some l) (n i : ℕ)
    (hi : i + n = s.pages.length) :
    AllocEnds A debug l layout s (allocFrom A debug layout n i s) := by
  induction n generalizing i with
  | zero => exact AllocEnds.full
  | succ n ih =>
      rw [allocFrom, bind_of_ok (get_apply s)]
      obtain ⟨bucket, hbucket⟩ : ∃ bucket, s.pages[i]? = some bucket :=
        ⟨_, List.getElem?_eq_getElem (by omega)⟩
      rw [hbucket, unwrap_some, pure_bind]
      cases bucket with
      | none => exact allocPage_ends hA hl hbucket
      | some page =>
          simp only
          cases hpage : page.alloc debug layout with
          | none =>
              refine AllocEnds.panicked hpage (Or.inl ?_)
              exact List.mem_filterMap.2 ⟨some page, List.mem_of_getElem? hbucket, rfl⟩
          | some result =>
              rw [unwrap_some, pure_bind]
              obtain ⟨_ | ptr, page'⟩ := result
              · -- a page without room is left as it is
                rw [Page.alloc_none hpage, bind_of_ok (setBucket_self hbucket)]
                exact ih (i + 1) (by omega)
              · exact AllocEnds.bumped hbucket hpage

/-- The allocator after one allocation of the page in bucket `i` was freed. -/
def freed (A : Allocator β) (l : Layout) (i : ℕ) (page : Page) (s : PageAllocator β) :
    PageAllocator β :=
  let s' :=
    if page.nAllocations = 1 then
      { s with
        pageAllocator := A.dealloc page.ptr l s.pageAllocator
        pages := s.pages.set i none }
    else
      { s with
        pages := s.pages.set i (some { page with nAllocations := page.nAllocations - 1 }) }
  { s' with poisoned := !s'.pages.all Option.isNone }

/-- The loop of `dealloc` finds the one page that owns the pointer. -/
theorem deallocFrom_apply {A : Allocator β} {l : Layout} {debug : Bool} {a : Allocation}
    {s : PageAllocator β} {n i j : ℕ} {page : Page}
    (hl : Layout.fromSizeAlign s.pageSize alignment = some l)
    (hpage : s.pages[j]? = some (some page))
    (hself : page.dealloc debug a.ptr = some (some (decide (page.nAllocations = 1)),
      { page with nAllocations := page.nAllocations - 1 }))
    (hothers : ∀ k q, i ≤ k → k < j → s.pages[k]? = some (some q) →
      q.dealloc debug a.ptr = some (none, q))
    (hij : i ≤ j) (hn : i + n = s.pages.length) :
    deallocFrom A debug a.ptr n i s = .ok () (freed A l j page s) := by
  induction n generalizing i with
  | zero =>
      have := (List.getElem?_eq_some_iff.1 hpage).1
      omega
  | succ n ih =>
      rw [deallocFrom, bind_of_ok (get_apply s)]
      obtain ⟨bucket, hbucket⟩ : ∃ bucket, s.pages[i]? = some bucket :=
        ⟨_, List.getElem?_eq_getElem (by omega)⟩
      rw [hbucket, unwrap_some, pure_bind]
      rcases Nat.lt_or_eq_of_le hij with hlt | rfl
      · have hnext := ih (i := i + 1) (fun k q hk => hothers k q (by omega)) hlt (by omega)
        cases bucket with
        | none => exact hnext
        | some q =>
            simp only
            rw [hothers i q le_rfl hlt hbucket, unwrap_some, pure_bind]
            simp only
            rw [bind_of_ok (setBucket_self hbucket)]
            exact hnext
      · obtain rfl : bucket = some page := by
          rw [hpage] at hbucket
          exact (Option.some.inj hbucket).symm
        simp only
        rw [hself, unwrap_some, pure_bind]
        by_cases hlast : page.nAllocations = 1
        · simp only [hlast, decide_true, if_true, setBucket, dropPage, bind_apply, modify_apply,
            get_apply, hl, unwrap_some, pure_apply, List.set_set, freed]
          generalize s.pages.set i none = pages
          by_cases hempty : pages.all Option.isNone
          · simp [hempty]
          · simp [hempty]
        · simp only [hlast, decide_false, Bool.false_eq_true, if_false, setBucket, bind_apply,
            modify_apply, freed]
          generalize s.pages.set i _ = pages
          by_cases hempty : pages.all Option.isNone
          · simp [hempty]
          · simp [hempty]

end PageAllocator

/-! ### Runs -/

/-- The allocator, the allocations that are live, and whether one has been freed
since the heap was last empty. -/
structure PageHeap (β : Type) where
  inner : PageAllocator β
  live : List Allocation
  dirty : Bool

namespace PageHeap

variable {β : Type}

def new (b : β) (pageSize maxPages : ℕ) : PageHeap β :=
  ⟨PageAllocator.new b pageSize maxPages, [], false⟩

/-- One request. A `dealloc` names a live allocation. -/
inductive Step (A : Allocator β) (debug : Bool) : PageHeap β → PageHeap β → Prop
  | alloc {h : PageHeap β} {layout : Layout} {ptr : ℕ} {inner : PageAllocator β} :
      PageAllocator.alloc A debug layout h.inner = .ok ptr inner →
        Step A debug h ⟨inner, ⟨ptr, layout⟩ :: h.live, h.dirty⟩
  | allocFails {h : PageHeap β} {layout : Layout} {e : AllocError} {inner : PageAllocator β} :
      PageAllocator.alloc A debug layout h.inner = .error e inner →
        Step A debug h ⟨inner, h.live, h.dirty⟩
  | dealloc {h : PageHeap β} {a : Allocation} {inner : PageAllocator β} : a ∈ h.live →
      PageAllocator.dealloc A debug a.ptr a.layout h.inner = .ok () inner →
        Step A debug h ⟨inner, h.live.erase a, !(h.live.erase a).isEmpty⟩

/-- What every request keeps; `frame` are the blocks the backing allocator had
given out before. -/
structure Valid (l : Layout) (blocks : β → List ℕ) (frame : List ℕ) (maxPages : ℕ)
    (h : PageHeap β) : Prop where
  pageSize_eq : h.inner.pageSize = l.size
  length_eq : h.inner.pages.length = maxPages
  table : PageTable l.size h.inner.table h.live
  count_pos : ∀ p ∈ h.inner.table, 0 < p.nAllocations
  backing : (blocks h.inner.pageAllocator).Perm (h.inner.table.map Page.ptr ++ frame)
  poisoned_eq : h.inner.poisoned = h.dirty
  live_of_dirty : h.dirty = true → h.live ≠ []

variable {A : Allocator β} {debug : Bool} {l : Layout} {blocks : β → List ℕ} {frame : List ℕ}
  {maxPages : ℕ} {h : PageHeap β}

theorem valid_new (b : β) : (new b l.size maxPages).Valid l blocks (blocks b) maxPages := by
  have htable : (new b l.size maxPages).inner.table = [] := by
    simp [new, PageAllocator.new, PageAllocator.table]
  constructor
  · rfl
  · simp [new, PageAllocator.new]
  · rw [htable]
    exact PageTable.nil l.size
  · simp [htable]
  · rw [htable]
    exact List.Perm.refl _
  · rfl
  · simp [new]

namespace Valid

theorem layout_le (l : Layout) : l.size ≤ isizeMax := by
  have := l.size_le
  omega

theorem alloc_ends (hv : h.Valid l blocks frame maxPages) (hA : A.Serves l blocks)
    (hl : Layout.fromSizeAlign l.size PageAllocator.alignment = some l) (debug : Bool)
    (layout : Layout) :
    (∃ e, PageAllocator.alloc A debug layout h.inner = .error e h.inner) ∨
      0 < layout.size ∧ h.inner.poisoned = false ∧
        PageAllocator.AllocEnds A debug l layout h.inner
          (PageAllocator.alloc A debug layout h.inner) := by
  rw [PageAllocator.alloc, bind_of_ok (get_apply h.inner)]
  by_cases hsize : layout.size = 0
  · exact Or.inl ⟨.allocationFailed, by rw [if_pos hsize]; rfl⟩
  rw [if_neg hsize]
  by_cases hpoisoned : h.inner.poisoned = true
  · exact Or.inl ⟨.heapPoisoned, by rw [if_pos hpoisoned]; rfl⟩
  rw [if_neg hpoisoned]
  refine Or.inr ⟨Nat.pos_of_ne_zero hsize, by simpa using hpoisoned, ?_⟩
  exact PageAllocator.allocFrom_ends hA (hv.pageSize_eq ▸ hl) _ 0 (Nat.zero_add _)

/-- The address of a new page is apart from the table. -/
theorem apart_new (hv : h.Valid l blocks frame maxPages) (hA : A.Serves l blocks) {addr : ℕ}
    {b : β} (halloc : A.alloc l h.inner.pageAllocator = .ok addr b) :
    blocks b = addr :: blocks h.inner.pageAllocator ∧ addr + l.size ≤ usizeMax ∧
      ∀ p ∈ h.inner.table, Apart addr l.size p.ptr l.size := by
  obtain ⟨hblocks, -, hend, hapart⟩ := (hA.alloc h.inner.pageAllocator).ok rfl halloc
  refine ⟨hblocks, hend, ?_⟩
  intro p hp
  refine hapart p.ptr (hv.backing.mem_iff.2 ?_)
  exact List.mem_append_left _ (List.mem_map_of_mem hp)

theorem alloc (hv : h.Valid l blocks frame maxPages) (hA : A.Serves l blocks)
    (hl : Layout.fromSizeAlign l.size PageAllocator.alignment = some l) {layout : Layout}
    {ptr : ℕ} {inner : PageAllocator β}
    (halloc : PageAllocator.alloc A debug layout h.inner = .ok ptr inner) :
    (PageHeap.mk inner (⟨ptr, layout⟩ :: h.live) h.dirty).Valid l blocks frame maxPages ∧
      h.inner.table.map Page.ptr ⊆ inner.table.map Page.ptr := by
  obtain ⟨e, he⟩ | ⟨hsize, hpoisoned, hends⟩ := hv.alloc_ends hA hl debug layout
  · rw [he] at halloc
    cases halloc
  rw [halloc] at hends
  cases hends with
  | @bumped i page page' ptr hpage hptr =>
      have hold := PageAllocator.filterMap_set_none hpage
      have hnew := PageAllocator.filterMap_set_of_some page' hpage
      obtain ⟨htable, -, hpp, hcount⟩ := (hv.table.perm hold).alloc (layout_le l) hsize hptr
      have hptrs : (h.inner.table.map Page.ptr).Perm
          (PageAllocator.table { h.inner with pages := h.inner.pages.set i (some page') } |>.map
            Page.ptr) := by
        refine (hold.map Page.ptr).trans (List.Perm.trans ?_ (hnew.map Page.ptr).symm)
        rw [List.map_cons, List.map_cons, hpp]
      refine ⟨⟨hv.pageSize_eq, ?_, htable.perm hnew.symm, ?_, ?_, hv.poisoned_eq, by simp⟩,
        hptrs.subset⟩
      · rw [← hv.length_eq]
        exact List.length_set
      · intro q hq
        rcases List.mem_cons.1 (hnew.mem_iff.1 hq) with rfl | hq
        · omega
        · exact hv.count_pos q (hold.mem_iff.2 (List.mem_cons_of_mem _ hq))
      · exact hv.backing.trans (hptrs.append_right frame)
  | @added i addr ptr b page' hnone hblock hptr =>
      have hnew := PageAllocator.filterMap_set_some page' hnone
      obtain ⟨hblocks, hend, hapart⟩ := hv.apart_new hA hblock
      rw [hv.pageSize_eq] at hptr
      obtain ⟨htable, -, hpp, hcount⟩ :=
        (hv.table.cons_new hend hapart).alloc (layout_le l) hsize hptr
      have hptrs : (PageAllocator.table
          { h.inner with pageAllocator := b, pages := h.inner.pages.set i (some page') } |>.map
            Page.ptr).Perm (addr :: h.inner.table.map Page.ptr) := by
        refine (hnew.map Page.ptr).trans ?_
        rw [List.map_cons, hpp]
        rfl
      refine ⟨⟨hv.pageSize_eq, ?_, htable.perm hnew.symm, ?_, ?_, hv.poisoned_eq, by simp⟩, ?_⟩
      · rw [← hv.length_eq]
        exact List.length_set
      · intro q hq
        rcases List.mem_cons.1 (hnew.mem_iff.1 hq) with rfl | hq
        · omega
        · exact hv.count_pos q hq
      · rw [hblocks]
        exact ((hv.backing.cons addr).trans (List.Perm.refl _)).trans
          (hptrs.symm.append_right frame)
      · exact fun q hq => hptrs.symm.subset (List.mem_cons_of_mem _ hq)

/-- A failing `alloc` leaves everything but the backing allocator as it was. -/
theorem alloc_error (hv : h.Valid l blocks frame maxPages) (hA : A.Serves l blocks)
    (hl : Layout.fromSizeAlign l.size PageAllocator.alignment = some l) {layout : Layout}
    {e : AllocError} {inner : PageAllocator β}
    (halloc : PageAllocator.alloc A debug layout h.inner = .error e inner) :
    (PageHeap.mk inner h.live h.dirty).Valid l blocks frame maxPages ∧
      inner = { h.inner with pageAllocator := inner.pageAllocator } := by
  obtain ⟨e, he⟩ | ⟨-, -, hends⟩ := hv.alloc_ends hA hl debug layout
  · rw [he] at halloc
    cases halloc
    exact ⟨hv, rfl⟩
  have hframe : ∀ b, blocks b = blocks h.inner.pageAllocator →
      (PageHeap.mk { h.inner with pageAllocator := b } h.live h.dirty).Valid l blocks frame
        maxPages := fun b hb =>
    ⟨hv.pageSize_eq, hv.length_eq, hv.table, hv.count_pos, hb ▸ hv.backing, hv.poisoned_eq,
      hv.live_of_dirty⟩
  rw [halloc] at hends
  cases hends with
  | full => exact ⟨hv, rfl⟩
  | @refused e b hb =>
      exact ⟨hframe b ((hA.alloc h.inner.pageAllocator).error rfl hb), rfl⟩
  | @tooSmall addr b page' hb hpage =>
      -- the block just taken goes straight back
      have hblocks := (hv.apart_new hA hb).1
      refine ⟨hframe _ ?_, rfl⟩
      rw [hA.dealloc b addr (by rw [hblocks]; exact List.mem_cons_self), hblocks,
        List.erase_cons_head]

/-- `alloc` returns, unless the build checks the arithmetic and an address is past
the end of the address space. -/
theorem alloc_returns (hv : h.Valid l blocks frame maxPages) (hA : A.Serves l blocks)
    (hl : Layout.fromSizeAlign l.size PageAllocator.alignment = some l) (layout : Layout) :
    PageAllocator.alloc A debug layout h.inner ≠ .diverge ∧
      (PageAllocator.alloc A debug layout h.inner = .panic → debug = true) := by
  obtain ⟨e, he⟩ | ⟨hsize, -, hends⟩ := hv.alloc_ends hA hl debug layout
  · simp [he]
  constructor
  · intro hd
    rw [hd] at hends
    cases hends
  · intro hp
    rw [hp] at hends
    cases hends with
    | @panicked page hnone hpage =>
        have hsound : page.Sound l.size := by
          rcases hpage with hpage | ⟨addr, b, hb, rfl⟩
          · exact hv.table.sound page hpage
          · exact ⟨hv.pageSize_eq, (hv.apart_new hA hb).2.1, Nat.zero_le _, le_rfl⟩
        rw [Page.alloc_eq hsound (layout_le l) debug hsize] at hnone
        simp only at hnone
        split at hnone
        · cases hnone
        · split at hnone
          · cases hnone
          · rename_i hdebug
            simpa using fun h => hdebug (Or.inr h)

theorem all_isNone_iff {pages : List (Option Page)} :
    pages.all Option.isNone = true ↔ pages.filterMap id = [] := by
  simp [List.filterMap_eq_nil_iff]

/-- The bucket of the page that owns a live allocation. -/
theorem exists_bucket (hv : h.Valid l blocks frame maxPages) {a : Allocation}
    (ha : a ∈ h.live) :
    ∃ (i : ℕ) (p : Page), h.inner.pages[i]? = some (some p) ∧ p.Holds a ∧ p.owns a := by
  obtain ⟨p, hp, hheld⟩ := hv.table.held a ha
  obtain ⟨bucket, hbucket, rfl⟩ := List.mem_filterMap.1 hp
  obtain ⟨i, hi⟩ := List.mem_iff_getElem?.1 hbucket
  exact ⟨i, p, hi, hheld,
    PageTable.owns_of_holds hheld (hv.table.sound p hp) (hv.table.size_pos a ha)⟩

theorem dealloc_apply (hv : h.Valid l blocks frame maxPages)
    (hl : Layout.fromSizeAlign l.size PageAllocator.alignment = some l) {a : Allocation}
    {i : ℕ} {p : Page} (hi : h.inner.pages[i]? = some (some p)) (howns : p.owns a) :
    PageAllocator.dealloc A debug a.ptr a.layout h.inner =
      .ok () (PageAllocator.freed A l i p h.inner) := by
  have hold := PageAllocator.filterMap_set_none hi
  have htable := hv.table.perm hold
  have hp := htable.sound p List.mem_cons_self
  have hcount := hv.count_pos p (hold.mem_iff.2 List.mem_cons_self)
  rw [PageAllocator.dealloc, bind_of_ok (get_apply h.inner)]
  refine PageAllocator.deallocFrom_apply (hv.pageSize_eq ▸ hl) hi ?_ ?_ (Nat.zero_le i)
    (Nat.zero_add _)
  · rw [Page.dealloc_eq hp debug fun _ => hcount, if_pos howns]
  · intro k q _ hk hq
    have hmem : q ∈ (h.inner.pages.set i none).filterMap id := by
      refine List.mem_filterMap.2 ⟨some q, ?_, rfl⟩
      exact List.mem_of_getElem? (i := k) (by rw [List.getElem?_set_ne hk.ne', hq])
    have hnot := htable.not_owns_tail howns hmem
    rw [Page.dealloc_eq (htable.sound q (List.mem_cons_of_mem _ hmem)) debug (by simp [hnot]),
      if_neg (by simp [hnot])]

theorem dealloc (hv : h.Valid l blocks frame maxPages) (hA : A.Serves l blocks)
    {a : Allocation} (ha : a ∈ h.live) {i : ℕ} {p : Page}
    (hi : h.inner.pages[i]? = some (some p)) (howns : p.owns a) :
    (PageHeap.mk (PageAllocator.freed A l i p h.inner) (h.live.erase a)
      (!(h.live.erase a).isEmpty)).Valid l blocks frame maxPages := by
  have hold := PageAllocator.filterMap_set_none hi
  have hfree := (hv.table.perm hold).free ha howns
  have hpos := hv.count_pos p (hold.mem_iff.2 List.mem_cons_self)
  have hrest : ∀ q ∈ (h.inner.pages.set i none).filterMap id, 0 < q.nAllocations :=
    fun q hq => hv.count_pos q (hold.mem_iff.2 (List.mem_cons_of_mem _ hq))
  have hdirty : ∀ {s : PageAllocator β}, PageTable l.size s.table (h.live.erase a) →
      (∀ q ∈ s.table, 0 < q.nAllocations) →
      (!s.pages.all Option.isNone) = !(h.live.erase a).isEmpty := by
    intro s htable hcount
    rw [Bool.not_inj_iff, Bool.eq_iff_iff, all_isNone_iff, List.isEmpty_iff]
    exact htable.eq_nil_iff hcount
  by_cases hlast : p.nAllocations = 1
  · have htable := hfree.tail (by simp [hlast])
    have hback : (blocks h.inner.pageAllocator).Perm
        (p.ptr :: (((h.inner.pages.set i none).filterMap id).map Page.ptr ++ frame)) :=
      hv.backing.trans ((hold.map Page.ptr).append_right frame)
    have hmem : p.ptr ∈ blocks h.inner.pageAllocator :=
      hback.mem_iff.2 List.mem_cons_self
    have := hdirty (s := ⟨A.dealloc p.ptr l h.inner.pageAllocator, h.inner.pageSize,
      h.inner.pages.set i none, false⟩) htable hrest
    rw [PageAllocator.freed]
    simp only [hlast, if_true]
    refine ⟨hv.pageSize_eq, ?_, htable, hrest, ?_, this, by simp⟩
    · rw [← hv.length_eq]
      exact List.length_set
    · rw [hA.dealloc _ _ hmem]
      have := hback.erase p.ptr
      rwa [List.erase_cons_head] at this
  · have hnew := PageAllocator.filterMap_set_of_some
      { p with nAllocations := p.nAllocations - 1 } hi
    have htable := hfree.perm hnew.symm
    have hcount : ∀ q ∈ (h.inner.pages.set i
        (some { p with nAllocations := p.nAllocations - 1 })).filterMap id,
        0 < q.nAllocations := by
      intro q hq
      rcases List.mem_cons.1 (hnew.mem_iff.1 hq) with rfl | hq
      · simp only
        omega
      · exact hrest q hq
    have := hdirty (s := ⟨h.inner.pageAllocator, h.inner.pageSize,
      h.inner.pages.set i (some { p with nAllocations := p.nAllocations - 1 }), false⟩) htable
        hcount
    rw [PageAllocator.freed]
    simp only [hlast, if_false]
    refine ⟨hv.pageSize_eq, ?_, htable, hcount, ?_, this, by simp⟩
    · rw [← hv.length_eq]
      exact List.length_set
    · refine hv.backing.trans (List.Perm.append_right frame ?_)
      exact (hold.map Page.ptr).trans (hnew.map Page.ptr).symm

theorem step {h' : PageHeap β} (hv : h.Valid l blocks frame maxPages) (hA : A.Serves l blocks)
    (hl : Layout.fromSizeAlign l.size PageAllocator.alignment = some l)
    (hstep : Step A debug h h') : h'.Valid l blocks frame maxPages := by
  cases hstep with
  | alloc halloc => exact (hv.alloc hA hl halloc).1
  | allocFails halloc => exact (hv.alloc_error hA hl halloc).1
  | @dealloc a inner ha hdealloc =>
      obtain ⟨i, p, hi, -, howns⟩ := hv.exists_bucket ha
      rw [hv.dealloc_apply hl hi howns] at hdealloc
      cases hdealloc
      exact hv.dealloc hA ha hi howns

theorem run {h' : PageHeap β} (hv : h.Valid l blocks frame maxPages) (hA : A.Serves l blocks)
    (hl : Layout.fromSizeAlign l.size PageAllocator.alignment = some l)
    (hrun : Relation.ReflTransGen (Step A debug) h h') : h'.Valid l blocks frame maxPages := by
  induction hrun with
  | refl => exact hv
  | tail _ hstep ih => exact ih.step hA hl hstep

end Valid

/-- The allocation lies inside the page. -/
def Inside (a : Allocation) (p : Page) : Prop :=
  p.ptr ≤ a.ptr ∧ a.ptr + a.layout.size ≤ p.ptr + p.size

/-- What a client of the allocator relies on in the state `h`; `frame` are the
blocks the backing allocator had given out before the run. -/
structure Safe (A : Allocator β) (debug : Bool) (l : Layout) (blocks : β → List ℕ)
    (frame : List ℕ) (maxPages : ℕ) (h : PageHeap β) : Prop where
  aligned : ∀ a ∈ h.live, a.ptr % a.layout.align = 0
  inside : ∀ a ∈ h.live, ∃ p ∈ h.inner.table, Inside a p
  disjoint : h.live.Pairwise Allocation.Apart
  /-- A successful `alloc`. -/
  alloc_ok : ∀ layout ptr inner, PageAllocator.alloc A debug layout h.inner = .ok ptr inner →
    ptr % layout.align = 0 ∧ (∃ p ∈ inner.table, Inside ⟨ptr, layout⟩ p) ∧
      ∀ a ∈ h.live, Allocation.Apart ⟨ptr, layout⟩ a
  /-- A failing `alloc` leaves everything but the backing allocator as it was. -/
  alloc_error : ∀ layout e inner, PageAllocator.alloc A debug layout h.inner = .error e inner →
    inner = { h.inner with pageAllocator := inner.pageAllocator }
  /-- Only a build that checks the address arithmetic can panic in `alloc`. -/
  alloc_returns : ∀ layout, PageAllocator.alloc A debug layout h.inner ≠ .diverge ∧
    (PageAllocator.alloc A debug layout h.inner = .panic → debug = true)
  /-- The backing allocator has not got back the pages of the table, and no others. -/
  outstanding : (blocks h.inner.pageAllocator).Perm (h.inner.table.map Page.ptr ++ frame)
  in_use : ∀ p ∈ h.inner.table, ∃ a ∈ h.live, Inside a p
  /-- `alloc` keeps the pages of the table. -/
  alloc_keeps : ∀ layout ptr inner, PageAllocator.alloc A debug layout h.inner = .ok ptr inner →
    h.inner.table.map Page.ptr ⊆ inner.table.map Page.ptr
  /-- `dealloc` gives the page back exactly when no live allocation is left in it. -/
  dealloc : ∀ a ∈ h.live, ∃ (i : ℕ) (p : Page) (inner : PageAllocator β),
    h.inner.pages[i]? = some (some p) ∧ Inside a p ∧
    PageAllocator.dealloc A debug a.ptr a.layout h.inner = .ok () inner ∧
    ((∃ b ∈ h.live.erase a, Inside b p) → inner.pageAllocator = h.inner.pageAllocator ∧
      ∃ p' : Page, p'.ptr = p.ptr ∧ inner.pages = h.inner.pages.set i (some p')) ∧
    ((∀ b ∈ h.live.erase a, ¬Inside b p) →
      inner.pageAllocator = A.dealloc p.ptr l h.inner.pageAllocator ∧
      inner.pages = h.inner.pages.set i none)
  /-- From the first `dealloc` until the heap is empty, every `alloc` fails. -/
  poisoned : h.dirty = true → ∀ layout,
    ∃ e, PageAllocator.alloc A debug layout h.inner = .error e h.inner
  /-- The empty heap is the fresh one. -/
  fresh : h.live = [] → h = new h.inner.pageAllocator l.size maxPages

namespace Valid

theorem inside_of_holds (hv : h.Valid l blocks frame maxPages) {a : Allocation} {p : Page}
    (hp : p ∈ h.inner.table) (hheld : p.Holds a) : Inside a p := by
  have hs := hv.table.sound p hp
  have := hs.allocated_le
  have := hs.size_eq
  exact ⟨hheld.1, by have := hheld.2; omega⟩

/-- Being in a page is being counted by it. -/
theorem inside_iff_owns (hv : h.Valid l blocks frame maxPages) {a : Allocation} {p : Page}
    (ha : a ∈ h.live) (hp : p ∈ h.inner.table) : Inside a p ↔ p.owns a := by
  constructor
  · intro hin
    have := hv.table.size_pos a ha
    simp only [Page.owns, decide_eq_true_eq]
    exact ⟨hin.1, by have := hin.2; omega⟩
  · exact fun howns => hv.inside_of_holds hp (hv.table.holds_of_owns ha hp howns)

theorem in_use (hv : h.Valid l blocks frame maxPages) {p : Page} (hp : p ∈ h.inner.table) :
    ∃ a ∈ h.live, Inside a p := by
  have hpos := hv.count_pos p hp
  rw [hv.table.count_eq p hp, List.countP_pos_iff] at hpos
  obtain ⟨a, ha, howns⟩ := hpos
  exact ⟨a, ha, (hv.inside_iff_owns ha hp).2 howns⟩

/-- The page's count after a `dealloc` is about the allocations left in it. -/
theorem last_iff (hv : h.Valid l blocks frame maxPages) {a : Allocation} (ha : a ∈ h.live)
    {p : Page} (hp : p ∈ h.inner.table) (howns : p.owns a) :
    p.nAllocations = 1 ↔ ∀ b ∈ h.live.erase a, ¬Inside b p := by
  have hcount := (List.perm_cons_erase ha).countP_eq p.owns
  rw [List.countP_cons_of_pos howns, ← hv.table.count_eq p hp] at hcount
  have hzero : p.nAllocations = 1 ↔ (h.live.erase a).countP p.owns = 0 := by omega
  rw [hzero, List.countP_eq_zero]
  refine forall₂_congr fun b hb => ?_
  rw [hv.inside_iff_owns (List.mem_of_mem_erase hb) hp]

theorem fresh (hv : h.Valid l blocks frame maxPages) (hnil : h.live = []) :
    h = new h.inner.pageAllocator l.size maxPages := by
  have hdirty : h.dirty = false := by
    rw [← Bool.not_eq_true]
    exact fun hd => hv.live_of_dirty hd hnil
  have htable := (hv.table.eq_nil_iff hv.count_pos).2 hnil
  have hpages : h.inner.pages = List.replicate maxPages none := by
    rw [List.eq_replicate_iff]
    refine ⟨hv.length_eq, ?_⟩
    intro bucket hbucket
    exact List.filterMap_eq_nil_iff.1 htable bucket hbucket
  obtain ⟨⟨b, pageSize, pages, poisoned⟩, live, dirty⟩ := h
  obtain rfl : poisoned = dirty := hv.poisoned_eq
  obtain rfl : pageSize = l.size := hv.pageSize_eq
  simp only at hnil hdirty hpages
  rw [new, PageAllocator.new, hnil, hdirty, hpages]

theorem safe (hv : h.Valid l blocks frame maxPages) (hA : A.Serves l blocks)
    (hl : Layout.fromSizeAlign l.size PageAllocator.alignment = some l) :
    h.Safe A debug l blocks frame maxPages where
  aligned := hv.table.aligned
  inside a ha := by
    obtain ⟨p, hp, hheld⟩ := hv.table.held a ha
    exact ⟨p, hp, hv.inside_of_holds hp hheld⟩
  disjoint := hv.table.disjoint
  alloc_ok layout ptr inner halloc := by
    have hv' := (hv.alloc hA hl halloc).1
    obtain ⟨p, hp, hheld⟩ := hv'.table.held _ List.mem_cons_self
    exact ⟨hv'.table.aligned _ List.mem_cons_self, ⟨p, hp, hv'.inside_of_holds hp hheld⟩,
      (List.pairwise_cons.1 hv'.table.disjoint).1⟩
  alloc_error layout e inner halloc := (hv.alloc_error hA hl halloc).2
  alloc_returns := hv.alloc_returns hA hl
  outstanding := hv.backing
  in_use p hp := hv.in_use hp
  alloc_keeps layout ptr inner halloc := (hv.alloc hA hl halloc).2
  dealloc a ha := by
    obtain ⟨i, p, hi, hheld, howns⟩ := hv.exists_bucket ha
    have hp : p ∈ h.inner.table :=
      List.mem_filterMap.2 ⟨some p, List.mem_of_getElem? hi, rfl⟩
    refine ⟨i, p, _, hi, hv.inside_of_holds hp hheld, hv.dealloc_apply hl hi howns, ?_, ?_⟩
    · rintro ⟨b, hb, hin⟩
      have hlast : p.nAllocations ≠ 1 := fun h1 => (hv.last_iff ha hp howns).1 h1 b hb hin
      simp only [PageAllocator.freed, if_neg hlast, true_and]
      exact ⟨{ p with nAllocations := p.nAllocations - 1 }, rfl, rfl⟩
    · intro hnone
      have hlast := (hv.last_iff ha hp howns).2 hnone
      simp only [PageAllocator.freed, if_pos hlast, and_self]
  poisoned hdirty layout := by
    obtain he | ⟨-, hpoisoned, -⟩ := hv.alloc_ends hA hl debug layout
    · exact he
    · rw [hv.poisoned_eq, hdirty] at hpoisoned
      cases hpoisoned
  fresh := hv.fresh

end Valid

end PageHeap

/-- The page allocator is safe in every state of every run, over any backing
allocator that keeps its blocks apart. -/
theorem pageAllocator_safe {β : Type} {A : Allocator β} {l : Layout} {blocks : β → List ℕ}
    (hA : A.Serves l blocks) {pageSize : ℕ}
    (hl : Layout.fromSizeAlign pageSize PageAllocator.alignment = some l) (debug : Bool)
    (maxPages : ℕ) (b : β) {h : PageHeap β}
    (hrun : Relation.ReflTransGen (PageHeap.Step A debug) (PageHeap.new b pageSize maxPages) h) :
    h.Safe A debug l blocks (blocks b) maxPages := by
  obtain rfl : l.size = pageSize := (Layout.fromSizeAlign_eq_some hl).1
  exact ((PageHeap.valid_new b).run hA hl hrun).safe hA hl

/-! ### A source of pages -/

/-- The end of the pages that are out. -/
def pagesEnd (n : ℕ) (out : List ℕ) : ℕ := out.foldr (fun q k => max (q + n) k) 0

/-- Each page starts past the ones that are out; the state is their addresses. -/
def pageSource : Allocator (List ℕ) where
  alloc l := do
    let out ← get
    let p := pagesEnd l.size out + Page.alignmentOffset (pagesEnd l.size out) l.align
    if p + l.size ≤ usizeMax then do
      set (p :: out)
      pure p
    else throw .outOfMemory
  dealloc p _ out := out.erase p

theorem le_pagesEnd {n q : ℕ} {out : List ℕ} (h : q ∈ out) : q + n ≤ pagesEnd n out := by
  induction out with
  | nil => cases h
  | cons r out ih =>
      rcases List.mem_cons.1 h with rfl | h
      · exact le_max_left _ _
      · exact (ih h).trans (le_max_right _ _)

theorem pageSource_serves (l : Layout) : pageSource.Serves l id where
  alloc b s hs := by
    subst hs
    simp only [pageSource, bind_apply, get_apply, ite_apply']
    generalize hp : pagesEnd l.size s + Page.alignmentOffset (pagesEnd l.size s) l.align = p
    by_cases hend : p + l.size ≤ usizeMax
    · rw [if_pos hend]
      refine ⟨rfl, hp ▸ Page.add_alignmentOffset_mod l.align_pos _, hend, ?_⟩
      intro q hq
      have hle : q + l.size ≤ pagesEnd l.size s := le_pagesEnd hq
      exact Or.inr (by omega)
    · rw [if_neg hend]
      rfl
  dealloc s p _ := rfl

def wordLayout : Layout := ⟨64, 8, ⟨3, by decide, rfl⟩, by decide⟩

/-- A request that fills a page of `64` bytes. -/
def onePage : PageHeap (List ℕ) where
  inner := ⟨[0], 64, [some ⟨0, 64, 64, 1, 0⟩, none], false⟩
  live := [⟨0, wordLayout⟩]
  dirty := false

/-- A second one, which needs a page of its own. -/
def twoPages : PageHeap (List ℕ) where
  inner := ⟨[64, 0], 64, [some ⟨0, 64, 64, 1, 0⟩, some ⟨64, 64, 64, 1, 0⟩], false⟩
  live := [⟨64, wordLayout⟩, ⟨0, wordLayout⟩]
  dirty := false

set_option maxRecDepth 4000 in
theorem twoPages_reachable :
    Relation.ReflTransGen (PageHeap.Step pageSource true) (PageHeap.new [] 64 2) twoPages := by
  have hone : PageHeap.Step pageSource true (PageHeap.new [] 64 2) onePage :=
    PageHeap.Step.alloc rfl
  have htwo : PageHeap.Step pageSource true onePage twoPages := PageHeap.Step.alloc rfl
  exact (Relation.ReflTransGen.single hone).tail htwo

theorem twoPages_safe : twoPages.Safe pageSource true wordLayout id [] 2 :=
  pageAllocator_safe (pageSource_serves wordLayout) (by rfl) true 2 [] twoPages_reachable

end SpaceWasm
