import SpaceWasm.CodeBuffer
import SpaceWasm.Label

/-!
# The flat code

To its users the code buffer is a list of words that grows at its end. `FlatCode`
has the number of words pushed and the word at every address; its pages only say
which addresses are there. It counts the pages asked for, since the allocator may
answer each request as it likes. Whatever the answers, a sequence of operations on the
buffer replies as on the flat code.

A failed operation leaves the buffer in use, so the sequences go on after errors.
-/

namespace SpaceWasm

open Fallible

/-! ### Operations -/

/-- A call of the code buffer. -/
inductive CodeOp where
  | push (w : U16)
  | read (address : JumpTarget)
  | read32 (address : JumpTarget)
  | write (address : JumpTarget) (value : U16)
  | write32 (address : JumpTarget) (value : U32)

/-- What it returns. -/
inductive CodeReply where
  | done
  | word (w : U16)
  | word32 (w : U32)
  | failed (e : ValidationError)

def CodeOp.run : CodeOp → CodeM CodeReply
  | push w => do
      CodeBuilder.push w
      pure .done
  | read address => do
      let w ← CodeBuilder.read address
      pure (.word w)
  | read32 address => do
      let w ← CodeBuilder.read32 address
      pure (.word32 w)
  | write address value => do
      CodeBuilder.write address value
      pure .done
  | write32 address value => do
      CodeBuilder.write32 address value
      pure .done

/-- The reply of an operation and the buffer after it; `none` is a panic. -/
def CodeOp.perform (op : CodeOp) (c : CodeBuilder) : Option (CodeReply × CodeBuilder) :=
  match op.run c with
  | .ok r c' => some (r, c')
  | .error e c' => some (.failed e, c')
  | .panic => none
  | .diverge => none

theorem CodeOp.perform_of_ok {op : CodeOp} {c c' : CodeBuilder} {r : CodeReply}
    (h : op.run c = .ok r c') : op.perform c = some (r, c') := by
  rw [perform, h]

theorem CodeOp.perform_of_error {op : CodeOp} {c c' : CodeBuilder} {e : ValidationError}
    (h : op.run c = .error e c') : op.perform c = some (.failed e, c') := by
  rw [perform, h]

def CodeBuilder.performAll : List CodeOp → CodeBuilder → Option (List CodeReply × CodeBuilder)
  | [], c => some ([], c)
  | op :: ops, c => do
      let (r, c) ← op.perform c
      let (rs, c) ← performAll ops c
      some (r :: rs, c)

/-! ### The flat code -/

/-- The number of words pushed so far, the word at each address, and the number of
requests to the allocator. -/
structure FlatCode where
  length : ℕ
  word : ℕ → U16
  requests : ℕ

namespace FlatCode

def empty (requests : ℕ) : FlatCode := ⟨0, fun _ => 0, requests⟩

/-- The list of the words pushed. -/
def words (f : FlatCode) : List U16 := (List.range f.length).map f.word

/-- The number of pages the words take. -/
def pages (f : FlatCode) : ℕ := (f.length + 255) / 256

def Allocated (f : FlatCode) (a : JumpTarget) : Prop := a.page < f.pages

def push (f : FlatCode) (w : U16) : FlatCode :=
  ⟨f.length + 1, Function.update f.word f.length w, f.requests⟩

/-- A page has been asked for. -/
def request (f : FlatCode) : FlatCode := ⟨f.length, f.word, f.requests + 1⟩

def write (f : FlatCode) (a : JumpTarget) (v : U16) : FlatCode :=
  ⟨f.length, Function.update f.word a.toNat v, f.requests⟩

def read32 (f : FlatCode) (a : JumpTarget) : U32 :=
  join32 (f.word a.toNat) (f.word (a + 1).toNat)

def write32 (f : FlatCode) (a : JumpTarget) (v : U32) : FlatCode :=
  (f.write a (v.setWidth 16)).write (a + 1) ((v >>> 16).setWidth 16)

@[simp] theorem length_words (f : FlatCode) : f.words.length = f.length := by
  rw [words, List.length_map, List.length_range]

theorem getElem?_words {f : FlatCode} {i : ℕ} (h : i < f.length) :
    f.words[i]? = some (f.word i) := by
  rw [words, List.getElem?_map, List.getElem?_range h]
  rfl

theorem words_push (f : FlatCode) (w : U16) : (f.push w).words = f.words ++ [w] := by
  have hold : (List.range f.length).map (f.push w).word = f.words := by
    apply List.map_congr_left
    intro i hi
    exact Function.update_of_ne (Nat.ne_of_lt (List.mem_range.1 hi)) _ _
  have hnew : (f.push w).word f.length = w := Function.update_self _ _ _
  have hrange : List.range (f.push w).length = List.range f.length ++ [f.length] :=
    List.range_succ
  rw [words, hrange, List.map_append, hold, List.map_singleton, hnew]

theorem words_write (f : FlatCode) (a : JumpTarget) (v : U16) :
    (f.write a v).words = f.words.set a.toNat v := by
  apply List.ext_getElem?
  intro i
  by_cases hi : i < f.length
  · have hnew : (f.write a v).words[i]? = some (Function.update f.word a.toNat v i) :=
      getElem?_words hi
    rw [hnew, List.getElem?_set, length_words, getElem?_words hi]
    by_cases ha : a.toNat = i
    · subst ha
      simp [hi]
    · simp [ha, Ne.symm ha]
  · have hold : f.words.length ≤ i := by
      rw [length_words]
      omega
    have hnew : (f.write a v).words.length ≤ i := by
      rw [length_words]
      exact Nat.le_of_not_lt hi
    rw [List.getElem?_eq_none hnew, List.getElem?_eq_none (by rwa [List.length_set])]

theorem read32_write32 (f : FlatCode) (a : JumpTarget) (v : U32) :
    (f.write32 a v).read32 a = v := by
  have hne : a.toNat ≠ (a + 1).toNat := by
    have hlt := a.isLt
    have hone : (1 : JumpTarget).toNat = 1 := rfl
    rw [BitVec.toNat_add, hone]
    omega
  simp only [read32, write32, write, Function.update_self, Function.update_of_ne hne,
    join32_words]

/-- The replies of the flat code. A push at the end of a page asks for the next one, and
fails for two reasons: this request is refused, or there are as many pages as configured.
A write of two words of which the second is outside leaves the first. -/
inductive Step (answer : ℕ → ℕ → Option AllocError) (maxCodePages : ℕ) :
    FlatCode → CodeOp → CodeReply → FlatCode → Prop where
  | push {f : FlatCode} {w : U16} : f.length % 256 ≠ 0 → f.length < 256 * maxCodePages →
      Step answer maxCodePages f (.push w) .done (f.push w)
  | pushPage {f : FlatCode} {w : U16} : f.length % 256 = 0 → f.length < 256 * maxCodePages →
      answer f.requests 512 = none →
      Step answer maxCodePages f (.push w) .done (f.request.push w)
  | refused {f : FlatCode} {w : U16} {e : AllocError} : f.length % 256 = 0 →
      answer f.requests 512 = some e →
      Step answer maxCodePages f (.push w) (.failed (.allocError e)) f.request
  | full {f : FlatCode} {w : U16} : f.length = 256 * maxCodePages →
      answer f.requests 512 = none →
      Step answer maxCodePages f (.push w) (.failed (.allocError .outOfMemory)) f.request
  | read {f : FlatCode} {a : JumpTarget} : f.Allocated a →
      Step answer maxCodePages f (.read a) (.word (f.word a.toNat)) f
  | readFault {f : FlatCode} {a : JumpTarget} : ¬f.Allocated a →
      Step answer maxCodePages f (.read a) (.failed .pageFault) f
  | read32 {f : FlatCode} {a : JumpTarget} : f.Allocated a → f.Allocated (a + 1) →
      Step answer maxCodePages f (.read32 a) (.word32 (f.read32 a)) f
  | read32Fault {f : FlatCode} {a : JumpTarget} : ¬(f.Allocated a ∧ f.Allocated (a + 1)) →
      Step answer maxCodePages f (.read32 a) (.failed .pageFault) f
  | write {f : FlatCode} {a : JumpTarget} {v : U16} : f.Allocated a →
      Step answer maxCodePages f (.write a v) .done (f.write a v)
  | writeFault {f : FlatCode} {a : JumpTarget} {v : U16} : ¬f.Allocated a →
      Step answer maxCodePages f (.write a v) (.failed .pageFault) f
  | write32 {f : FlatCode} {a : JumpTarget} {v : U32} : f.Allocated a → f.Allocated (a + 1) →
      Step answer maxCodePages f (.write32 a v) .done (f.write32 a v)
  | write32Fault {f : FlatCode} {a : JumpTarget} {v : U32} : ¬f.Allocated a →
      Step answer maxCodePages f (.write32 a v) (.failed .pageFault) f
  | write32Torn {f : FlatCode} {a : JumpTarget} {v : U32} : f.Allocated a →
      ¬f.Allocated (a + 1) →
      Step answer maxCodePages f (.write32 a v) (.failed .pageFault) (f.write a (v.setWidth 16))

inductive Run (answer : ℕ → ℕ → Option AllocError) (maxCodePages : ℕ) :
    FlatCode → List CodeOp → List CodeReply → FlatCode → Prop where
  | nil {f : FlatCode} : Run answer maxCodePages f [] [] f
  | cons {f g h : FlatCode} {op : CodeOp} {ops : List CodeOp} {r : CodeReply}
      {rs : List CodeReply} : Step answer maxCodePages f op r g →
      Run answer maxCodePages g ops rs h → Run answer maxCodePages f (op :: ops) (r :: rs) h

end FlatCode

/-! ### Pushes -/

namespace CodeBuilder

/-- Between two operations the last page has a word. -/
def Filled (c : CodeBuilder) : Prop := c.pages ≠ [] → 0 < c.offset

theorem Filled.length_pages {c : CodeBuilder} (h : c.Filled) :
    c.pages.length = (c.size + 255) / 256 := by
  have hoff := c.offset_le
  unfold size
  split
  · next hlen => rw [hlen]
  · next hlen =>
    have hpos := h fun hnil => hlen (by rw [hnil]; rfl)
    omega

theorem NoRoom.size_eq {c : CodeBuilder} (h : c.NoRoom) : c.size = 256 * c.pages.length := by
  unfold size
  rcases h with hnil | hfull
  · rw [hnil]
    rfl
  · rw [hfull]
    split <;> omega

theorem Filled.size_mod {c : CodeBuilder} (h : c.Filled) (hpages : c.pages ≠ [])
    (hoffset : c.offset < 256) : c.size % 256 ≠ 0 := by
  have hpos := h hpages
  unfold size
  rw [if_neg (mt List.length_eq_zero_iff.1 hpages)]
  omega

/-- The allocator after one more request. -/
def Asked (c c' : CodeBuilder) : Prop :=
  c'.heap = { c.heap with requests := c.heap.requests + 1 }

/-- A push that appends its word. It asks for a page if there is no room for a word. -/
structure Accepted (c c' : CodeBuilder) : Prop where
  offset : 0 < c'.offset
  heap : c.NoRoom ∧ c.heap.answer c.heap.requests 512 = none ∧ c.Asked c' ∨
    (c.pages ≠ [] ∧ c.offset < 256) ∧ c'.heap = c.heap

/-- Why a push fails: there is no room for a word, and the allocator refuses a page or
there are as many as configured. The pages are as before. -/
structure Refused (c : CodeBuilder) (e : ValidationError) (c' : CodeBuilder) : Prop where
  room : c.NoRoom
  pages : c'.pages = c.pages
  offset : c'.offset = c.offset
  options : c'.options = c.options
  heap : c.Asked c'
  reason : (∃ a, c.heap.answer c.heap.requests 512 = some a ∧ e = .allocError a) ∨
    c.pages.length = c.options.maxCodePages ∧ c.heap.answer c.heap.requests 512 = none ∧
      e = .allocError .outOfMemory

theorem addPage_refused {c : CodeBuilder} (hroom : c.NoRoom) :
    match CodeBuilder.addPage c with
    | .ok _ c' => c.heap.answer c.heap.requests 512 = none ∧ c.Asked c'
    | .error e c' => c.Refused e c'
    | .panic => True
    | .diverge => True := by
  unfold CodeBuilder.addPage
  rw [bind_apply]
  unfold allocate
  rcases hanswer : c.heap.answer c.heap.requests 512 with _ | a
  · simp only
    unfold CodeBuilder.pushPage
    by_cases hcap : c.pages.length < c.options.maxCodePages
    · simp only [hcap, dif_pos]
      exact ⟨trivial, rfl⟩
    · simp only [hcap, dif_neg, not_false_eq_true]
      have hfull := Nat.le_antisymm c.pages_le (Nat.le_of_not_lt hcap)
      exact ⟨hroom, rfl, rfl, rfl, rfl, Or.inr ⟨hfull, hanswer, rfl⟩⟩
  · exact ⟨hroom, rfl, rfl, rfl, rfl, Or.inl ⟨a, hanswer, rfl⟩⟩

theorem putWord_filled {w : U16} {c c' : CodeBuilder} (h : CodeBuilder.putWord w c = .ok () c') :
    0 < c'.offset ∧ c'.heap = c.heap := by
  unfold CodeBuilder.putWord at h
  split at h
  · cases h
  · split at h
    · cases h
      exact ⟨Nat.succ_pos _, rfl⟩
    · cases h

theorem putWord_ne_error {w : U16} {c c' : CodeBuilder} {e : ValidationError} :
    CodeBuilder.putWord w c ≠ .error e c' := by
  intro h
  unfold CodeBuilder.putWord at h
  split at h
  · cases h
  · split at h <;> cases h

/-- The pages and the requests after a push. -/
theorem push_pages (w : U16) (c : CodeBuilder) :
    match CodeBuilder.push w c with
    | .ok _ c' => c.Accepted c'
    | .error e c' => c.Refused e c'
    | .panic => True
    | .diverge => True := by
  rcases push_cases w c with ⟨hroom, hpush⟩ | ⟨hroom, hpush⟩
  · have hpage := addPage_refused hroom
    rw [hpush, bind_apply]
    rcases hc : CodeBuilder.addPage c with ⟨_, c₁⟩ | ⟨e, c₁⟩ | _ | _ <;> rw [hc] at hpage
    · obtain ⟨hanswer, hasked⟩ := hpage
      simp only
      rcases hput : CodeBuilder.putWord w c₁ with ⟨_, c₂⟩ | ⟨e, c₂⟩ | _ | _
      · obtain ⟨hpos, hheap⟩ := putWord_filled hput
        exact ⟨hpos, Or.inl ⟨hroom, hanswer, hheap.trans hasked⟩⟩
      · exact absurd hput putWord_ne_error
      · trivial
      · trivial
    · exact hpage
    · trivial
    · trivial
  · rw [hpush]
    rcases hput : CodeBuilder.putWord w c with ⟨_, c₂⟩ | ⟨e, c₂⟩ | _ | _
    · obtain ⟨hpos, hheap⟩ := putWord_filled hput
      exact ⟨hpos, Or.inr ⟨hroom, hheap⟩⟩
    · exact absurd hput putWord_ne_error
    · trivial
    · trivial

/-! ### The refinement -/

/-- The flat code of a buffer with given options and a given allocator. -/
structure Represents (options : CompilerOptions) (answer : ℕ → ℕ → Option AllocError)
    (c : CodeBuilder) (f : FlatCode) : Prop where
  length : c.size = f.length
  word : c.word = f.word
  filled : c.Filled
  options : c.options = options
  heap : c.heap = ⟨answer, f.requests⟩

variable {options : CompilerOptions} {answer : ℕ → ℕ → Option AllocError} {c : CodeBuilder}
  {f : FlatCode}

namespace Represents

theorem new {heap : Heap} (h : CodeBuilder.new options heap = .ok c) :
    c.Represents options heap.answer (.empty heap.requests) := by
  unfold CodeBuilder.new at h
  split at h
  · cases h
    exact ⟨rfl, funext fun _ => rfl, fun hne => absurd rfl hne, rfl, rfl⟩
  · cases h

theorem allocated (h : c.Represents options answer f) (a : JumpTarget) :
    f.Allocated a ↔ a.page < c.pages.length := by
  rw [h.filled.length_pages, h.length]
  rfl

/-- A write to an allocated page. -/
theorem write {a : JumpTarget} (h : c.Represents options answer f) (v : U16)
    (ha : f.Allocated a) :
    ∃ c', CodeBuilder.write a v c = .ok () c' ∧ c'.Represents options answer (f.write a v) := by
  obtain ⟨c', hwrite, hword, hshape, hoff, hheap⟩ := write_of_page v ((h.allocated a).1 ha)
  refine ⟨c', hwrite, ?_, ?_, ?_, ?_, ?_⟩
  · rw [hshape.size, h.length]
    rfl
  · rw [hword, h.word]
    rfl
  · intro hne
    rw [hoff]
    refine h.filled fun hnil => hne ?_
    rw [← List.length_eq_zero_iff, hshape.pages, hnil]
    rfl
  · rw [hshape.options, h.options]
  · rw [hheap, h.heap]
    rfl

theorem write_fault {a : JumpTarget} (h : c.Represents options answer f) (v : U16)
    (ha : ¬f.Allocated a) : CodeBuilder.write a v c = .error .pageFault c := by
  have hnone : c.pages[a.page]? = none :=
    List.getElem?_eq_none (Nat.le_of_not_lt (mt (h.allocated a).2 ha))
  unfold CodeBuilder.write
  rw [hnone]

theorem read {a : JumpTarget} (h : c.Represents options answer f) (ha : f.Allocated a) :
    CodeBuilder.read a c = .ok (f.word a.toNat) c := by
  rw [read_of_page ((h.allocated a).1 ha), h.word]

theorem read_fault {a : JumpTarget} (h : c.Represents options answer f) (ha : ¬f.Allocated a) :
    CodeBuilder.read a c = .error .pageFault c := by
  have hnone : c.pages[a.page]? = none :=
    List.getElem?_eq_none (Nat.le_of_not_lt (mt (h.allocated a).2 ha))
  unfold CodeBuilder.read
  rw [hnone]

theorem read32 {a : JumpTarget} (h : c.Represents options answer f) (ha : f.Allocated a)
    (ha' : f.Allocated (a + 1)) : CodeBuilder.read32 a c = .ok (f.read32 a) c := by
  unfold CodeBuilder.read32
  rw [bind_of_ok (h.read ha), bind_of_ok (h.read ha')]
  rfl

theorem read32_fault {a : JumpTarget} (h : c.Represents options answer f)
    (ha : ¬(f.Allocated a ∧ f.Allocated (a + 1))) :
    CodeBuilder.read32 a c = .error .pageFault c := by
  unfold CodeBuilder.read32
  by_cases hfirst : f.Allocated a
  · rw [bind_of_ok (h.read hfirst),
      bind_of_error (h.read_fault fun hsecond => ha ⟨hfirst, hsecond⟩)]
  · rw [bind_of_error (h.read_fault hfirst)]

theorem write32 {a : JumpTarget} (h : c.Represents options answer f) (v : U32)
    (ha : f.Allocated a) (ha' : f.Allocated (a + 1)) :
    ∃ c', CodeBuilder.write32 a v c = .ok () c' ∧
      c'.Represents options answer (f.write32 a v) := by
  obtain ⟨c₁, h₁, hrep₁⟩ := h.write (v.setWidth 16) ha
  obtain ⟨c₂, h₂, hrep₂⟩ := hrep₁.write ((v >>> 16).setWidth 16) ha'
  refine ⟨c₂, ?_, hrep₂⟩
  unfold CodeBuilder.write32
  rw [bind_of_ok h₁, h₂]

/-- The decoder fetches the words of the flat code. -/
theorem fetch {a : JumpTarget} (h : c.Represents options answer f) (ha : f.Allocated a) :
    IrReader.read c.pages a = .ok (f.word a.toNat) (a + 1) := by
  rw [IrReader.read_of_page ((h.allocated a).1 ha), h.word]

theorem fetch32 {a : JumpTarget} (h : c.Represents options answer f) (ha : f.Allocated a)
    (ha' : f.Allocated (a + 1)) :
    IrReader.readU32 c.pages a = .ok (f.read32 a) (a + 1 + 1) := by
  unfold IrReader.readU32
  rw [bind_of_ok (h.fetch ha), bind_of_ok (h.fetch ha')]
  rfl

theorem asked {c' : CodeBuilder} (h : c.Represents options answer f) (hasked : c.Asked c') :
    c'.heap = ⟨answer, f.request.requests⟩ := by
  rw [Asked, h.heap] at hasked
  exact hasked

/-- A push appends its word, or is refused and changes nothing. -/
theorem push (h : c.Represents options answer f) (w : U16) :
    ∃ r c' f', (CodeOp.push w).perform c = some (r, c') ∧
      FlatCode.Step answer options.maxCodePages f (.push w) r f' ∧
      c'.Represents options answer f' := by
  have hspec := push_spec w c
  have hpages := push_pages w c
  have hno : c.NoRoom → f.length % 256 = 0 := fun hroom => by
    rw [← h.length, hroom.size_eq, Nat.mul_mod_right]
  have hanswer : c.heap.answer c.heap.requests 512 = answer f.requests 512 := by rw [h.heap]
  rcases hc : CodeBuilder.push w c with ⟨_, c'⟩ | ⟨e, c'⟩ | _ | _ <;>
    rw [hc] at hspec hpages
  · obtain ⟨hsize, hword, hopt⟩ := hspec
    have hroom : f.length < 256 * options.maxCodePages := by
      have hle := c'.size_le
      have hcap := c'.pages_le
      rw [hopt, h.options] at hcap
      rw [hsize, h.length] at hle
      omega
    have hperform : (CodeOp.push w).perform c = some (.done, c') :=
      CodeOp.perform_of_ok (bind_of_ok hc)
    have hlength : c'.size = f.length + 1 := by rw [hsize, h.length]
    have hwords : c'.word = Function.update f.word f.length w := by
      rw [hword, h.word, h.length]
    have hoptions : c'.options = options := by rw [hopt, h.options]
    have hfilled : c'.Filled := fun _ => hpages.offset
    rcases hpages.heap with ⟨hnoroom, hgranted, hasked⟩ | ⟨hsome, hheap⟩
    · exact ⟨.done, c', f.request.push w, hperform,
        .pushPage (hno hnoroom) hroom (hanswer.symm.trans hgranted),
        hlength, hwords, hfilled, hoptions, h.asked hasked⟩
    · have hmod := h.filled.size_mod hsome.1 hsome.2
      rw [h.length] at hmod
      exact ⟨.done, c', f.push w, hperform, .push hmod hroom, hlength, hwords, hfilled, hoptions,
        hheap.trans h.heap⟩
  · obtain ⟨-, hsize, hword, hopt⟩ := hspec
    have hrep : c'.Represents options answer f.request := by
      refine ⟨hsize.trans h.length, hword.trans h.word, ?_, hopt.trans h.options,
        h.asked hpages.heap⟩
      unfold Filled
      rw [hpages.pages, hpages.offset]
      exact h.filled
    have hperform : (CodeOp.push w).perform c = some (.failed e, c') :=
      CodeOp.perform_of_error (bind_of_error hc)
    rcases hpages.reason with ⟨a, hrefused, rfl⟩ | ⟨hfull, hgranted, rfl⟩
    · exact ⟨_, c', _, hperform, .refused (hno hpages.room) (hanswer.symm.trans hrefused), hrep⟩
    · refine ⟨_, c', _, hperform, .full ?_ (hanswer.symm.trans hgranted), hrep⟩
      rw [← h.length, ← h.options, ← hfull]
      exact hpages.room.size_eq
  · exact hspec.elim
  · exact hspec.elim

/-- Every operation replies as on the flat code. -/
theorem step (h : c.Represents options answer f) (op : CodeOp) :
    ∃ r c' f', op.perform c = some (r, c') ∧
      FlatCode.Step answer options.maxCodePages f op r f' ∧ c'.Represents options answer f' := by
  cases op with
  | push w => exact h.push w
  | read a =>
      by_cases ha : f.Allocated a
      · exact ⟨_, c, f, CodeOp.perform_of_ok (bind_of_ok (h.read ha)), .read ha, h⟩
      · exact ⟨_, c, f, CodeOp.perform_of_error (bind_of_error (h.read_fault ha)), .readFault ha, h⟩
  | read32 a =>
      by_cases ha : f.Allocated a ∧ f.Allocated (a + 1)
      · exact ⟨_, c, f, CodeOp.perform_of_ok (bind_of_ok (h.read32 ha.1 ha.2)),
          .read32 ha.1 ha.2, h⟩
      · exact ⟨_, c, f, CodeOp.perform_of_error (bind_of_error (h.read32_fault ha)),
          .read32Fault ha, h⟩
  | write a v =>
      by_cases ha : f.Allocated a
      · obtain ⟨c', hwrite, hrep⟩ := h.write v ha
        exact ⟨_, c', _, CodeOp.perform_of_ok (bind_of_ok hwrite), .write ha, hrep⟩
      · exact ⟨_, c, f, CodeOp.perform_of_error (bind_of_error (h.write_fault v ha)),
          .writeFault ha, h⟩
  | write32 a v =>
      by_cases ha : f.Allocated a
      · by_cases ha' : f.Allocated (a + 1)
        · obtain ⟨c', hwrite, hrep⟩ := h.write32 v ha ha'
          exact ⟨_, c', _, CodeOp.perform_of_ok (bind_of_ok hwrite), .write32 ha ha', hrep⟩
        · obtain ⟨c₁, h₁, hrep₁⟩ := h.write (v.setWidth 16) ha
          have hfault : CodeBuilder.write32 a v c = .error .pageFault c₁ := by
            unfold CodeBuilder.write32
            rw [bind_of_ok h₁, hrep₁.write_fault _ ha']
          exact ⟨_, c₁, _, CodeOp.perform_of_error (bind_of_error hfault), .write32Torn ha ha',
            hrep₁⟩
      · have hfault : CodeBuilder.write32 a v c = .error .pageFault c := by
          unfold CodeBuilder.write32
          rw [bind_of_error (h.write_fault _ ha)]
        exact ⟨_, c, f, CodeOp.perform_of_error (bind_of_error hfault), .write32Fault ha, h⟩

theorem run (ops : List CodeOp) (h : c.Represents options answer f) :
    ∃ rs c' f', c.performAll ops = some (rs, c') ∧
      FlatCode.Run answer options.maxCodePages f ops rs f' ∧ c'.Represents options answer f' := by
  induction ops generalizing c f with
  | nil => exact ⟨[], c, f, rfl, .nil, h⟩
  | cons op ops ih =>
      obtain ⟨r, c₁, f₁, hperform, hstep, hrep⟩ := h.step op
      obtain ⟨rs, c', f', hall, hrun, hrep'⟩ := ih hrep
      refine ⟨r :: rs, c', f', ?_, .cons hstep hrun, hrep'⟩
      simp [performAll, hperform, hall]

end Represents

/-- What a buffer shows of its flat code. `pc` is the address of the next word and
returns, so its assertions hold. The decoder fetches what the buffer reads. -/
structure Presents (c : CodeBuilder) (f : FlatCode) : Prop where
  pc : CodeBuilder.pc c = .ok (addrOf f.length) c
  pc_page : (addrOf f.length).page = f.length / 256
  pc_offset : (addrOf f.length).offset = f.length % 256
  allocated : ∀ i < f.length, f.Allocated (addrOf i)
  words : ∀ i w, f.words[i]? = some w → CodeBuilder.read (addrOf i) c = .ok w c
  ne_sentinel : ∀ a, f.Allocated a ∨ a = addrOf f.length → a ≠ JumpTarget.sentinel
  fetch : ∀ a, f.Allocated a →
    CodeBuilder.read a c = .ok (f.word a.toNat) c ∧
      IrReader.read c.pages a = .ok (f.word a.toNat) (a + 1)
  fetch32 : ∀ a, f.Allocated a → f.Allocated (a + 1) →
    CodeBuilder.read32 a c = .ok (f.read32 a) c ∧
      IrReader.readU32 c.pages a = .ok (f.read32 a) (a + 1 + 1)
  fetch_write32 : ∀ a v, f.Allocated a → f.Allocated (a + 1) →
    ∃ c', CodeBuilder.write32 a v c = .ok () c' ∧
      IrReader.readU32 c'.pages a = .ok v (a + 1 + 1)

theorem Represents.presents (h : c.Represents options answer f) : c.Presents f := by
  have hsize := c.size_lt
  have hlen : f.length < 2 ^ 32 - 1 := h.length ▸ hsize
  have hinside : ∀ i < f.length, f.Allocated (addrOf i) := by
    intro i hi
    rw [h.allocated]
    exact addrOf_page_lt (h.length ▸ hi)
  refine ⟨?_, addrOf_page (by omega), addrOf_offset (by omega), hinside, ?_, ?_, ?_, ?_, ?_⟩
  · rw [← h.length]
    exact c.pc_apply
  · intro i w hw
    have hi : i < f.length := by
      obtain ⟨hlt, -⟩ := List.getElem?_eq_some_iff.1 hw
      rwa [FlatCode.length_words] at hlt
    rw [FlatCode.getElem?_words hi, Option.some.injEq] at hw
    rw [h.read (hinside i hi), toNat_addrOf (by omega), hw]
  · rintro a (ha | rfl)
    · rintro rfl
      have hpages := c.length_pages_lt
      have hlt := (h.allocated _).1 ha
      have hpage : JumpTarget.sentinel.page = 2 ^ 24 - 1 := by decide
      have hcap := Nat.le_trans c.pages_le (Nat.le_pred_of_lt c.maxCodePages_lt)
      have hmax : maxAddressableCodePages = 2 ^ 24 := rfl
      omega
    · exact addrOf_ne_sentinel hlen
  · exact fun a ha => ⟨h.read ha, h.fetch ha⟩
  · exact fun a ha ha' => ⟨h.read32 ha ha', h.fetch32 ha ha'⟩
  · intro a v ha ha'
    obtain ⟨c', hwrite, hrep⟩ := h.write32 v ha ha'
    refine ⟨c', hwrite, ?_⟩
    rw [hrep.fetch32 ha ha', FlatCode.read32_write32]

end CodeBuilder

/-- From the empty buffer, every sequence of operations replies as on the flat code,
with whatever pages the allocator refuses, and the buffer shows the flat code. -/
theorem codeBuffer_refines {options : CompilerOptions} {heap : Heap} {c₀ : CodeBuilder}
    (h : CodeBuilder.new options heap = .ok c₀) (ops : List CodeOp) :
    ∃ replies c f, c₀.performAll ops = some (replies, c) ∧
      FlatCode.Run heap.answer options.maxCodePages (.empty heap.requests) ops replies f ∧
      c.Presents f ∧ f.length ≤ 256 * options.maxCodePages := by
  obtain ⟨replies, c, f, hall, hrun, hrep⟩ := (CodeBuilder.Represents.new h).run ops
  refine ⟨replies, c, f, hall, hrun, hrep.presents, ?_⟩
  have hle := c.size_le
  have hcap := c.pages_le
  rw [hrep.options] at hcap
  rw [← hrep.length]
  omega

/-- Two pages of code of which the allocator refuses the second one. -/
theorem codeBuffer_refines_refused :
    ∃ c₀, CodeBuilder.new ⟨true, none, 2⟩
      ⟨fun n _ => if n = 1 then some .outOfMemory else none, 0⟩ =
        .ok c₀ ∧
      ∃ replies c f, c₀.performAll (List.replicate 257 (.push 1)) = some (replies, c) ∧
        FlatCode.Run (fun n _ => if n = 1 then some .outOfMemory else none) 2 (.empty 0)
          (List.replicate 257 (.push 1)) replies f ∧
        c.Presents f ∧ f.length ≤ 512 :=
  ⟨_, rfl, @codeBuffer_refines ⟨true, none, 2⟩ _ _ rfl (List.replicate 257 (.push 1))⟩

end SpaceWasm
