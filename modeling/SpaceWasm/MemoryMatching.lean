import SpaceWasm.Resolution
import SpaceWasm.Session

/-!
# Matching the type of an imported memory

The external type of a memory has its current size as its minimum. The linker compares
the declared type instead, whose minimum is the size that the memory started with: a
memory that has grown is refused to an import that asks for what it has grown to.
-/

namespace SpaceWasm

open Fallible

/-- The size in pages. -/
def Memory.pages (m : Memory) : ℕ := m.len / m.ty.pageSize.size

/-- The handle of the memory that is exported under a name, by its owner or by a module
that imports it. -/
def Store.exportedHandle? (s : Store) (moduleName name : Name) : Option MemRef :=
  match s.findHost HostModule.memory HostMemory.name moduleName name with
  | some (_, _, symbol) => some symbol.value
  | none =>
      match s.findExport moduleName name with
      | some (_, module, .mem i) => if i = 0 then module.memory.bind s.memoryOf? else none
      | _ => none

def Store.exportedMemory? (s : Store) (moduleName name : Name) : Option Memory :=
  (s.exportedHandle? moduleName name).bind fun mem => s.memories[mem]?

/-- The bounds of a memory's growth are within those of an import. -/
def MemType.maxMatches (ty expected : MemType) : Prop :=
  ∀ max, expected.maxPages = some max → ∃ declared, ty.maxPages = some declared ∧ declared ≤ max

/-- A memory is of an expected type: external typing. -/
structure Memory.HasType (m : Memory) (expected : MemType) : Prop where
  pageSize : m.ty.pageSize = expected.pageSize
  min : expected.initialPages ≤ m.pages
  max : m.ty.maxMatches expected

/-- The linker accepts an import. -/
def Store.LinksMemory (s : Store) (moduleName name : Name) (expected : MemType) : Prop :=
  ∃ i, s.linkMemory moduleName name expected () = .ok i ()

theorem MemType.matches_iff (ty expected : MemType) :
    ty.matches expected = true ↔ expected.initialPages ≤ ty.initialPages ∧
      ty.maxMatches expected ∧ ty.pageSize = expected.pageSize := by
  unfold MemType.matches Limit.matches MemType.maxMatches
  cases ty.maxPages <;> cases expected.maxPages <;> simp [and_assoc]

section Linker

variable {s : Store} {moduleName name : Name} {expected : MemType}

theorem Store.checkMemory_ok_iff {mem : MemRef} {i : Import} :
    (∃ j, s.checkMemory mem expected i () = .ok j ()) ↔
      ∃ m, s.memories[mem]? = some m ∧ m.ty.matches expected = true := by
  constructor
  · rintro ⟨j, h⟩
    obtain ⟨ty, hty, hmatch, -⟩ := Store.checkMemory_eq_ok.1 h
    obtain ⟨m, hm, rfl⟩ := Option.map_eq_some_iff.1 hty
    exact ⟨m, hm, hmatch⟩
  · rintro ⟨m, hm, hmatch⟩
    exact ⟨i, Store.checkMemory_eq_ok.2 ⟨m.ty, by rw [Store.memType?, hm]; rfl, hmatch, rfl⟩⟩

theorem Store.checkMemory_bind_iff {o : Option MemRef} {i : Import} :
    (∃ j, (unwrap o >>= fun mem => s.checkMemory mem expected i) () = .ok j ()) ↔
      ∃ mem m, o = some mem ∧ s.memories[mem]? = some m ∧ m.ty.matches expected = true := by
  cases o with
  | none => exact iff_of_false (fun ⟨_, h⟩ => nomatch h) fun ⟨_, _, h, _⟩ => nomatch h
  | some mem => simp [Store.checkMemory_ok_iff]

theorem Store.linksMemory_handle :
    s.LinksMemory moduleName name expected ↔ ∃ mem m, s.exportedHandle? moduleName name = some mem ∧
      s.memories[mem]? = some m ∧ m.ty.matches expected = true := by
  unfold Store.LinksMemory Store.linkMemory Store.exportedHandle?
  cases hhost : s.findHost HostModule.memory HostMemory.name moduleName name with
  | some p => simp [Store.checkMemory_ok_iff]
  | none =>
      cases hexport : s.findExport moduleName name with
      | none => simp
      | some p =>
          obtain ⟨mi, em, d⟩ := p
          cases d with
          | func | table | global => simp
          | mem x =>
              by_cases hx : x = 0
              · simp only [hx, lt_irrefl, if_false, if_true]
                cases em.memory with
                | none => simp
                | some kind =>
                    cases kind with
                    | owned mem => simp [Store.checkMemory_ok_iff, Store.memoryOf?]
                    | import_ | importHost => exact Store.checkMemory_bind_iff
              · simp [hx, Nat.pos_of_ne_zero hx]

/-- The linker compares the declared type of the exported memory. -/
theorem Store.linksMemory_iff :
    s.LinksMemory moduleName name expected ↔ ∃ m, s.exportedMemory? moduleName name = some m ∧
      m.ty.matches expected = true := by
  rw [Store.linksMemory_handle, Store.exportedMemory?]
  constructor
  · rintro ⟨mem, m, hmem, hm, hmatch⟩
    exact ⟨m, Option.bind_eq_some_iff.2 ⟨mem, hmem, hm⟩, hmatch⟩
  · rintro ⟨m, hm, hmatch⟩
    obtain ⟨mem, hmem, hm⟩ := Option.bind_eq_some_iff.1 hm
    exact ⟨mem, m, hmem, hm, hmatch⟩

end Linker

/-- A memory with its initial pages is not smaller than its declared minimum. -/
theorem Memory.initialPages_le {m : Memory} (h : Memory.initialSize m.ty ≤ m.len) :
    m.ty.initialPages ≤ m.pages := by
  have hpos : 0 < m.ty.pageSize.size := by
    cases m.ty.pageSize <;> decide
  exact (Nat.le_div_iff_mul_le hpos).2 h

/-- In every session the linker decides about the import of an exported memory as its
external type requires, unless the import asks for more than the memory started with
and no more than it has grown to. -/
theorem Session.memoryMatching_exact {η : Type} {setup : HostSetup} {floats : FloatOps}
    {host : HostEnv η} {s : Session η} (hbuilt : setup.Built)
    (hs : s.Reachable setup floats host) {moduleName name : Name} {m : Memory}
    (hm : s.engine.store.exportedMemory? moduleName name = some m) (expected : MemType) :
    (s.engine.store.LinksMemory moduleName name expected ↔ m.HasType expected) ↔
      ¬(m.ty.pageSize = expected.pageSize ∧ m.ty.maxMatches expected ∧
        m.ty.initialPages < expected.initialPages ∧ expected.initialPages ≤ m.pages) := by
  have hle : m.ty.initialPages ≤ m.pages := by
    obtain ⟨mem, -, hget⟩ := Option.bind_eq_some_iff.1 hm
    exact m.initialPages_le ((hs.sound hbuilt).memories.covers m (List.mem_of_getElem? hget))
  have hlinks : s.engine.store.LinksMemory moduleName name expected ↔
      expected.initialPages ≤ m.ty.initialPages ∧ m.ty.maxMatches expected ∧
        m.ty.pageSize = expected.pageSize := by
    rw [Store.linksMemory_iff, hm, ← MemType.matches_iff]
    simp
  rw [hlinks]
  constructor
  · rintro h ⟨hpage, hmax, hlt, hmin⟩
    exact absurd (h.2 ⟨hpage, hmin, hmax⟩).1 (Nat.not_le.2 hlt)
  · intro h
    constructor
    · rintro ⟨hmin, hmax, hpage⟩
      exact ⟨hpage, Nat.le_trans hmin hle, hmax⟩
    · rintro ⟨hpage, hmin, hmax⟩
      refine ⟨?_, hmax, hpage⟩
      by_contra hlt
      exact h ⟨hpage, hmax, Nat.lt_of_not_le hlt, hmin⟩

/-! ### A memory that has grown -/

/-- A module with an exported memory of one byte and a function that grows it by one. -/
def growing : List U8 :=
  [0x00, 0x61, 0x73, 0x6D, 0x01, 0x00, 0x00, 0x00, 0x01, 0x04, 0x01, 0x60, 0x00, 0x00, 0x03, 0x02,
    0x01, 0x00, 0x05, 0x04, 0x01, 0x08, 0x01, 0x00, 0x07, 0x05, 0x01, 0x01, 0x6D, 0x02, 0x00,
    0x0A, 0x09, 0x01, 0x07, 0x00, 0x41, 0x01, 0x40, 0x00, 0x1A, 0x0B]

/-- The session after a load of the module and a call of its function. -/
def grownSession? : Option (Session Unit) := emptySession.call? [0x61] growing 10

theorem grownSession?_reachable {s : Session Unit} (h : grownSession? = some s) :
    s.Reachable emptyHost .none .quiet := emptySession_reachable.call? h

/-- The type of an import that asks for two bytes. -/
def twoBytes : MemType := ⟨2, none, .one⟩

theorem grownSession?_memory : ∃ s m, grownSession? = some s ∧
    s.engine.store.exportedMemory? [0x61] [0x6D] = some m ∧ m.len = 2 ∧ m.ty = ⟨1, none, .one⟩ := by
  have hrun : (grownSession?.bind fun s =>
      (s.engine.store.exportedMemory? [0x61] [0x6D]).map fun m => (m.len, m.ty)) =
      some (2, ⟨1, none, .one⟩) := by decide +kernel
  obtain ⟨s, hs, h⟩ := Option.bind_eq_some_iff.1 hrun
  obtain ⟨m, hm, hpair⟩ := Option.map_eq_some_iff.1 h
  obtain ⟨hlen, hty⟩ := Prod.mk.inj hpair
  exact ⟨s, m, hs, hm, hlen, hty⟩

theorem Session.memoryMatching_grown : ∃ s m, grownSession? = some s ∧
    s.engine.store.exportedMemory? [0x61] [0x6D] = some m ∧
    ((s.engine.store.LinksMemory [0x61] [0x6D] ⟨1, none, .one⟩ ↔ m.HasType ⟨1, none, .one⟩) ↔
      ¬(m.ty.pageSize = .one ∧ m.ty.maxMatches ⟨1, none, .one⟩ ∧ m.ty.initialPages < 1 ∧
        1 ≤ m.pages)) := by
  obtain ⟨s, m, hs, hm, -⟩ := grownSession?_memory
  exact ⟨s, m, hs, hm,
    Session.memoryMatching_exact emptyHost_built (grownSession?_reachable hs) hm _⟩

/-- An import of two bytes is refused the memory of one byte that has grown to two. -/
theorem Session.grownMemory_refused : ∃ s m, grownSession? = some s ∧
    s.Reachable emptyHost .none .quiet ∧
    s.engine.store.exportedMemory? [0x61] [0x6D] = some m ∧ m.HasType twoBytes ∧
    ¬s.engine.store.LinksMemory [0x61] [0x6D] twoBytes := by
  obtain ⟨s, m, hs, hm, hlen, hty⟩ := grownSession?_memory
  refine ⟨s, m, hs, grownSession?_reachable hs, hm, ⟨?_, ?_, ?_⟩, ?_⟩
  · rw [hty]
    rfl
  · rw [Memory.pages, hlen, hty]
    decide
  · intro max hmax
    cases hmax
  · rw [Store.linksMemory_iff, hm]
    rintro ⟨m', ⟨⟩, hmatch⟩
    rw [MemType.matches_iff, hty] at hmatch
    exact absurd hmatch.1 (by decide)

end SpaceWasm
