import SpaceWasm.Containment
import SpaceWasm.Lib.EventLog

/-!
# What element segments write

The element segments of a module put functions into a table, one entry after the other, up
to where the load stops. The tables after a load, whether it succeeds or fails, are those
before it with these writes.
-/

namespace SpaceWasm

open Fallible

variable {env : LoadEnv} {α β : Type}

/-! ### Writes -/

/-- A value for entry `index` of a table. -/
structure TableWrite (α : Type) where
  table : TableRef
  index : ℕ
  value : α

def TableWrite.map (f : α → β) (w : TableWrite α) : TableWrite β := ⟨w.table, w.index, f w.value⟩

/-- The write to an entry that comes last. -/
def lastWrite (ws : List (TableWrite α)) (table : TableRef) (k : ℕ) : Option α :=
  (ws.reverse.find? fun w => decide (w.table = table ∧ w.index = k)).map TableWrite.value

@[simp] theorem lastWrite_append (ws ws' : List (TableWrite α)) (table : TableRef) (k : ℕ) :
    lastWrite (ws ++ ws') table k = (lastWrite ws' table k).or (lastWrite ws table k) := by
  rw [lastWrite, List.reverse_append, List.find?_append, lastWrite, lastWrite]
  cases ws'.reverse.find? _ <;> rfl

theorem lastWrite_singleton (w : TableWrite α) (table : TableRef) (k : ℕ) :
    lastWrite [w] table k = if w.table = table ∧ w.index = k then some w.value else none := by
  rw [lastWrite, List.reverse_singleton, List.find?_singleton]
  by_cases h : w.table = table ∧ w.index = k
  · rw [if_pos h, if_pos (decide_eq_true h), Option.map_some]
  · rw [if_neg h, if_neg (mt of_decide_eq_true h), Option.map_none]

theorem lastWrite_map (f : α → β) (ws : List (TableWrite α)) (table : TableRef) (k : ℕ) :
    lastWrite (ws.map (TableWrite.map f)) table k = (lastWrite ws table k).map f := by
  rw [lastWrite, lastWrite, ← List.map_reverse, List.find?_map, Option.map_map, Option.map_map]
  rfl

theorem lastWrite_mem {ws : List (TableWrite α)} {table : TableRef} {k : ℕ} {a : α}
    (h : lastWrite ws table k = some a) : ⟨table, k, a⟩ ∈ ws := by
  obtain ⟨⟨table', k', a'⟩, hfind, rfl⟩ := Option.map_eq_some_iff.1 h
  obtain ⟨rfl, rfl⟩ := of_decide_eq_true (List.find?_some hfind :)
  exact List.mem_reverse.1 (List.mem_of_find?_eq_some hfind)

/-- An entry of a table. -/
def Store.element? (s : Store) (table : TableRef) (k : ℕ) : Option TableElement :=
  s.tables[table]?.bind (·[k]?)

/-- The tables are those of `base`, and new ones, with the functions that have been written by
a load over `base`. -/
structure Store.Written (base : Store) (ws : List (TableWrite Ref)) (s : Store) : Prop where
  modules : s.modules = base.modules
  hostModules : s.hostModules = base.hostModules
  tables_le : base.tables.length ≤ s.tables.length
  covered : ∀ w ∈ ws, (s.element? w.table w.index).isSome
  entry : ∀ table k x, s.element? table k = some x → ∃ y,
    (base.element? table k = some y ∨ base.tables.length ≤ table ∧ y = .uninitialized) ∧
      x = (lastWrite ws table k).elim y (tableElementOf base.modules.length)

namespace Store.Written

variable {base s s' : Store} {ws : List (TableWrite Ref)}

theorem refl (base : Store) : base.Written [] base :=
  ⟨rfl, rfl, Nat.le_refl _, nofun, fun _ _ x hx => ⟨x, .inl hx, rfl⟩⟩

/-- A step that writes to no table. -/
theorem evolves {W : Footprint} (h : base.Written ws s) (hs : s.Evolves W s')
    (hW : ∀ table k x, ¬W.table table k x) : base.Written ws s' := by
  have hsame : ∀ table k, table < s.tables.length → s'.element? table k = s.element? table k := by
    intro table k hlt
    obtain ⟨t', ht', hentries⟩ := hs.table table _ (List.getElem?_eq_getElem hlt)
    rw [element?, element?, ht', List.getElem?_eq_getElem hlt]
    exact (hentries.entry k).resolve_right fun ⟨x, _, hx⟩ => hW _ _ _ hx
  have hlt : ∀ table k, (s.element? table k).isSome → table < s.tables.length := by
    intro table k hsome
    obtain ⟨x, hx⟩ := Option.isSome_iff_exists.1 hsome
    obtain ⟨t, ht, -⟩ := Option.bind_eq_some_iff.1 hx
    exact (List.getElem?_eq_some_iff.1 ht).1
  refine ⟨hs.modules.trans h.modules, hs.hostModules.trans h.hostModules,
    Nat.le_trans h.tables_le hs.tables_le, fun w hw => ?_, fun table k x hx => ?_⟩
  · rw [hsame _ _ (hlt _ _ (h.covered w hw))]
    exact h.covered w hw
  · by_cases htable : table < s.tables.length
    · rw [hsame _ _ htable] at hx
      exact h.entry table k x hx
    · -- a table that the step has made
      obtain ⟨t', ht', hk⟩ := Option.bind_eq_some_iff.1 hx
      have hle := Nat.le_of_not_lt htable
      have hempty := (hs.fresh table t' hle ht' k x hk).resolve_right (hW _ _ _)
      refine ⟨.uninitialized, .inr ⟨Nat.le_trans h.tables_le hle, rfl⟩, ?_⟩
      cases hlast : lastWrite ws table k with
      | none => exact hempty
      | some r => exact absurd (hlt _ _ (h.covered _ (lastWrite_mem hlast))) htable

/-- A function is written to an entry. -/
theorem set (h : base.Written ws s) {table : TableRef} {entries : List TableElement} {index : ℕ}
    (hentries : s.tables[table]? = some entries) (hindex : index < entries.length) (r : Ref) :
    base.Written (ws ++ [⟨table, index, r⟩])
      (s.setTable table (entries.set index (tableElementOf s.modules.length r))) := by
  have hentry : ∀ table' k, (s.setTable table
      (entries.set index (tableElementOf s.modules.length r))).element? table' k =
        if table = table' ∧ index = k then some (tableElementOf s.modules.length r)
        else s.element? table' k := by
    intro table' k
    rw [element?, element?, setTable, List.getElem?_set]
    by_cases htable : table = table'
    · subst htable
      have hlt := (List.getElem?_eq_some_iff.1 hentries).1
      rw [if_pos rfl, if_pos hlt, hentries, Option.bind_some, Option.bind_some, List.getElem?_set]
      by_cases hk : index = k
      · rw [if_pos hk, if_pos hindex, if_pos ⟨rfl, hk⟩]
      · rw [if_neg hk, if_neg fun h => hk h.2]
    · rw [if_neg htable, if_neg fun h => htable h.1]
  refine ⟨h.modules, h.hostModules, ?_, fun w hw => ?_, fun table' k x hx => ?_⟩
  · rw [setTable, List.length_set]
    exact h.tables_le
  · rw [hentry]
    split
    · rfl
    · next hne =>
      rcases List.mem_append.1 hw with hw | hw
      · exact h.covered w hw
      · obtain rfl := List.mem_singleton.1 hw
        exact absurd ⟨rfl, rfl⟩ hne
  · rw [hentry] at hx
    rw [lastWrite_append, lastWrite_singleton]
    split at hx
    · next heq =>
      have hold : (s.element? table' k).isSome := by
        rw [← heq.1, ← heq.2, element?, hentries, Option.bind_some, List.getElem?_eq_getElem hindex]
        rfl
      obtain ⟨old, hold⟩ := Option.isSome_iff_exists.1 hold
      obtain ⟨y, hy, -⟩ := h.entry table' k old hold
      refine ⟨y, hy, ?_⟩
      rw [if_pos heq, ← h.modules]
      exact (Option.some.inj hx).symm
    · next hne =>
      rw [if_neg hne]
      exact h.entry table' k x hx

end Store.Written

/-! ### What a load writes -/

/-- The table of the module. -/
def LoadState.table? (s : LoadState) : Option TableRef := s.module.table.bind s.store.tableOf?

/-- The function whose index is read next. -/
def LoadState.named? (s : LoadState) : Option Ref :=
  (decoding Idx.read s).value?.bind s.module.getFuncRef

/-- That function, written to an entry of the table. -/
def LoadState.write? (s : LoadState) (index : ℕ) : Option (TableWrite Ref) :=
  s.table?.bind fun table => s.named?.map fun r => ⟨table, index, r⟩

/-- What a function of a segment writes. -/
def funcWrites (env : LoadEnv) (index : ℕ) (s : LoadState) : List (TableWrite Ref) :=
  (readElementFunc env index).andThen (fun _ _ => (s.write? index).toList) s

/-- What the functions of a segment write. -/
def segmentWrites (env : LoadEnv) : ℕ → ℕ → LoadState → List (TableWrite Ref)
  | 0, _, _ => []
  | n + 1, index, s => funcWrites env index s ++
      (readElementFunc env index).andThen (fun _ => segmentWrites env n (index + 1)) s

/-- What a segment writes. -/
def elementWrites (env : LoadEnv) : LoadState → List (TableWrite Ref) :=
  (readElementHead env).andThen fun p => segmentWrites env p.2.2 p.2.1

/-- What an element section writes. -/
def elementSectionWrites (env : LoadEnv) : LoadState → List (TableWrite Ref) :=
  (decoding readU32).andThen fun len =>
    iterateLog (readElement env) (elementWrites env) len.toNat

/-- What an element section of a size writes, which has to fit. -/
def bodyWrites (env : LoadEnv) : LoadState → List (TableWrite Ref) :=
  (decoding readU32).andThen fun size s =>
    if s.wasm.offset + size.toNat ≤ usizeMax ∧ s.wasm.offset + size.toNat ≤ s.wasm.limit then
      elementSectionWrites env (s.enter size.toNat)
    else []

/-- What the sections write. -/
def sectionWrites (env : LoadEnv) : ℕ → SectionKind → LoadState → List (TableWrite Ref)
  | 0, _ => fun _ => []
  | fuel + 1, last => (decoding SectionKind.read).andThen fun kind s =>
      match checkOrder last kind with
      | .error _ => []
      | .ok next => (if kind = .element then bodyWrites env s else []) ++
          (readSectionBody env kind).andThen (fun _ => sectionWrites env fuel next) s

/-- What a load writes to tables, from its first element segment on and up to where it
stops. -/
def LoadTarget.elementWrites (t : LoadTarget) (env : LoadEnv) (name : Name) (wasm : Reader) :
    List (TableWrite Ref) :=
  (readHeader name).andThen (fun _ s => sectionWrites env (s.wasm.input.length + 1) .custom s)
    (t.start name wasm)

/-! ### Segments -/

/-- The function exists, in the store or among the first `n` of the module that is loaded. -/
def Ref.Exists (s : Store) (n : ℕ) : Ref → Prop
  | .module i => i.toNat < n
  | .host .. => True
  | .extern_ q i => (s.func? ⟨q, i⟩).isSome

/-- A load over `base` has written `ws`. -/
structure LoadState.Written (base : Store) (ws : List (TableWrite Ref)) (s : LoadState) :
    Prop where
  store : base.Written ws s.store
  exists_ : ∀ w ∈ ws, w.value.Exists base s.module.functions.length

variable {base : Store} {s u : LoadState} {ws : List (TableWrite Ref)}

theorem LoadState.Written.congr (h : s.Written base ws) (hstore : u.store = s.store)
    (hmodule : u.module = s.module) : u.Written base ws := by
  obtain ⟨hwritten, hexists⟩ := h
  rw [← hstore] at hwritten
  rw [← hmodule] at hexists
  exact ⟨hwritten, hexists⟩

theorem Quiet.records {x : LoadM α} {P : α → Prop} (h : Quiet s x P) :
    Records (LoadState.Written base) x [] s :=
  .nothing fun ws r t hs ht => by
    have h := h s (.refl s)
    cases hr : x s with
    | ok a v =>
        rw [hr] at h ht
        cases ht
        exact hs.congr h.1.store h.1.module
    | error e v =>
        rw [hr] at h ht
        cases ht
        exact hs.congr h.store h.module
    | panic | diverge =>
        rw [hr] at ht
        cases ht

/-- A function that a module knows exists. -/
theorem LoadState.Linked.exists_ (h : s.Linked) {x : Idx} {r : Ref}
    (hr : s.module.getFuncRef x = some r) : r.Exists s.store s.module.functions.length := by
  obtain ⟨ty, hty⟩ := Option.isSome_iff_exists.1 (h.module.linked.funcs x r hr)
  cases r with
  | module index =>
      obtain ⟨f, hf, -⟩ := Option.bind_eq_some_iff.1 hty
      exact (List.getElem?_eq_some_iff.1 hf).1
  | host => trivial
  | extern_ q index =>
      obtain ⟨m, hm, hty⟩ := Option.bind_eq_some_iff.1 hty
      obtain ⟨f, hf, -⟩ := Option.bind_eq_some_iff.1 hty
      change (s.store.func? ⟨q, index⟩).isSome
      simp only [Store.func?, hm, Option.bind_eq_bind, Option.bind_some, hf, Option.isSome_some]

/-- A quiet step of a computation that changes nothing unless it returns. -/
theorem Quiet.bind_guarded {M : α → Prop} {x : LoadM α} {f : α → LoadM β}
    {Q : β → LoadState → Prop} (hx : Quiet s x M)
    (hf : ∀ a, M a → Guarded s.Linked s.Continues (f a) Q fun _ => s.Continues) :
    Guarded s.Linked s.Continues (x >>= f) Q fun _ => s.Continues :=
  Guarded.bind hx fun a u hu => hf a hu.2 u hu.1

/-- A function of a segment is written, or nothing has changed. -/
theorem readElementFunc_writes (env : LoadEnv) (index : ℕ) (s : LoadState) :
    Guarded s.Linked (fun u => u = s) (readElementFunc env index)
      (fun _ u => ∃ x r table entries, s.module.getFuncRef x = some r ∧
        s.write? index = some ⟨table, index, r⟩ ∧ s.store.tables[table]? = some entries ∧
        index < entries.length ∧ u.module = s.module ∧ u.store = s.store.setTable table
          (entries.set index (tableElementOf s.store.modules.length r)))
      fun _ => s.Continues := by
  refine Guarded.bind_run (M := fun _ => s.Continues) ((quiet_decoding decoder_idx).weaken id
    (fun _ h => h ▸ .refl s) (fun _ _ h => h.1) fun _ _ h => h) fun idx t hidx ht => ?_
  rintro t rfl
  rw [bind_of_ok (get_apply t), ht.module, ht.store]
  refine Quiet.bind_guarded (.okOr _ fun r hr => hr) (fun r hr =>
    (quiet_getTableMut env).bind_guarded fun table? htable => ?_) t ht
  cases table? with
  | none => exact Guarded.throw fun _ h => h
  | some table =>
      obtain ⟨kind, hkind, href⟩ := htable table rfl
      have hwrite : s.write? index = some ⟨table, index, r⟩ := by
        rw [LoadState.write?, LoadState.table?, hkind, Option.bind_some, href, Option.bind_some,
          LoadState.named?, hidx, Outcome.value?, Option.bind_some, hr, Option.map_some]
      refine Quiet.bind_guarded (.unwrap (P := fun entries => s.store.tables[table]? = some entries)
        (fun h => h.table hkind href) fun _ h => h) fun entries hentries => ?_
      refine Guarded.ite (fun _ => Guarded.throw fun _ h => h) fun hlt => ?_
      intro u hu
      refine ⟨idx, r, table, entries, hr, hwrite, hentries, Nat.lt_of_not_le hlt, hu.module, ?_⟩
      rw [← hu.store]

theorem funcWrites_records (hs : s.Linked) (hmodules : s.store.modules = base.modules)
    (index : ℕ) :
    Records (LoadState.Written base) (readElementFunc env index) (funcWrites env index s) s := by
  intro ws r t hws ht
  have hwrites := readElementFunc_writes env index s s rfl
  cases hr : readElementFunc env index s with
  | ok a u =>
      rw [hr] at hwrites ht
      cases ht
      obtain ⟨x, r, table, entries, hx, hwrite, hentries, hindex, hmodule, hstore⟩ := hwrites
      rw [funcWrites, andThen_of_ok hr, hwrite]
      have hset := hws.store.set hentries hindex r
      rw [← hstore] at hset
      refine ⟨hset, fun w hw => ?_⟩
      rw [hmodule]
      rcases List.mem_append.1 hw with hw | hw
      · exact hws.exists_ w hw
      · obtain rfl := List.mem_singleton.1 hw
        have hexists := hs.exists_ hx
        cases r with
        | module | host => exact hexists
        | extern_ q i =>
            rw [Ref.Exists, Store.func?, Store.module?, hmodules] at hexists
            exact hexists
  | error e u =>
      rw [hr] at hwrites ht
      cases ht
      rw [funcWrites, andThen, hr, List.append_nil]
      exact hws.congr hwrites.store hwrites.module
  | panic | diverge =>
      rw [hr] at ht
      cases ht

/-- A state of an element section of a load over `base`. -/
structure LoadState.Over (base : Store) (s : LoadState) : Prop where
  linked : s.Linked
  modules : s.store.modules = base.modules

theorem LoadState.Over.within (hs : s.Over base) {W : Footprint} (h : s.Within W .element u) :
    u.Over base :=
  ⟨h.linked ⟨hs.linked, nofun⟩, h.store.modules.trans hs.modules⟩

theorem LoadState.Over.continues (hs : s.Over base) (h : s.Continues u) : u.Over base :=
  hs.within (h.within (W := .all))

theorem segmentWrites_records (hs : s.Over base) (n index : ℕ) :
    Records (LoadState.Written base) (readElementFuncs env n index)
      (segmentWrites env n index s) s := by
  induction n generalizing index s with
  | zero => exact Quiet.records (P := fun _ => True) (.pure trivial)
  | succ n ih =>
      refine .bind (funcWrites_records hs.linked hs.modules index) fun _ t ht => ih ?_ _
      exact hs.within (Guarded.ok (readElementFunc_frame (W := .all) env
        fun _ _ _ _ _ _ _ => trivial) (.refl s) ht).1

theorem elementWrites_records (hs : s.Over base) :
    Records (LoadState.Written base) (readElement env) (elementWrites env s) s := by
  rw [readElement_eq]
  refine .bind_nothing (quiet_readElementHead env).records fun p t ht => ?_
  exact segmentWrites_records
    (hs.continues (Guarded.ok (quiet_readElementHead env) (.refl s) ht).1) _ _

theorem elementSectionWrites_records (hs : s.Over base) :
    Records (LoadState.Written base) (readElementSection env) (elementSectionWrites env s) s := by
  refine .bind_nothing (quiet_decoding decoder_readU32).records fun len t ht => ?_
  have ht := hs.continues (Guarded.ok (quiet_decoding decoder_readU32) (.refl s) ht).1
  refine .iterate (J := LoadState.Over base) (fun _ h => elementWrites_records h)
    (fun v w hv hw => ?_) _ ht
  exact hv.within (Guarded.ok (readElement_frame (W := .all) env
    fun _ _ _ _ _ _ _ _ _ _ _ => trivial) rfl hw).1

/-! ### Sections -/

/-- A footprint without tables. -/
def Footprint.noTable : Footprint := ⟨fun _ _ _ => False, fun _ _ => True⟩

/-- A section other than an element section writes to no table. -/
theorem readSectionBody_writes_nothing {last kind next : SectionKind} (hs : s.OnTrack last)
    (horder : checkOrder last kind = .ok next) (hkind : kind ≠ .element) :
    Records (LoadState.Written base) (readSectionBody env kind) [] s := by
  refine .nothing fun ws r t hws ht => ?_
  have hframe : Guarded (s.Ready kind) (fun u => u = s) (readSectionBody env kind)
      (fun _ => s.Within .noTable kind) fun _ => s.Within .noTable kind :=
    readSectionBody_frame env fun _ _ _ =>
      ⟨fun h => absurd h hkind, fun _ _ _ _ _ _ _ _ _ _ _ _ => trivial⟩
  have hwithin : s.Within .noTable kind t := by
    cases hr : readSectionBody env kind s <;> rw [hr] at ht <;> cases ht
    · exact hframe.ok rfl hr
    · exact hframe.error rfl hr
  have hle : s.module.functions.length ≤ t.module.functions.length := by
    by_cases hfunction : kind = .function
    · have hnil : s.module.functions = [] := by
        rcases checkOrder_eq_ok.1 horder with ⟨rfl, -⟩ | ⟨-, hlt, -⟩
        · cases hfunction
        · exact hs.fresh (hfunction ▸ hlt)
      rw [hnil]
      exact Nat.zero_le _
    · have hdecls := congrArg List.length (hwithin.module.decls hfunction)
      rw [List.length_map, List.length_map] at hdecls
      exact Nat.le_of_eq hdecls.symm
  refine ⟨hws.store.evolves hwithin.store fun _ _ _ h => h, fun w hw => ?_⟩
  have hexists := hws.exists_ w hw
  cases hvalue : w.value with
  | module i =>
      rw [hvalue] at hexists
      exact Nat.lt_of_lt_of_le hexists hle
  | host => trivial
  | extern_ q i =>
      rw [hvalue] at hexists
      exact hexists

theorem andThen_plain {x : LoadM α} (log : α → LoadState → List β) :
    (plain x).andThen log = x.andThen log := by
  funext s
  rw [andThen, andThen, plain, mapError]
  cases x s <;> rfl

theorem records_limited {x : DecodeModuleM Unit} {log : List (TableWrite Ref)} {size : ℕ}
    (h : Records (LoadState.Written base) x log (s.enter size)) :
    Records (LoadState.Written base) (withLimit LoadState.wasm
      (fun s wasm => { s with wasm := wasm }) ValidationError.toSectionDecodeError size x)
      (if s.wasm.offset + size ≤ usizeMax ∧ s.wasm.offset + size ≤ s.wasm.limit then log else [])
      s := by
  intro ws r t hws ht
  unfold withLimit at ht
  simp only at ht
  split
  · next hsize =>
    rw [if_pos hsize] at ht
    have h := h ws
    unfold LoadState.enter at h
    cases hr : x { s with wasm := { s.wasm with limit := s.wasm.offset + size } } with
    | ok a u =>
        rw [hr] at ht h
        cases ht
        exact (h (.ok a) u (hws.congr rfl rfl) rfl).congr rfl rfl
    | error e u =>
        rw [hr] at ht h
        cases ht
        exact (h (.error e) u (hws.congr rfl rfl) rfl).congr rfl rfl
    | panic | diverge =>
        rw [hr] at ht
        cases ht
  · next hsize =>
    rw [if_neg hsize] at ht
    cases ht
    rw [List.append_nil]
    exact hws

theorem bodyWrites_records (hs : s.Over base) :
    Records (LoadState.Written base) (readSectionBody env .element)
      (bodyWrites env s) s := by
  unfold readSectionBody bodyWrites
  rw [← andThen_plain]
  refine .bind_nothing (Quiet.records (quiet_decoding decoder_readU32)).mapError
    fun size t ht => ?_
  have ht := hs.continues (Guarded.ok (quiet_decoding decoder_readU32) (.refl s)
    (mapError_eq_ok.1 ht)).1
  have henter : (t.enter size.toNat).Over base :=
    ⟨⟨ht.linked.store, ht.linked.module⟩, ht.modules⟩
  refine .after (plain_offset_apply t) (.then_nothing (records_limited (.mapError
    (elementSectionWrites_records henter))) fun _ u _ => .after (plain_offset_apply u) ?_)
  exact .nothing fun ws r v hws hv => by
    split at hv <;> cases hv <;> exact hws

/-- The sections of a load write what they are said to write. -/
theorem sectionWrites_records {fuel : ℕ} {last : SectionKind} {seenCode : Bool}
    (hs : s.OnTrack last) (hmodules : s.store.modules = base.modules) :
    Records (LoadState.Written base) (readSections env fuel last seenCode)
      (sectionWrites env fuel last s) s := by
  induction fuel generalizing last seenCode s with
  | zero => exact fun _ _ _ _ ht => by cases ht
  | succ fuel ih =>
      intro ws r t hws ht
      have hquiet := (quiet_decoding decoder_sectionKind : Quiet s _ _) s (.refl s)
      unfold readSections at ht
      unfold sectionWrites
      cases hr : decoding SectionKind.read s with
      | error e u =>
          rw [hr] at ht hquiet
          rw [andThen, hr, List.append_nil]
          cases e <;> cases ht <;> exact hws.congr hquiet.store hquiet.module
      | panic | diverge =>
          rw [hr] at ht
          cases ht
      | ok kind u =>
          rw [hr] at ht hquiet
          rw [andThen_of_ok hr]
          simp only at ht ⊢
          have hu := hws.congr hquiet.1.store hquiet.1.module
          have htrack := hs.continues hquiet.1
          have hover : u.Over base := ⟨htrack.linked, (congrArg Store.modules hquiet.1.store).trans
            hmodules⟩
          cases horder : checkOrder last kind with
          | error e =>
              rw [horder] at ht
              cases ht
              rw [List.append_nil]
              exact hu
          | ok next =>
              rw [horder] at ht
              have hbody : Records (LoadState.Written base) (readSectionBody env kind)
                  (if kind = .element then bodyWrites env u else []) u := by
                split
                · next hkind =>
                  subst hkind
                  exact bodyWrites_records hover
                · next hkind => exact readSectionBody_writes_nothing htrack horder hkind
              refine Records.bind hbody (fun _ v hv => ih ?_ ?_) ws r t hu ht
              all_goals
                have hwithin := (readSectionBody_frame (W := .all) env fun _ _ _ =>
                  LoadState.sectionWrites_all env kind _).ok rfl hv
              · exact htrack.next horder hwithin
              · exact hwithin.store.modules.trans hover.modules

/-! ### Loads -/

theorem Module.read_records (env : LoadEnv) (name : Name) (wasm : Reader) {t : LoadTarget}
    (ht : t.store.Linked) :
    Records (LoadState.Written t.store) (Module.read env name) (t.elementWrites env name wasm)
      (t.start name wasm) := by
  rw [Module.read_eq]
  have hstart := LoadTarget.start_onTrack ht name wasm
  refine .bind_nothing (.nothing fun ws r u hws hu => ?_) fun _ s hs => ?_
  · have hcontinues : (t.start name wasm).Continues u := by
      cases hr : readHeader name (t.start name wasm) <;> rw [hr] at hu <;> cases hu
      · exact Guarded.ok (readHeader_frame name) rfl hr
      · exact Guarded.error (readHeader_frame name) rfl hr
    exact hws.congr hcontinues.store hcontinues.module
  · have hcontinues := Guarded.ok (readHeader_frame name) rfl hs
    refine .after (get_apply s) (.then_nothing (sectionWrites_records (hstart.continues hcontinues)
      (congrArg Store.modules hcontinues.store)) fun _ v _ => .after (get_apply v) ?_)
    exact .nothing fun ws r w hws hw => by
      split at hw <;> cases hw <;> exact hws

/-- A module that is loaded, and what has been written. -/
theorem Module.new_written {name : Name} {wasm : Reader} {t u : LoadTarget} {m : Module}
    (ht : t.store.Linked) (h : Module.new env name wasm t = .ok m u) :
    t.store.Written (t.elementWrites env name wasm) u.store ∧
      ∀ w ∈ t.elementWrites env name wasm, w.value.Exists t.store m.functions.length := by
  unfold Module.new at h
  have hrecords := Module.read_records env name wasm ht []
  have hframe : Guarded ((t.start name wasm).OnTrack .custom) (fun s => s = t.start name wasm)
      (Module.read env name)
      (fun m s => (t.start name wasm).Follows .all .custom s ∧ m = s.module)
      fun _ => (t.start name wasm).Follows .all .custom :=
    Module.read_frame env name fun _ _ => LoadState.loadWrites_all _ _ _
  unfold LoadTarget.start at hrecords hframe
  cases hr : Module.read env name ⟨wasm, t.store, t.code, Module.empty name⟩ with
  | ok m' v =>
      rw [hr] at h hrecords
      cases h
      obtain ⟨-, rfl⟩ := hframe.ok rfl hr
      obtain ⟨hstore, hexists⟩ := hrecords (.ok v.module) v ⟨.refl _, nofun⟩ rfl
      exact ⟨hstore, hexists⟩
  | error | panic | diverge =>
      rw [hr] at h
      cases h

theorem Module.new_failed {name : Name} {wasm : Reader} {t u : LoadTarget} {e : ParseError}
    (ht : t.store.Linked) (h : Module.new env name wasm t = .error e u) :
    t.store.Written (t.elementWrites env name wasm) u.store ∧
      ∀ w ∈ t.elementWrites env name wasm, ∃ n, w.value.Exists t.store n := by
  unfold Module.new at h
  have hrecords := Module.read_records env name wasm ht []
  unfold LoadTarget.start at hrecords
  cases hr : Module.read env name ⟨wasm, t.store, t.code, Module.empty name⟩ with
  | error e' v =>
      rw [hr] at h hrecords
      cases h
      obtain ⟨hstore, hexists⟩ := hrecords (.error e') v ⟨.refl _, nofun⟩ rfl
      exact ⟨hstore, fun w hw => ⟨_, hexists w hw⟩⟩
  | ok | panic | diverge =>
      rw [hr] at h
      cases h

/-- What a load that succeeds has written: every function exists. -/
theorem loadModule_written {name : Name} {wasm : Reader} {t u : LoadTarget} {q : ModuleRef}
    (ht : t.store.Linked) (h : loadModule env name wasm t = .ok q u) :
    ∃ m v, Module.new env name wasm t = .ok m ⟨v, u.code⟩ ∧ v.pushModule m = .ok (q, u.store) ∧
      t.store.Written (t.elementWrites env name wasm) v ∧
      ∀ w ∈ t.elementWrites env name wasm, w.value.Exists t.store m.functions.length := by
  obtain ⟨m, v, hnew, h⟩ := bind_eq_ok.1 h
  have hnew := mapError_eq_ok.1 hnew
  obtain ⟨hwritten, hexists⟩ := Module.new_written ht hnew
  rw [bind_of_ok (get_apply v)] at h
  cases hpush : v.store.pushModule m with
  | error e =>
      rw [hpush] at h
      cases h
  | ok p =>
      rw [hpush] at h
      cases h
      exact ⟨m, v.store, hnew, hpush, hwritten, hexists⟩

/-- What a load that fails has written. -/
theorem loadModule_failed {name : Name} {wasm : Reader} {t u : LoadTarget} {e : LoadError}
    (ht : t.store.Linked) (h : loadModule env name wasm t = .error e u) :
    t.store.Written (t.elementWrites env name wasm) u.store ∧
      ∀ w ∈ t.elementWrites env name wasm, ∃ n, w.value.Exists t.store n := by
  unfold loadModule at h
  rw [bind_apply] at h
  cases hnew : Module.new env name wasm t with
  | ok m v =>
      rw [mapError, hnew] at h
      obtain ⟨hwritten, hexists⟩ := Module.new_written ht hnew
      simp only at h
      rw [bind_of_ok (get_apply v)] at h
      cases hpush : v.store.pushModule m <;> rw [hpush] at h <;> cases h
      exact ⟨hwritten, fun w hw => ⟨_, hexists w hw⟩⟩
  | error e' v =>
      rw [mapError, hnew] at h
      cases h
      exact Module.new_failed ht hnew
  | panic | diverge =>
      rw [mapError, hnew] at h
      cases h

end SpaceWasm
