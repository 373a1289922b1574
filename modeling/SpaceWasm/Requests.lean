import SpaceWasm.LoadRun

/-!
# Requests for vectors

A vector is allocated with a capacity that a count in the input announces. `Script x`
says how a step of a load is put together of parts that ask the allocator for nothing,
counts, vectors and the other things that are allocated. It follows the definition of
the step, which is its index; `events` are the counts that a run reads in front of
vectors and the vectors that it asks for, in order, each with the number of bytes that
remain under the limit at that point.

`Obeys` is the rule for them: no vector is larger than what remains, and a larger
count is the last event of a run that fails with `vecTooLong`.
-/

namespace SpaceWasm

open Fallible

variable {ε ε' α β : Type}

/-! ### Limited reads -/

/-- `with_limit` accepts a limit so many bytes ahead. -/
def LoadState.Admits (s : LoadState) (n : ℕ) : Prop :=
  s.wasm.offset + n ≤ usizeMax ∧ s.wasm.offset + n ≤ s.wasm.limit

instance (s : LoadState) (n : ℕ) : Decidable (s.Admits n) := by
  unfold LoadState.Admits
  infer_instance

/-- `wasm.with_limit` at the level of a load. -/
def within (inject : ValidationError → ε) (n : ℕ) (x : Fallible ε LoadState α) :
    Fallible ε LoadState α :=
  withLimit LoadState.wasm (fun s wasm => { s with wasm := wasm }) inject n x

theorem limited_eq_within (n : ℕ) (x : LoadM α) : limited n x = within id n x := rfl

/-- The limit of `s` again. -/
def LoadState.leaving (s : LoadState) : Outcome ε LoadState α → Outcome ε LoadState α
  | .ok a t => .ok a (s.leave t)
  | .error e t => .error e (s.leave t)
  | .panic => .panic
  | .diverge => .diverge

theorem within_of_admits {inject : ValidationError → ε} {n : ℕ} {x : Fallible ε LoadState α}
    {s : LoadState} (h : s.Admits n) : within inject n x s = s.leaving (x (s.enter n)) := by
  have hand : s.wasm.offset + n ≤ usizeMax ∧ s.wasm.offset + n ≤ s.wasm.limit := h
  unfold within withLimit LoadState.enter
  simp only
  rw [if_pos hand]
  generalize x _ = o
  cases o <;> rfl

theorem within_of_not_admits {inject : ValidationError → ε} {n : ℕ}
    {x : Fallible ε LoadState α} {s : LoadState} (h : ¬s.Admits n) :
    within inject n x s = .error (inject .malformedSectionSize) s := by
  have hand : ¬(s.wasm.offset + n ≤ usizeMax ∧ s.wasm.offset + n ≤ s.wasm.limit) := h
  exact if_neg hand

/-! ### Steps without requests -/

/-- The allocator is asked for nothing: its requests are as many as before. -/
def Silent (x : Fallible ε LoadState α) : Prop :=
  ∀ s, match x s with
    | .ok _ t => t.code.heap = s.code.heap
    | .error _ t => t.code.heap = s.code.heap
    | .panic => True
    | .diverge => True

namespace Silent

theorem pure (a : α) : Silent (Pure.pure a : Fallible ε LoadState α) := fun _ => rfl

theorem throw (e : ε) : Silent (Fallible.throw e : Fallible ε LoadState α) := fun _ => rfl

theorem diverge : Silent (Fallible.diverge : Fallible ε LoadState α) := fun _ => trivial

theorem get : Silent (Fallible.get : Fallible ε LoadState LoadState) := fun _ => rfl

theorem gets (f : LoadState → α) : Silent (Fallible.gets f : Fallible ε LoadState α) :=
  fun _ => rfl

theorem modify {f : LoadState → LoadState} (h : ∀ s, (f s).code = s.code) :
    Silent (Fallible.modify f : Fallible ε LoadState Unit) :=
  fun s => congrArg CodeBuilder.heap (h s)

theorem okOr (o : Option α) (e : ε) : Silent (Fallible.okOr o e : Fallible ε LoadState α) := by
  cases o with
  | none => exact .throw e
  | some a => exact .pure a

theorem unwrap (o : Option α) : Silent (Fallible.unwrap o : Fallible ε LoadState α) := by
  cases o with
  | none => exact fun _ => trivial
  | some a => exact .pure a

theorem ofExcept (x : Except ε α) : Silent (Fallible.ofExcept x : Fallible ε LoadState α) := by
  cases x with
  | error e => exact .throw e
  | ok a => exact .pure a

theorem bind {x : Fallible ε LoadState α} {f : α → Fallible ε LoadState β} (hx : Silent x)
    (hf : ∀ a, Silent (f a)) : Silent (x >>= f) := by
  intro s
  have h := hx s
  rw [bind_apply]
  cases hs : x s with
  | ok a t =>
      rw [hs] at h
      have hft := hf a t
      simp only
      cases ht : f a t with
      | ok b u => rw [ht] at hft; exact hft.trans h
      | error e u => rw [ht] at hft; exact hft.trans h
      | panic => trivial
      | diverge => trivial
  | error e t => rw [hs] at h; exact h
  | panic => trivial
  | diverge => trivial

theorem ite {p : Prop} [Decidable p] {x y : Fallible ε LoadState α} (hx : Silent x)
    (hy : Silent y) : Silent (if p then x else y) := by
  split
  · exact hx
  · exact hy

theorem mapError {x : Fallible ε LoadState α} (f : ε → ε') (hx : Silent x) :
    Silent (Fallible.mapError f x) := by
  intro s
  have h := hx s
  unfold Fallible.mapError
  cases hs : x s with
  | ok a t => rw [hs] at h; exact h
  | error e t => rw [hs] at h; exact h
  | panic => trivial
  | diverge => trivial

/-- A step on parts of the state other than the code. -/
theorem zoom {τ : Type} {view : LoadState → τ} {update : LoadState → τ → LoadState}
    {x : Fallible ε τ α} (h : ∀ s t, (update s t).code = s.code) :
    Silent (Fallible.zoom view update x) := by
  intro s
  unfold Fallible.zoom
  cases x (view s) with
  | ok a t => exact congrArg CodeBuilder.heap (h s t)
  | error e t => exact congrArg CodeBuilder.heap (h s t)
  | panic => trivial
  | diverge => trivial

theorem decoding (x : ReaderM α) : Silent (SpaceWasm.decoding x) := .zoom fun _ _ => rfl

theorem limited {x : LoadM α} (n : ℕ) (hx : Silent x) : Silent (SpaceWasm.limited n x) := by
  intro s
  by_cases hs : s.Admits n
  · have h := hx (s.enter n)
    rw [limited_eq_within, within_of_admits hs]
    cases hr : x (s.enter n) with
    | ok a t => rw [hr] at h; exact h
    | error e t => rw [hr] at h; exact h
    | panic => trivial
    | diverge => trivial
  · rw [limited_eq_within, within_of_not_admits hs]

theorem iterate {x : Fallible ε LoadState Unit} (hx : Silent x) (n : ℕ) :
    Silent (Fallible.iterate n x) := by
  induction n with
  | zero => exact .pure ()
  | succ n ih => exact .bind hx fun _ => ih

theorem forEach {f : α → Fallible ε LoadState Unit} (hf : ∀ a, Silent (f a)) (as : List α) :
    Silent (Fallible.forEach as f) := by
  induction as with
  | nil => exact .pure ()
  | cons a as ih => exact .bind (hf a) fun _ => ih

end Silent

/-! ### Scripts -/

/-- An event of a load. -/
inductive VecEvent where
  /-- A count in front of a vector has been read. -/
  | count (n remaining : ℕ)
  /-- The allocator is asked for a vector. -/
  | request (capacity remaining : ℕ)
  deriving DecidableEq, Repr

/-- What a load allocates besides vectors with a count: code pages, tables, memories
and the copy of the name that the caller gives. -/
inductive OtherRequest : {ε α : Type} → Fallible ε LoadState α → Prop where
  | code (env : LoadEnv) (ctx : Func) : OtherRequest (readExpr env ctx)
  | table (n : ℕ) : OtherRequest (newTable n)
  | memory (env : LoadEnv) (ty : MemType) : OtherRequest (newMemory env ty)
  | name (name : Name) : OtherRequest (plain (newVec name.length))

/-- Go on after an error, too. -/
def handle (x : LoadM α) (onError : ValidationError → Fallible ε LoadState β)
    (f : α → Fallible ε LoadState β) : Fallible ε LoadState β := fun s =>
  match x s with
  | .ok a t => f a t
  | .error e t => onError e t
  | .panic => .panic
  | .diverge => .diverge

/-- How a step of a load is put together. -/
inductive Script : {ε α : Type} → Fallible ε LoadState α → Type 1 where
  | silent {ε α : Type} {x : Fallible ε LoadState α} (h : Silent x) : Script x
  | other {ε α : Type} {x : Fallible ε LoadState α} (h : OtherRequest x) : Script x
  /-- A count, and what is done with it. -/
  | counted {α : Type} {f : U32 → LoadM α} (tf : (n : U32) → Script (f n)) :
      Script (decoding readU32 >>= f)
  | newVec (n : ℕ) : Script (newVec n)
  | bind {ε α β : Type} {x : Fallible ε LoadState α} {f : α → Fallible ε LoadState β}
      (tx : Script x) (tf : (a : α) → Script (f a)) : Script (x >>= f)
  | ite {ε α : Type} {p : Prop} [Decidable p] {x y : Fallible ε LoadState α} (tx : Script x)
      (ty : Script y) : Script (if p then x else y)
  | within {ε α : Type} {x : Fallible ε LoadState α} (inject : ValidationError → ε) (n : ℕ)
      (tx : Script x) :
      Script (within inject n x)
  | mapError {ε ε' α : Type} {x : Fallible ε LoadState α} (f : ε → ε') (tx : Script x) :
      Script (mapError f x)
  | handle {ε α β : Type} {x : LoadM α} {g : ValidationError → Fallible ε LoadState β}
      {f : α → Fallible ε LoadState β} (tx : Script x) (tg : (e : ValidationError) → Script (g e))
      (tf : (a : α) → Script (f a)) : Script (handle x g f)
  /-- Another way to write the step. -/
  | congr {ε α : Type} {x y : Fallible ε LoadState α} (h : y = x) (tx : Script x) : Script y

namespace Script

/-- The events of the run of `x` from a state. -/
def events {ε α : Type} {x : Fallible ε LoadState α} : Script x → LoadState → List VecEvent
  | silent _, _ => []
  | other _, _ => []
  | counted tf, s =>
      match decoding readU32 s with
      | .ok n t => .count n.toNat t.wasm.bytesRemaining :: (tf n).events t
      | _ => []
  | newVec n, s => if 0 < n then [.request n s.wasm.bytesRemaining] else []
  | @bind _ _ _ x _ tx tf, s =>
      tx.events s ++
        match x s with
        | .ok a t => (tf a).events t
        | _ => []
  | @ite _ _ p _ _ _ tx ty, s => if p then tx.events s else ty.events s
  | within _ n tx, s =>
      if s.Admits n then tx.events (s.enter n) else []
  | mapError _ tx, s => tx.events s
  | @handle _ _ _ x _ _ tx tg tf, s =>
      tx.events s ++
        match x s with
        | .ok a t => (tf a).events t
        | .error e t => (tg e).events t
        | _ => []
  | congr _ tx, s => tx.events s

theorem events_counted {f : U32 → LoadM α} {tf : (n : U32) → Script (f n)} {s t : LoadState}
    {n : U32} (h : decoding readU32 s = .ok n t) :
    (Script.counted tf).events s = .count n.toNat t.wasm.bytesRemaining :: (tf n).events t := by
  rw [Script.events.eq_def]
  simp only [h]

theorem events_bind_nil {x : Fallible ε LoadState α} {f : α → Fallible ε LoadState β}
    {tx : Script x} {tf : (a : α) → Script (f a)} {s : LoadState} (hx : tx.events s = [])
    (hf : ∀ a t, (tf a).events t = []) : (tx.bind tf).events s = [] := by
  rw [Script.events, hx, List.nil_append]
  split
  · exact hf _ _
  · rfl

theorem events_ite_nil {p : Prop} [Decidable p] {x y : Fallible ε LoadState α} {tx : Script x}
    {ty : Script y} {s : LoadState} (hx : tx.events s = []) (hy : ty.events s = []) :
    (Script.ite (p := p) tx ty).events s = [] := by
  rw [Script.events, hx, hy, ite_self]

theorem mem_counted {f : U32 → LoadM α} {tf : (n : U32) → Script (f n)} {s t : LoadState}
    {n : U32} {ev : VecEvent} (h : decoding readU32 s = .ok n t) (hev : ev ∈ (tf n).events t) :
    ev ∈ (Script.counted tf).events s := by
  rw [events_counted h]
  exact List.mem_cons_of_mem _ hev

theorem mem_bind_left {x : Fallible ε LoadState α} {f : α → Fallible ε LoadState β} {tx : Script x}
    {tf : (a : α) → Script (f a)} {s : LoadState} {ev : VecEvent} (hev : ev ∈ tx.events s) :
    ev ∈ (tx.bind tf).events s := by
  rw [Script.events]
  exact List.mem_append_left _ hev

theorem mem_bind_right {x : Fallible ε LoadState α} {f : α → Fallible ε LoadState β} {tx : Script x}
    {tf : (a : α) → Script (f a)} {s t : LoadState} {a : α} {ev : VecEvent} (h : x s = .ok a t)
    (hev : ev ∈ (tf a).events t) : ev ∈ (tx.bind tf).events s := by
  rw [Script.events, h]
  exact List.mem_append_right _ hev

theorem mem_within {x : Fallible ε LoadState α} {tx : Script x} {inject : ValidationError → ε}
    {n : ℕ} {s : LoadState} {ev : VecEvent} (h : s.Admits n) (hev : ev ∈ tx.events (s.enter n)) :
    ev ∈ (Script.within inject n tx).events s := by
  rw [Script.events, if_pos h]
  exact hev

theorem mem_mapError {x : Fallible ε LoadState α} {tx : Script x} {f : ε → ε'} {s : LoadState}
    {ev : VecEvent} (hev : ev ∈ tx.events s) : ev ∈ (Script.mapError f tx).events s := by
  rw [Script.events]
  exact hev

theorem mem_handle {x : LoadM α} {g : ValidationError → Fallible ε LoadState β}
    {f : α → Fallible ε LoadState β} {tx : Script x} {tg : (e : ValidationError) → Script (g e)}
    {tf : (a : α) → Script (f a)} {s t : LoadState} {a : α} {ev : VecEvent} (h : x s = .ok a t)
    (hev : ev ∈ (tf a).events t) : ev ∈ (Script.handle tx tg tf).events s := by
  rw [Script.events, h]
  exact List.mem_append_right _ hev

end Script

/-! ### The rule for counts and requests -/

/-- No vector is larger than what remains, and a count that is larger is the last
event of a run that fails with an error that is `tooLong`. -/
structure Obeys {σ : Type} (tooLong : ε → Prop) (o : Outcome ε σ α) (log : List VecEvent) :
    Prop where
  request : ∀ capacity remaining, .request capacity remaining ∈ log → capacity ≤ remaining
  count : ∀ n remaining, .count n remaining ∈ log → remaining < n →
    log.getLast? = some (.count n remaining) ∧ ∃ e t, o = .error e t ∧ tooLong e

namespace Obeys

variable {tooLong : ε → Prop} {σ : Type} {o o' : Outcome ε σ α} {log log' : List VecEvent}

theorem nil : Obeys tooLong o [] := ⟨nofun, nofun⟩

/-- The log of a run that returned, and that of the run after it. -/
theorem append {τ : Type} {a : β} {t : τ} (h : Obeys tooLong (.ok a t : Outcome ε τ β) log)
    (h' : Obeys tooLong o log') : Obeys tooLong o (log ++ log') := by
  constructor
  · intro capacity remaining hmem
    rcases List.mem_append.1 hmem with hl | hr
    · exact h.request _ _ hl
    · exact h'.request _ _ hr
  · intro n remaining hmem hlt
    rcases List.mem_append.1 hmem with hl | hr
    · obtain ⟨-, e, u, hok, -⟩ := h.count n remaining hl hlt
      cases hok
    · obtain ⟨hlast, herror⟩ := h'.count n remaining hr hlt
      refine ⟨?_, herror⟩
      rw [List.getLast?_append, hlast]
      rfl

/-- A log depends on a run only by its error. -/
theorem of_error {τ : Type} {tooLong' : ε' → Prop} {p : Outcome ε' τ β} (h : Obeys tooLong o log)
    (herror : ∀ e t, o = .error e t → tooLong e → ∃ e' t', p = .error e' t' ∧ tooLong' e') :
    Obeys tooLong' p log := by
  refine ⟨h.request, fun n remaining hmem hlt => ?_⟩
  obtain ⟨hlast, e, t, ho, he⟩ := h.count n remaining hmem hlt
  exact ⟨hlast, herror e t ho he⟩

theorem bind {x : Fallible ε LoadState α} {f : α → Fallible ε LoadState β} {tx : Script x}
    {tf : (a : α) → Script (f a)} {s : LoadState} (hx : Obeys tooLong (x s) (tx.events s))
    (hf : ∀ a t, x s = .ok a t → Obeys tooLong (f a t) ((tf a).events t)) :
    Obeys tooLong ((x >>= f) s) ((tx.bind tf).events s) := by
  rw [Script.events, bind_apply]
  cases hs : x s with
  | ok a t =>
      rw [hs] at hx
      exact hx.append (hf a t hs)
  | error e t =>
      rw [hs] at hx
      simp only [List.append_nil]
      exact hx.of_error fun e' t' h he => ⟨e', t', by cases h; rfl, he⟩
  | panic =>
      rw [hs] at hx
      simp only [List.append_nil]
      exact hx.of_error fun _ _ h => by cases h
  | diverge =>
      rw [hs] at hx
      simp only [List.append_nil]
      exact hx.of_error fun _ _ h => by cases h

theorem ite {p : Prop} [Decidable p] {x y : Fallible ε LoadState α} {tx : Script x} {ty : Script y}
    {s : LoadState} (hx : p → Obeys tooLong (x s) (tx.events s))
    (hy : ¬p → Obeys tooLong (y s) (ty.events s)) :
    Obeys tooLong ((if p then x else y : Fallible ε LoadState α) s)
      ((Script.ite (p := p) tx ty).events s) := by
  rw [Script.events]
  split
  · next hp => exact hx hp
  · next hp => exact hy hp

/-- A vector that fits into the remaining bytes. -/
theorem newVec {tooLong : ValidationError → Prop} {n : ℕ} {s : LoadState}
    (h : n ≤ s.wasm.bytesRemaining) :
    Obeys tooLong (SpaceWasm.newVec n s) ((Script.newVec n).events s) := by
  rw [Script.events]
  split
  · refine ⟨fun capacity remaining hmem => ?_, fun m remaining hmem => ?_⟩
    · cases List.mem_singleton.1 hmem
      exact h
    · cases List.mem_singleton.1 hmem
  · exact .nil

/-- A count that is not too large. -/
theorem cons {n remaining : ℕ} (h : Obeys tooLong o log) (hle : n ≤ remaining) :
    Obeys tooLong o (.count n remaining :: log) := by
  constructor
  · intro capacity r hmem
    rcases List.mem_cons.1 hmem with heq | hmem
    · cases heq
    · exact h.request _ _ hmem
  · intro m r hmem hlt
    rcases List.mem_cons.1 hmem with heq | hmem
    · cases heq
      omega
    · obtain ⟨hlast, herror⟩ := h.count m r hmem hlt
      refine ⟨?_, herror⟩
      rw [List.getLast?_cons, hlast]
      rfl

/-- A count that is rejected. -/
theorem rejected {n remaining : ℕ} {e : ε} {t : σ} (he : tooLong e) :
    Obeys tooLong (.error e t : Outcome ε σ α) [.count n remaining] := by
  constructor
  · intro capacity r hmem
    cases List.mem_singleton.1 hmem
  · intro m r hmem hlt
    cases List.mem_singleton.1 hmem
    exact ⟨rfl, e, t, rfl, he⟩

theorem counted {tooLong : ValidationError → Prop} {f : U32 → LoadM α}
    {tf : (n : U32) → Script (f n)} {s : LoadState}
    (h : ∀ n t, decoding readU32 s = .ok n t → Obeys tooLong (f n t)
      (.count n.toNat t.wasm.bytesRemaining :: (tf n).events t)) :
    Obeys tooLong ((decoding readU32 >>= f) s) ((Script.counted tf).events s) := by
  cases hs : decoding readU32 s with
  | ok n t =>
      rw [bind_of_ok hs, Script.events_counted hs]
      exact h n t hs
  | error | panic | diverge =>
      rw [Script.events.eq_def]
      simp only [hs]
      exact .nil

theorem handle {x : LoadM α} {g : ValidationError → Fallible ε LoadState β}
    {f : α → Fallible ε LoadState β} {tx : Script x} {tg : (e : ValidationError) → Script (g e)}
    {tf : (a : α) → Script (f a)} {s : LoadState} (hx : tx.events s = [])
    (hg : ∀ e t, x s = .error e t → Obeys tooLong (g e t) ((tg e).events t))
    (hf : ∀ a t, x s = .ok a t → Obeys tooLong (f a t) ((tf a).events t)) :
    Obeys tooLong (handle x g f s) ((Script.handle tx tg tf).events s) := by
  rw [Script.events, hx, List.nil_append, SpaceWasm.handle]
  cases hs : x s with
  | ok a t => exact hf a t hs
  | error e t => exact hg e t hs
  | panic | diverge => exact .nil

theorem congr {x y : Fallible ε LoadState α} {tx : Script x} {s : LoadState} (h : y = x)
    (hx : Obeys tooLong (x s) (tx.events s)) :
    Obeys tooLong (y s) ((Script.congr h tx).events s) := by
  subst h
  exact hx

theorem within {x : Fallible ε LoadState α} {tx : Script x} {inject : ValidationError → ε} {n : ℕ}
    {s : LoadState} (hx : s.Admits n → Obeys tooLong (x (s.enter n)) (tx.events (s.enter n))) :
    Obeys tooLong (within inject n x s) ((Script.within inject n tx).events s) := by
  rw [Script.events]
  by_cases hs : s.Admits n
  · rw [if_pos hs, within_of_admits hs]
    refine (hx hs).of_error fun e t h he => ⟨e, s.leave t, ?_, he⟩
    rw [h]
    rfl
  · rw [if_neg hs]
    exact .nil

theorem mapError {x : Fallible ε LoadState α} {tx : Script x} {f : ε → ε'} {s : LoadState}
    {tooLong' : ε' → Prop} (hf : ∀ e, tooLong e → tooLong' (f e))
    (hx : Obeys tooLong (x s) (tx.events s)) :
    Obeys tooLong' (Fallible.mapError f x s) ((Script.mapError f tx).events s) := by
  refine hx.of_error fun e t h he => ⟨f e, t, ?_, hf e he⟩
  exact mapError_of_error h

end Obeys

/-! ### Steps that obey -/

/-- A script whose runs obey. -/
structure Vetted (x : LoadM α) where
  script : Script x
  obeys : ∀ s, Obeys (· = .vecTooLong) (x s) (script.events s)

namespace Vetted

variable {x y : LoadM α} {f : α → LoadM β}

def silent (h : Silent x) : Vetted x := ⟨.silent h, fun _ => .nil⟩

def other (h : OtherRequest x) : Vetted x := ⟨.other h, fun _ => .nil⟩

def bind (vx : Vetted x) (vf : (a : α) → Vetted (f a)) : Vetted (x >>= f) :=
  ⟨.bind vx.script fun a => (vf a).script,
    fun s => .bind (vx.obeys s) fun a t _ => (vf a).obeys t⟩

def ite {p : Prop} [Decidable p] (vx : Vetted x) (vy : Vetted y) : Vetted (if p then x else y) :=
  ⟨.ite vx.script vy.script, fun s => .ite (fun _ => vx.obeys s) fun _ => vy.obeys s⟩

def limited (n : ℕ) (vx : Vetted x) : Vetted (limited n x) :=
  ⟨.within id n vx.script, fun _ => .within fun _ => vx.obeys _⟩

def collect (vx : Vetted x) : (n : ℕ) → Vetted (collect n x)
  | 0 => .silent (.pure [])
  | n + 1 => vx.bind fun _ => (collect vx n).bind fun _ => .silent (.pure _)

/-- `read_vec` checks the count before it asks for the vector. -/
def readVec (vx : Vetted x) : Vetted (readVec x) where
  script := .counted fun len => .bind (.silent (.gets _)) fun remaining =>
    .ite (.silent (.throw _)) (.bind (.newVec len.toNat) fun _ => (vx.collect len.toNat).script)
  obeys s := by
    refine .counted fun len t _ => ?_
    by_cases hlen : t.wasm.bytesRemaining < len.toNat
    · rw [bind_of_ok (gets_apply _ t), if_pos hlen]
      simp only [Script.events, gets_apply, if_pos hlen, List.append_nil]
      exact .rejected rfl
    · refine .cons ?_ (Nat.le_of_not_lt hlen)
      refine .bind .nil fun remaining u hu => ?_
      cases hu
      refine .ite (fun _ => .nil) fun _ => ?_
      exact .bind (.newVec (Nat.le_of_not_lt hlen)) fun _ v _ => (vx.collect len.toNat).obeys v

end Vetted

end SpaceWasm
