import Mathlib.Algebra.Order.Ring.Int
import Mathlib.Logic.Basic

/-!
# Stateful computations that can fail

`Fallible ε σ α` is a computation over a mutable state `σ` that returns a value,
fails with an error `ε`, panics, or loops for ever. The state survives an error,
because the callers of such code go on using whatever the failed call left
behind. A panic ends the program, so it carries no state.

The second half is the calculus the developments over this monad use: inversion
of a successful run, and triples `Triple P x Q E` with one postcondition for a
normal return and one for an error. A triple also says that neither a panic nor
a divergence can happen.
-/

/-- How a run of a fallible computation ends. -/
inductive Outcome (ε σ α : Type) where
  | ok (a : α) (s : σ)
  | error (e : ε) (s : σ)
  | panic
  | diverge

namespace Outcome

variable {ε σ α : Type}

/-- Whether a run returns. -/
def isOk : Outcome ε σ α → Bool
  | ok _ _ => true
  | _ => false

/-- The value of a run that returns. -/
def value? : Outcome ε σ α → Option α
  | ok a _ => some a
  | _ => none

/-- The result and the final state of a run that returns or fails. -/
def result : Outcome ε σ α → Option (Except ε α × σ)
  | ok a s => some (.ok a, s)
  | error e s => some (.error e, s)
  | panic => none
  | diverge => none

theorem isOk_iff {x : Outcome ε σ α} : x.isOk = true ↔ ∃ a s, x = .ok a s := by
  cases x <;> simp [isOk]

theorem value?_eq_some {x : Outcome ε σ α} {a : α} : x.value? = some a ↔ ∃ s, x = .ok a s := by
  cases x <;> simp [value?]

end Outcome

/-- A computation with state `σ` that may fail with an error in `ε`. -/
def Fallible (ε σ α : Type) : Type := σ → Outcome ε σ α

namespace Fallible

variable {ε σ τ α β : Type}

instance : Monad (Fallible ε σ) where
  pure a := fun s => .ok a s
  bind x f := fun s =>
    match x s with
    | .ok a t => f a t
    | .error e t => .error e t
    | .panic => .panic
    | .diverge => .diverge

/-- Return early with an error. -/
def throw (e : ε) : Fallible ε σ α := fun s => .error e s

/-- A failed assertion, an `unreachable!` arm or an index out of range. -/
def panic : Fallible ε σ α := fun _ => .panic

/-- A loop that has no last iteration. -/
def diverge : Fallible ε σ α := fun _ => .diverge

def get : Fallible ε σ σ := fun s => .ok s s

def set (s : σ) : Fallible ε σ Unit := fun _ => .ok () s

def modify (f : σ → σ) : Fallible ε σ Unit := fun s => .ok () (f s)

def gets (f : σ → α) : Fallible ε σ α := fun s => .ok (f s) s

/-- The value of an option, or an early return with `e`. -/
def okOr (o : Option α) (e : ε) : Fallible ε σ α :=
  match o with
  | some a => pure a
  | none => throw e

/-- The value of an option that the code unwraps or indexes without a check. -/
def unwrap (o : Option α) : Fallible ε σ α :=
  match o with
  | some a => pure a
  | none => panic

def ofExcept (x : Except ε α) : Fallible ε σ α :=
  match x with
  | .ok a => pure a
  | .error e => throw e

/-- Panic unless the condition holds. -/
def assert (p : Prop) [Decidable p] : Fallible ε σ Unit :=
  if p then pure () else panic

/-- Run a computation on a part of the state, given by a getter and a setter. -/
def zoom (view : σ → τ) (update : σ → τ → σ) (x : Fallible ε τ α) : Fallible ε σ α :=
  fun s =>
    match x (view s) with
    | .ok a t => .ok a (update s t)
    | .error e t => .error e (update s t)
    | .panic => .panic
    | .diverge => .diverge

/-- Convert the error. -/
def mapError {ε' : Type} (f : ε → ε') (x : Fallible ε σ α) : Fallible ε' σ α := fun s =>
  match x s with
  | .ok a t => .ok a t
  | .error e t => .error (f e) t
  | .panic => .panic
  | .diverge => .diverge

/-- `for _ in 0..n { x }`. -/
def iterate : Nat → Fallible ε σ Unit → Fallible ε σ Unit
  | 0, _ => pure ()
  | n + 1, x => do x; iterate n x

/-- `n` runs of `x`, with their results in order. -/
def collect : Nat → Fallible ε σ α → Fallible ε σ (List α)
  | 0, _ => pure []
  | n + 1, x => do
      let a ← x
      let as ← collect n x
      pure (a :: as)

/-- `for a in as { f a }`. -/
def forEach : List α → (α → Fallible ε σ Unit) → Fallible ε σ Unit
  | [], _ => pure ()
  | a :: as, f => do f a; forEach as f

/-! ### Running the primitives -/

@[simp] theorem pure_apply (a : α) (s : σ) : (pure a : Fallible ε σ α) s = .ok a s := rfl

@[simp] theorem throw_apply (e : ε) (s : σ) : (throw e : Fallible ε σ α) s = .error e s := rfl

@[simp] theorem panic_apply (s : σ) : (panic : Fallible ε σ α) s = .panic := rfl

@[simp] theorem diverge_apply (s : σ) : (diverge : Fallible ε σ α) s = .diverge := rfl

@[simp] theorem get_apply (s : σ) : (get : Fallible ε σ σ) s = .ok s s := rfl

@[simp] theorem set_apply (s t : σ) : (set t : Fallible ε σ Unit) s = .ok () t := rfl

@[simp] theorem modify_apply (f : σ → σ) (s : σ) :
    (modify f : Fallible ε σ Unit) s = .ok () (f s) := rfl

@[simp] theorem gets_apply (f : σ → α) (s : σ) :
    (gets f : Fallible ε σ α) s = .ok (f s) s := rfl

@[simp] theorem okOr_some (a : α) (e : ε) : (okOr (some a) e : Fallible ε σ α) = pure a := rfl

@[simp] theorem okOr_none (e : ε) : (okOr none e : Fallible ε σ α) = throw e := rfl

@[simp] theorem unwrap_some (a : α) : (unwrap (some a) : Fallible ε σ α) = pure a := rfl

@[simp] theorem unwrap_none : (unwrap none : Fallible ε σ α) = panic := rfl

@[simp] theorem ofExcept_ok (a : α) : (ofExcept (.ok a) : Fallible ε σ α) = pure a := rfl

@[simp] theorem ofExcept_error (e : ε) :
    (ofExcept (.error e) : Fallible ε σ α) = throw e := rfl

theorem assert_of {p : Prop} [Decidable p] (hp : p) :
    (assert p : Fallible ε σ Unit) = pure () := if_pos hp

theorem bind_apply (x : Fallible ε σ α) (f : α → Fallible ε σ β) (s : σ) :
    (x >>= f) s =
      match x s with
      | .ok a t => f a t
      | .error e t => .error e t
      | .panic => .panic
      | .diverge => .diverge := rfl

theorem bind_of_ok {x : Fallible ε σ α} {f : α → Fallible ε σ β} {s t : σ} {a : α}
    (h : x s = .ok a t) : (x >>= f) s = f a t := by
  rw [bind_apply, h]

theorem bind_of_error {x : Fallible ε σ α} {f : α → Fallible ε σ β} {s t : σ} {e : ε}
    (h : x s = .error e t) : (x >>= f) s = .error e t := by
  rw [bind_apply, h]

@[simp] theorem ite_apply' (p : Prop) [Decidable p] (x y : Fallible ε σ α) (s : σ) :
    (if p then x else y) s = if p then x s else y s := by
  split <;> rfl

private theorem id_map' (x : Fallible ε σ α) : id <$> x = x := by
  funext s
  change (x >>= fun a => pure (id a)) s = x s
  rw [bind_apply]
  cases x s <;> rfl

private theorem bind_assoc' {γ : Type} (x : Fallible ε σ α) (f : α → Fallible ε σ β)
    (g : β → Fallible ε σ γ) : x >>= f >>= g = x >>= fun a => f a >>= g := by
  funext s
  simp only [bind_apply]
  cases x s <;> rfl

instance : LawfulMonad (Fallible ε σ) :=
  LawfulMonad.mk' (Fallible ε σ) id_map' (fun _ _ => rfl) bind_assoc'

theorem unwrap_bind (o : Option α) (f : α → Option β) :
    (unwrap (o >>= f) : Fallible ε σ β) = unwrap o >>= fun a => unwrap (f a) := by
  cases o <;> rfl

/-! ### Inversion of a successful run -/

theorem bind_eq_ok {x : Fallible ε σ α} {f : α → Fallible ε σ β} {s u : σ} {b : β} :
    (x >>= f) s = .ok b u ↔ ∃ a t, x s = .ok a t ∧ f a t = .ok b u := by
  rw [bind_apply]
  constructor
  · intro h
    cases hx : x s with
    | ok a t => rw [hx] at h; exact ⟨a, t, rfl, h⟩
    | error e t => rw [hx] at h; cases h
    | panic => rw [hx] at h; cases h
    | diverge => rw [hx] at h; cases h
  · rintro ⟨a, t, hx, hf⟩
    rw [hx]
    exact hf

@[simp] theorem pure_eq_ok {a b : α} {s t : σ} :
    (pure a : Fallible ε σ α) s = .ok b t ↔ a = b ∧ s = t := by
  simp

theorem okOr_eq_ok {o : Option α} {e : ε} {a : α} {s t : σ} :
    (okOr o e : Fallible ε σ α) s = .ok a t ↔ o = some a ∧ s = t := by
  cases o <;> simp

theorem unwrap_eq_ok {o : Option α} {a : α} {s t : σ} :
    (unwrap o : Fallible ε σ α) s = .ok a t ↔ o = some a ∧ s = t := by
  cases o <;> simp

theorem ofExcept_eq_ok {x : Except ε α} {a : α} {s t : σ} :
    (ofExcept x : Fallible ε σ α) s = .ok a t ↔ x = .ok a ∧ s = t := by
  cases x <;> simp

theorem zoom_eq_ok {view : σ → τ} {update : σ → τ → σ} {x : Fallible ε τ α} {a : α} {s u : σ} :
    zoom view update x s = .ok a u ↔ ∃ t, x (view s) = .ok a t ∧ u = update s t := by
  unfold zoom
  cases hx : x (view s) with
  | ok b t =>
      constructor
      · intro h
        cases h
        exact ⟨t, rfl, rfl⟩
      · rintro ⟨t', h, rfl⟩
        cases h
        rfl
  | error e t => simp
  | panic => simp
  | diverge => simp

theorem zoom_of_ok {view : σ → τ} {update : σ → τ → σ} {x : Fallible ε τ α} {a : α} {s : σ}
    {t : τ} (h : x (view s) = .ok a t) : zoom view update x s = .ok a (update s t) := by
  rw [zoom, h]

theorem mapError_eq_ok {ε' : Type} {f : ε → ε'} {x : Fallible ε σ α} {a : α} {s t : σ} :
    mapError f x s = .ok a t ↔ x s = .ok a t := by
  unfold mapError
  cases x s <;> simp

theorem mapError_of_error {ε' : Type} {f : ε → ε'} {x : Fallible ε σ α} {e : ε} {s t : σ}
    (h : x s = .error e t) : mapError f x s = .error (f e) t := by
  rw [mapError, h]

theorem iterate_succ (n : Nat) (x : Fallible ε σ Unit) :
    iterate (n + 1) x = x >>= fun _ => iterate n x := rfl

theorem iterate_succ' (n : Nat) (x : Fallible ε σ Unit) :
    iterate (n + 1) x = iterate n x >>= fun _ => x := by
  induction n with
  | zero =>
      rw [iterate_succ]
      exact bind_pure x
  | succ n ih => rw [iterate_succ, ih, ← bind_assoc, ← iterate_succ, ih]

theorem collect_succ (n : Nat) (x : Fallible ε σ α) :
    collect (n + 1) x = (do
      let a ← x
      let as ← collect n x
      pure (a :: as)) := rfl

theorem forEach_cons (a : α) (as : List α) (f : α → Fallible ε σ Unit) :
    forEach (a :: as) f = f a >>= fun _ => forEach as f := rfl

theorem forEach_append (as bs : List α) (f : α → Fallible ε σ Unit) :
    forEach (as ++ bs) f = forEach as f >>= fun _ => forEach bs f := by
  induction as with
  | nil => rfl
  | cons a as ih =>
      rw [List.cons_append, forEach_cons, ih, forEach_cons, bind_assoc]

/-! ### Returned values -/

/-- Every value that `x` returns satisfies `P`. -/
def Returns (P : α → Prop) (x : Fallible ε σ α) : Prop := ∀ s a t, x s = .ok a t → P a

theorem Returns.pure {P : α → Prop} {a : α} (h : P a) :
    Returns P (Pure.pure a : Fallible ε σ α) := by
  intro s b t hb
  rwa [← (pure_eq_ok.1 hb).1]

theorem Returns.throw {P : α → Prop} (e : ε) : Returns P (Fallible.throw e : Fallible ε σ α) := by
  intro s a t h
  cases h

theorem Returns.bind {P : β → Prop} {x : Fallible ε σ α} {f : α → Fallible ε σ β}
    (hf : ∀ a, Returns P (f a)) : Returns P (x >>= f) := by
  intro s b t h
  obtain ⟨a, u, -, h⟩ := bind_eq_ok.1 h
  exact hf a u b t h

theorem Returns.map {P : β → Prop} {x : Fallible ε σ α} {f : α → β} (hf : ∀ a, P (f a)) :
    Returns P (f <$> x) := by
  rw [map_eq_pure_bind]
  exact Returns.bind fun a => Returns.pure (hf a)

theorem Returns.ite {P : α → Prop} {p : Prop} [Decidable p] {x y : Fallible ε σ α}
    (hx : Returns P x) (hy : Returns P y) : Returns P (if p then x else y) := by
  split
  · exact hx
  · exact hy

theorem Returns.cases {P : α → Prop} {p : Prop} [Decidable p] {x y : Fallible ε σ α}
    (hx : p → Returns P x) (hy : ¬p → Returns P y) : Returns P (if p then x else y) := by
  split
  · exact hx ‹_›
  · exact hy ‹_›

/-! ### Triples -/

/-- From every state in `P`, the run returns into `Q` or fails into `E`. It does
not diverge, and it does not panic when `safe` holds. -/
def Guarded (safe : Prop) (P : σ → Prop) (x : Fallible ε σ α) (Q : α → σ → Prop)
    (E : ε → σ → Prop) : Prop :=
  ∀ s, P s →
    match x s with
    | .ok a t => Q a t
    | .error e t => E e t
    | .panic => ¬safe
    | .diverge => False

/-- A triple for a run that does not panic either. -/
abbrev Triple (P : σ → Prop) (x : Fallible ε σ α) (Q : α → σ → Prop) (E : ε → σ → Prop) : Prop :=
  Guarded True P x Q E

/-- `x` keeps `I`, whether it returns or fails. -/
abbrev Preserves (safe : Prop) (I : σ → Prop) (x : Fallible ε σ α) : Prop :=
  Guarded safe I x (fun _ => I) (fun _ => I)

abbrev Keeps (I : σ → Prop) (x : Fallible ε σ α) : Prop := Preserves True I x

variable {safe : Prop}

theorem Guarded.ok {P : σ → Prop} {x : Fallible ε σ α} {Q : α → σ → Prop} {E : ε → σ → Prop}
    (h : Guarded safe P x Q E) {s t : σ} {a : α} (hs : P s) (hx : x s = .ok a t) : Q a t := by
  have := h s hs
  rwa [hx] at this

theorem Guarded.error {P : σ → Prop} {x : Fallible ε σ α} {Q : α → σ → Prop}
    {E : ε → σ → Prop} (h : Guarded safe P x Q E) {s t : σ} {e : ε} (hs : P s)
    (hx : x s = .error e t) : E e t := by
  have := h s hs
  rwa [hx] at this

theorem Guarded.ne_panic {P : σ → Prop} {x : Fallible ε σ α} {Q : α → σ → Prop}
    {E : ε → σ → Prop} (h : Guarded safe P x Q E) (hsafe : safe) {s : σ} (hs : P s) :
    x s ≠ .panic := by
  intro hx
  have := h s hs
  rw [hx] at this
  exact this hsafe

theorem Guarded.ne_diverge {P : σ → Prop} {x : Fallible ε σ α} {Q : α → σ → Prop}
    {E : ε → σ → Prop} (h : Guarded safe P x Q E) {s : σ} (hs : P s) : x s ≠ .diverge := by
  intro hx
  have := h s hs
  rwa [hx] at this

/-- The rule of consequence. -/
theorem Guarded.weaken {safe' : Prop} {P P' : σ → Prop} {x : Fallible ε σ α} {Q Q' : α → σ → Prop}
    {E E' : ε → σ → Prop} (h : Guarded safe P x Q E) (hsafe : safe' → safe)
    (hP : ∀ s, P' s → P s) (hQ : ∀ a s, Q a s → Q' a s) (hE : ∀ e s, E e s → E' e s) :
    Guarded safe' P' x Q' E' := by
  intro s hs
  have := h s (hP s hs)
  cases hx : x s <;> rw [hx] at this
  · exact hQ _ _ this
  · exact hE _ _ this
  · exact fun h => this (hsafe h)
  · exact this

theorem Guarded.pure {P : σ → Prop} {Q : α → σ → Prop} {E : ε → σ → Prop} {a : α}
    (h : ∀ s, P s → Q a s) : Guarded safe P (Pure.pure a : Fallible ε σ α) Q E :=
  fun s hs => h s hs

theorem Guarded.throw {P : σ → Prop} {Q : α → σ → Prop} {E : ε → σ → Prop} {e : ε}
    (h : ∀ s, P s → E e s) : Guarded safe P (Fallible.throw e : Fallible ε σ α) Q E :=
  fun s hs => h s hs

/-- The sequencing rule: the middle assertion is the postcondition of the first
half and the precondition of the second. -/
theorem Guarded.bind {P : σ → Prop} {x : Fallible ε σ α} {f : α → Fallible ε σ β}
    {M : α → σ → Prop} {Q : β → σ → Prop} {E : ε → σ → Prop}
    (hx : Guarded safe P x M E) (hf : ∀ a, Guarded safe (M a) (f a) Q E) :
    Guarded safe P (x >>= f) Q E := by
  intro s hs
  have := hx s hs
  rw [bind_apply]
  cases h : x s with
  | ok a t => rw [h] at this; exact hf a t this
  | error e t => rw [h] at this; exact this
  | panic => rw [h] at this; exact this
  | diverge => rw [h] at this; exact this

/-- The sequencing rule for a run from one state, which may be quoted in the rest. -/
theorem Guarded.bind_run {x : Fallible ε σ α} {f : α → Fallible ε σ β} {s : σ}
    {M : α → σ → Prop} {Q : β → σ → Prop} {E : ε → σ → Prop}
    (hx : Guarded safe (fun t => t = s) x M E)
    (hf : ∀ a t, x s = .ok a t → M a t → Guarded safe (fun u => u = t) (f a) Q E) :
    Guarded safe (fun t => t = s) (x >>= f) Q E := by
  rintro _ rfl
  have := hx _ rfl
  rw [bind_apply]
  cases h : x _ with
  | ok a t => rw [h] at this; exact hf a t h this t rfl
  | error e t => rw [h] at this; exact this
  | panic => rw [h] at this; exact this
  | diverge => rw [h] at this; exact this

theorem Guarded.ite {P : σ → Prop} {Q : α → σ → Prop} {E : ε → σ → Prop} {p : Prop} [Decidable p]
    {x y : Fallible ε σ α} (hx : p → Guarded safe P x Q E) (hy : ¬p → Guarded safe P y Q E) :
    Guarded safe P (if p then x else y) Q E := by
  split
  · exact hx ‹_›
  · exact hy ‹_›

theorem Guarded.get_bind {P : σ → Prop} {f : σ → Fallible ε σ α} {Q : α → σ → Prop}
    {E : ε → σ → Prop} (h : ∀ s, P s → Guarded safe (fun t => t = s) (f s) Q E) :
    Guarded safe P (Fallible.get >>= f) Q E := by
  intro s hs
  rw [bind_of_ok (get_apply s)]
  exact h s hs s rfl

theorem Guarded.mapError {ε' : Type} {f : ε → ε'} {P : σ → Prop} {x : Fallible ε σ α}
    {Q : α → σ → Prop} {E : ε → σ → Prop} {E' : ε' → σ → Prop} (h : Guarded safe P x Q E)
    (hE : ∀ e s, E e s → E' (f e) s) : Guarded safe P (Fallible.mapError f x) Q E' := by
  intro s hs
  have := h s hs
  unfold Fallible.mapError
  cases hx : x s <;> rw [hx] at this
  · exact this
  · exact hE _ _ this
  · exact this
  · exact this

namespace Preserves

variable {I : σ → Prop}

theorem pure (a : α) : Preserves safe I (Pure.pure a : Fallible ε σ α) :=
  Guarded.pure fun _ hs => hs

theorem throw (e : ε) : Preserves safe I (Fallible.throw e : Fallible ε σ α) :=
  Guarded.throw fun _ hs => hs

theorem bind {x : Fallible ε σ α} {f : α → Fallible ε σ β} (hx : Preserves safe I x)
    (hf : ∀ a, Preserves safe I (f a)) : Preserves safe I (x >>= f) :=
  Guarded.bind hx hf

theorem ite {p : Prop} [Decidable p] {x y : Fallible ε σ α}
    (hx : p → Preserves safe I x) (hy : ¬p → Preserves safe I y) :
    Preserves safe I (if p then x else y) :=
  Guarded.ite hx hy

theorem gets (f : σ → α) : Preserves safe I (Fallible.gets f : Fallible ε σ α) :=
  fun _ hs => hs

theorem get : Preserves safe I (Fallible.get : Fallible ε σ σ) :=
  fun _ hs => hs

theorem okOr (o : Option α) (e : ε) : Preserves safe I (Fallible.okOr o e : Fallible ε σ α) := by
  cases o with
  | none => exact throw e
  | some a => exact pure a

theorem iterate {x : Fallible ε σ Unit} (hx : Preserves safe I x) (n : Nat) :
    Preserves safe I (Fallible.iterate n x) := by
  induction n with
  | zero => exact pure ()
  | succ n ih => exact bind hx fun _ => ih

theorem collect {x : Fallible ε σ α} (hx : Preserves safe I x) (n : Nat) :
    Preserves safe I (Fallible.collect n x) := by
  induction n with
  | zero => exact pure []
  | succ n ih => exact bind hx fun _ => bind ih fun _ => pure _

theorem zoom {view : σ → τ} {update : σ → τ → σ} {x : Fallible ε τ α}
    {J : τ → Prop} (hview : ∀ s, I s → J (view s)) (hx : Preserves safe J x)
    (hupdate : ∀ s t, I s → J t → I (update s t)) :
    Preserves safe I (Fallible.zoom view update x) := by
  intro s hs
  have := hx (view s) (hview s hs)
  unfold Fallible.zoom
  cases h : x (view s) with
  | ok a t => rw [h] at this; exact hupdate s t hs this
  | error e t => rw [h] at this; exact hupdate s t hs this
  | panic => rw [h] at this; exact this
  | diverge => rw [h] at this; exact this

end Preserves

end Fallible
