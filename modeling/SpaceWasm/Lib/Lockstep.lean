import SpaceWasm.Lib.Fallible

/-!
# Two runs in lockstep

`Lockstep E R x y` compares two computations from states that are related by `R`:
both return, with the same value, or both fail, with errors related by `E`, or both
panic, or both diverge; and the states they leave are related by `R` again. The
two are mostly the same computation, run on two states that differ in something
it cannot see.
-/

/-- Two runs end alike. -/
inductive Outcome.Alike {ε ε' σ τ α : Type} (E : ε → ε' → Prop) (R : σ → τ → Prop) :
    Outcome ε σ α → Outcome ε' τ α → Prop where
  | ok (a : α) {s : σ} {t : τ} : R s t → Alike E R (.ok a s) (.ok a t)
  | error {e : ε} {e' : ε'} {s : σ} {t : τ} : E e e' → R s t → Alike E R (.error e s) (.error e' t)
  | panic : Alike E R .panic .panic
  | diverge : Alike E R .diverge .diverge

namespace Fallible

variable {ε ε' σ τ σ' τ' α β : Type}

def Lockstep (E : ε → ε' → Prop) (R : σ → τ → Prop) (x : Fallible ε σ α)
    (y : Fallible ε' τ α) : Prop :=
  ∀ s t, R s t → (x s).Alike E R (y t)

/-- A computation that cannot tell related states apart. -/
abbrev Respects (E : ε → ε → Prop) (R : σ → σ → Prop) (x : Fallible ε σ α) : Prop :=
  Lockstep E R x x

namespace Lockstep

variable {E : ε → ε' → Prop} {R : σ → τ → Prop}

theorem pure (a : α) :
    Lockstep E R (Pure.pure a : Fallible ε σ α) (Pure.pure a : Fallible ε' τ α) :=
  fun _ _ hst => .ok a hst

theorem throw {e : ε} {e' : ε'} (h : E e e') :
    Lockstep E R (Fallible.throw e : Fallible ε σ α) (Fallible.throw e' : Fallible ε' τ α) :=
  fun _ _ hst => .error h hst

theorem panic : Lockstep E R (Fallible.panic : Fallible ε σ α) (Fallible.panic : Fallible ε' τ α) :=
  fun _ _ _ => .panic

theorem diverge :
    Lockstep E R (Fallible.diverge : Fallible ε σ α) (Fallible.diverge : Fallible ε' τ α) :=
  fun _ _ _ => .diverge

/-- The sequencing rule. -/
theorem bind {x : Fallible ε σ α} {y : Fallible ε' τ α} {f : α → Fallible ε σ β}
    {g : α → Fallible ε' τ β} (hx : Lockstep E R x y) (hf : ∀ a, Lockstep E R (f a) (g a)) :
    Lockstep E R (x >>= f) (y >>= g) := by
  intro s t hst
  have h := hx s t hst
  rw [bind_apply, bind_apply]
  generalize x s = o at h
  generalize y t = o' at h
  cases h with
  | ok a h => exact hf a _ _ h
  | error he h => exact .error he h
  | panic => exact .panic
  | diverge => exact .diverge

theorem ite {p : Prop} [Decidable p] {x x' : Fallible ε σ α} {y y' : Fallible ε' τ α}
    (hx : p → Lockstep E R x y) (hx' : ¬p → Lockstep E R x' y') :
    Lockstep E R (if p then x else x') (if p then y else y') := by
  by_cases hp : p
  · rw [if_pos hp, if_pos hp]
    exact hx hp
  · rw [if_neg hp, if_neg hp]
    exact hx' hp

/-- Both sides look at their states, which may show them different values. -/
theorem gets_bind {f : σ → α} {g : τ → β} {γ : Type} {k : α → Fallible ε σ γ}
    {l : β → Fallible ε' τ γ} (h : ∀ s t, R s t → Lockstep E R (k (f s)) (l (g t))) :
    Lockstep E R (Fallible.gets f >>= k) (Fallible.gets g >>= l) := by
  intro s t hst
  rw [bind_of_ok (gets_apply f s), bind_of_ok (gets_apply g t)]
  exact h s t hst s t hst

theorem get_bind {f : σ → Fallible ε σ α} {g : τ → Fallible ε' τ α}
    (h : ∀ s t, R s t → Lockstep E R (f s) (g t)) :
    Lockstep E R (Fallible.get >>= f) (Fallible.get >>= g) := by
  intro s t hst
  rw [bind_of_ok (get_apply s), bind_of_ok (get_apply t)]
  exact h s t hst s t hst

theorem gets {f : σ → α} {g : τ → α} (h : ∀ s t, R s t → f s = g t) :
    Lockstep E R (Fallible.gets f : Fallible ε σ α) (Fallible.gets g : Fallible ε' τ α) :=
  fun s t hst => by
    rw [gets_apply, gets_apply, h s t hst]
    exact .ok (g t) hst

theorem set {s' : σ} {t' : τ} (h : R s' t') :
    Lockstep E R (Fallible.set s' : Fallible ε σ Unit) (Fallible.set t' : Fallible ε' τ Unit) :=
  fun _ _ _ => .ok () h

theorem modify {f : σ → σ} {g : τ → τ} (h : ∀ s t, R s t → R (f s) (g t)) :
    Lockstep E R (Fallible.modify f : Fallible ε σ Unit)
      (Fallible.modify g : Fallible ε' τ Unit) :=
  fun s t hst => .ok () (h s t hst)

theorem okOr (o : Option α) {e : ε} {e' : ε'} (h : E e e') :
    Lockstep E R (Fallible.okOr o e) (Fallible.okOr o e') := by
  cases o with
  | none => exact throw h
  | some a => exact pure a

theorem unwrap (o : Option α) :
    Lockstep E R (Fallible.unwrap o : Fallible ε σ α) (Fallible.unwrap o : Fallible ε' τ α) := by
  cases o with
  | none => exact panic
  | some a => exact pure a

theorem iterate {x : Fallible ε σ Unit} {y : Fallible ε' τ Unit} (h : Lockstep E R x y) (n : Nat) :
    Lockstep E R (Fallible.iterate n x) (Fallible.iterate n y) := by
  induction n with
  | zero => exact pure ()
  | succ n ih => exact bind h fun _ => ih

theorem collect {x : Fallible ε σ α} {y : Fallible ε' τ α} (h : Lockstep E R x y) (n : Nat) :
    Lockstep E R (Fallible.collect n x) (Fallible.collect n y) := by
  induction n with
  | zero => exact pure []
  | succ n ih => exact bind h fun a => bind ih fun as => pure (a :: as)

theorem forEach {f : α → Fallible ε σ Unit} {g : α → Fallible ε' τ Unit}
    (h : ∀ a, Lockstep E R (f a) (g a)) (as : List α) :
    Lockstep E R (Fallible.forEach as f) (Fallible.forEach as g) := by
  induction as with
  | nil => exact pure ()
  | cons a as ih => exact bind (h a) fun _ => ih

theorem zoom {R' : σ' → τ' → Prop} {view : σ → σ'} {update : σ → σ' → σ} {view' : τ → τ'}
    {update' : τ → τ' → τ} {x : Fallible ε σ' α} {y : Fallible ε' τ' α}
    (hview : ∀ s t, R s t → R' (view s) (view' t)) (hx : Lockstep E R' x y)
    (hupdate : ∀ s t u v, R s t → R' u v → R (update s u) (update' t v)) :
    Lockstep E R (Fallible.zoom view update x) (Fallible.zoom view' update' y) := by
  intro s t hst
  have h := hx _ _ (hview s t hst)
  unfold Fallible.zoom
  generalize x (view s) = o at h
  generalize y (view' t) = o' at h
  cases h with
  | ok a h => exact .ok a (hupdate _ _ _ _ hst h)
  | error he h => exact .error he (hupdate _ _ _ _ hst h)
  | panic => exact .panic
  | diverge => exact .diverge

theorem mapError {ε₁ ε₂ : Type} {E' : ε₁ → ε₂ → Prop} {f : ε → ε₁} {g : ε' → ε₂}
    {x : Fallible ε σ α} {y : Fallible ε' τ α} (hx : Lockstep E R x y)
    (h : ∀ e e', E e e' → E' (f e) (g e')) :
    Lockstep E' R (Fallible.mapError f x) (Fallible.mapError g y) := by
  intro s t hst
  have hxy := hx s t hst
  unfold Fallible.mapError
  generalize x s = o at hxy
  generalize y t = o' at hxy
  cases hxy with
  | ok a hst' => exact .ok a hst'
  | error he hst' => exact .error (h _ _ he) hst'
  | panic => exact .panic
  | diverge => exact .diverge

end Lockstep

namespace Respects

variable {E : ε → ε → Prop} {R : σ → σ → Prop}

theorem ofExcept (hE : ∀ e, E e e) (x : Except ε α) :
    Respects E R (Fallible.ofExcept x : Fallible ε σ α) := by
  cases x with
  | error e => exact Lockstep.throw (hE e)
  | ok a => exact Lockstep.pure a

end Respects

end Fallible
