import SpaceWasm.Lib.Fallible

/-!
# A run that another one follows

`Shadowed P x y Q E` compares two computations from states that are related by `P`. As
long as the first one does not panic, the second one ends alike: both return the same
value and leave states related by `Q`, or both fail with the same error and leave states
related by `E`. The second computation may do better than the first one and end where
that one panics, for example because it finds what the other one looks for in vain.
-/

/-- The second run ends like the first one, unless that one panics. -/
inductive Outcome.Covers {ε σ τ α : Type} (Q E : σ → τ → Prop) :
    Outcome ε σ α → Outcome ε τ α → Prop where
  | ok {a : α} {s : σ} {t : τ} : Q s t → Covers Q E (.ok a s) (.ok a t)
  | error {e : ε} {s : σ} {t : τ} : E s t → Covers Q E (.error e s) (.error e t)
  | panic (o : Outcome ε τ α) : Covers Q E .panic o
  | diverge : Covers Q E .diverge .diverge

theorem Outcome.Covers.weaken {ε σ τ α : Type} {Q Q' E E' : σ → τ → Prop} {o : Outcome ε σ α}
    {o' : Outcome ε τ α} (h : o.Covers Q E o') (hQ : ∀ s t, Q s t → Q' s t)
    (hE : ∀ s t, E s t → E' s t) : o.Covers Q' E' o' := by
  cases h with
  | ok h => exact .ok (hQ _ _ h)
  | error h => exact .error (hE _ _ h)
  | panic => exact .panic o'
  | diverge => exact .diverge

namespace Fallible

variable {ε σ τ α β : Type}

def Shadowed (P : σ → τ → Prop) (x : Fallible ε σ α) (y : Fallible ε τ α) (Q E : σ → τ → Prop) :
    Prop :=
  ∀ s t, P s t → (x s).Covers Q E (y t)

/-- A computation whose runs from related states follow each other, as long as the first
one does not panic, and stay related. -/
abbrev Follows (R : σ → σ → Prop) (x : Fallible ε σ α) : Prop := Shadowed R x x R R

namespace Shadowed

variable {P Q E : σ → τ → Prop}

/-- The consequence rule. -/
theorem weaken {P' Q' E' : σ → τ → Prop} {x : Fallible ε σ α} {y : Fallible ε τ α}
    (h : Shadowed P x y Q E) (hP : ∀ s t, P' s t → P s t) (hQ : ∀ s t, Q s t → Q' s t)
    (hE : ∀ s t, E s t → E' s t) : Shadowed P' x y Q' E' :=
  fun s t hst => (h s t (hP s t hst)).weaken hQ hE

theorem pure {a : α} (h : ∀ s t, P s t → Q s t) :
    Shadowed P (Pure.pure a : Fallible ε σ α) (Pure.pure a : Fallible ε τ α) Q E :=
  fun s t hst => .ok (h s t hst)

theorem throw {e : ε} (h : ∀ s t, P s t → E s t) :
    Shadowed P (Fallible.throw e : Fallible ε σ α) (Fallible.throw e : Fallible ε τ α) Q E :=
  fun s t hst => .error (h s t hst)

theorem panic (y : Fallible ε τ α) : Shadowed P (Fallible.panic : Fallible ε σ α) y Q E :=
  fun _ t _ => .panic (y t)

/-- The sequencing rule. -/
theorem bind {M : σ → τ → Prop} {x : Fallible ε σ α} {y : Fallible ε τ α} {f : α → Fallible ε σ β}
    {g : α → Fallible ε τ β} (hx : Shadowed P x y M E) (hf : ∀ a, Shadowed M (f a) (g a) Q E) :
    Shadowed P (x >>= f) (y >>= g) Q E := by
  intro s t hst
  have h := hx s t hst
  rw [bind_apply, bind_apply]
  generalize x s = o at h
  generalize y t = o' at h
  cases h with
  | ok h => exact hf _ _ _ h
  | error h => exact .error h
  | panic => exact .panic _
  | diverge => exact .diverge

theorem map {x : Fallible ε σ α} {y : Fallible ε τ α} {f : α → β} (h : Shadowed P x y Q E) :
    Shadowed P (f <$> x) (f <$> y) Q E := by
  rw [map_eq_pure_bind, map_eq_pure_bind]
  exact bind h fun _ => pure fun _ _ => id

theorem ite {p : Prop} [Decidable p] {x x' : Fallible ε σ α} {y y' : Fallible ε τ α}
    (hx : p → Shadowed P x y Q E) (hx' : ¬p → Shadowed P x' y' Q E) :
    Shadowed P (if p then x else x') (if p then y else y') Q E := by
  by_cases hp : p
  · rw [if_pos hp, if_pos hp]
    exact hx hp
  · rw [if_neg hp, if_neg hp]
    exact hx' hp

/-- A computation that looks at its state. -/
theorem get_bind {f : σ → Fallible ε σ α} {g : τ → Fallible ε τ α}
    (h : ∀ s t, P s t → Shadowed P (f s) (g t) Q E) :
    Shadowed P (get >>= f) (get >>= g) Q E := fun s t hst => h s t hst s t hst

/-- What the second run finds is what the first one finds, when that one finds anything. -/
theorem unwrap_bind {o o' : Option α} {f : α → Fallible ε σ β} {g : α → Fallible ε τ β}
    (ho : ∀ a, o = some a → o' = some a) (h : ∀ a, o = some a → Shadowed P (f a) (g a) Q E) :
    Shadowed P (unwrap o >>= f) (unwrap o' >>= g) Q E := by
  cases o with
  | none => exact panic _
  | some a =>
      rw [ho a rfl]
      exact h a rfl

theorem modify {f : σ → σ} {g : τ → τ} (h : ∀ s t, P s t → Q (f s) (g t)) :
    Shadowed P (Fallible.modify f : Fallible ε σ Unit) (Fallible.modify g : Fallible ε τ Unit)
      Q E :=
  fun s t hst => .ok (h s t hst)

theorem set {s' : σ} {t' : τ} (h : Q s' t') :
    Shadowed P (Fallible.set s' : Fallible ε σ Unit) (Fallible.set t' : Fallible ε τ Unit) Q E :=
  fun _ _ _ => .ok h

end Shadowed

namespace Follows

variable {R : σ → σ → Prop}

theorem pure (a : α) : Follows R (Pure.pure a : Fallible ε σ α) := Shadowed.pure fun _ _ => id

theorem throw (e : ε) : Follows R (Fallible.throw e : Fallible ε σ α) :=
  Shadowed.throw fun _ _ => id

theorem assert (p : Prop) [Decidable p] : Follows R (Fallible.assert p : Fallible ε σ Unit) :=
  Shadowed.ite (fun _ => pure ()) fun _ => Shadowed.panic _

theorem unwrap (o : Option α) : Follows R (Fallible.unwrap o : Fallible ε σ α) := by
  cases o with
  | none => exact Shadowed.panic _
  | some a => exact pure a

theorem okOr (o : Option α) (e : ε) : Follows R (Fallible.okOr o e : Fallible ε σ α) := by
  cases o with
  | none => exact throw e
  | some a => exact pure a

end Follows

end Fallible
