import SpaceWasm.Lib.Fallible

/-!
# Two runs that answer alike

`Coupled safe P x y Q E` compares two computations from states that are related by `P`:
both return the same value and leave states related by `Q`, or both fail with the same
error and leave states related by `E`, or both panic, which is excluded when `safe`
holds. It is a relational Hoare triple. Over one computation and equal states it is a
guarded triple.
-/

/-- Two runs end alike. -/
inductive Outcome.Both {ε σ τ α : Type} (safe : Prop) (Q : α → σ → τ → Prop)
    (E : ε → σ → τ → Prop) : Outcome ε σ α → Outcome ε τ α → Prop where
  | ok {a : α} {s : σ} {t : τ} : Q a s t → Both safe Q E (.ok a s) (.ok a t)
  | error {e : ε} {s : σ} {t : τ} : E e s t → Both safe Q E (.error e s) (.error e t)
  | panic : ¬safe → Both safe Q E .panic .panic

theorem Outcome.Both.weaken {ε σ τ α : Type} {safe safe' : Prop} {Q Q' : α → σ → τ → Prop}
    {E E' : ε → σ → τ → Prop} {o : Outcome ε σ α} {o' : Outcome ε τ α} (h : o.Both safe Q E o')
    (hsafe : safe' → safe) (hQ : ∀ a s t, Q a s t → Q' a s t) (hE : ∀ e s t, E e s t → E' e s t) :
    o.Both safe' Q' E' o' := by
  cases h with
  | ok h => exact .ok (hQ _ _ _ h)
  | error h => exact .error (hE _ _ _ h)
  | panic h => exact .panic fun hs => h (hsafe hs)

namespace Fallible

variable {ε σ τ α β : Type} {safe : Prop}

def Coupled (safe : Prop) (P : σ → τ → Prop) (x : Fallible ε σ α) (y : Fallible ε τ α)
    (Q : α → σ → τ → Prop) (E : ε → σ → τ → Prop) : Prop :=
  ∀ s t, P s t → Outcome.Both safe Q E (x s) (y t)

namespace Coupled

variable {P : σ → τ → Prop} {Q : α → σ → τ → Prop} {E : ε → σ → τ → Prop}

/-- The consequence rule. -/
theorem weaken {safe' : Prop} {P' : σ → τ → Prop} {Q' : α → σ → τ → Prop}
    {E' : ε → σ → τ → Prop} {x : Fallible ε σ α} {y : Fallible ε τ α}
    (h : Coupled safe P x y Q E) (hsafe : safe' → safe) (hP : ∀ s t, P' s t → P s t)
    (hQ : ∀ a s t, Q a s t → Q' a s t) (hE : ∀ e s t, E e s t → E' e s t) :
    Coupled safe' P' x y Q' E' := fun s t hst => (h s t (hP s t hst)).weaken hsafe hQ hE

theorem pure {a : α} (h : ∀ s t, P s t → Q a s t) :
    Coupled safe P (Pure.pure a : Fallible ε σ α) (Pure.pure a : Fallible ε τ α) Q E :=
  fun s t hst => .ok (h s t hst)

theorem throw {e : ε} (h : ∀ s t, P s t → E e s t) :
    Coupled safe P (Fallible.throw e : Fallible ε σ α) (Fallible.throw e : Fallible ε τ α) Q E :=
  fun s t hst => .error (h s t hst)

/-- The sequencing rule. -/
theorem bind {M : α → σ → τ → Prop} {Q : β → σ → τ → Prop} {x : Fallible ε σ α}
    {y : Fallible ε τ α} {f : α → Fallible ε σ β} {g : α → Fallible ε τ β}
    (hx : Coupled safe P x y M E) (hf : ∀ a, Coupled safe (M a) (f a) (g a) Q E) :
    Coupled safe P (x >>= f) (y >>= g) Q E := by
  intro s t hst
  have h := hx s t hst
  rw [bind_apply, bind_apply]
  generalize x s = o at h
  generalize y t = o' at h
  cases h with
  | ok h => exact hf _ _ _ h
  | error h => exact .error h
  | panic h => exact .panic h

theorem map {Q : σ → τ → Prop} {x : Fallible ε σ α} {y : Fallible ε τ α} {f : α → β}
    (h : Coupled safe P x y (fun _ => Q) E) :
    Coupled safe P (f <$> x) (f <$> y) (fun _ => Q) E := by
  rw [map_eq_pure_bind, map_eq_pure_bind]
  exact bind h fun _ => pure fun _ _ => id

theorem ite {p : Prop} [Decidable p] {x x' : Fallible ε σ α} {y y' : Fallible ε τ α}
    (hx : p → Coupled safe P x y Q E) (hx' : ¬p → Coupled safe P x' y' Q E) :
    Coupled safe P (if p then x else x') (if p then y else y') Q E := by
  by_cases hp : p
  · rw [if_pos hp, if_pos hp]
    exact hx hp
  · rw [if_neg hp, if_neg hp]
    exact hx' hp

/-- A computation that looks at its state. -/
theorem get_bind {f : σ → Fallible ε σ α} {g : τ → Fallible ε τ α}
    (h : ∀ s t, P s t → Coupled safe (fun s' t' => s' = s ∧ t' = t) (f s) (g t) Q E) :
    Coupled safe P (get >>= f) (get >>= g) Q E := fun s t hst => h s t hst s t ⟨rfl, rfl⟩

/-- A precondition that does not depend on the states. -/
theorem given {p : Prop} {x : Fallible ε σ α} {y : Fallible ε τ α}
    (h : p → Coupled safe P x y Q E) : Coupled safe (fun s t => p ∧ P s t) x y Q E :=
  fun s t hst => h hst.1 s t hst.2

theorem exists_ {ι : Type} {P : ι → σ → τ → Prop} {x : Fallible ε σ α} {y : Fallible ε τ α}
    (h : ∀ i, Coupled safe (P i) x y Q E) : Coupled safe (fun s t => ∃ i, P i s t) x y Q E :=
  fun s t ⟨i, hst⟩ => h i s t hst

theorem modify {f : σ → σ} {g : τ → τ} {Q : σ → τ → Prop} (h : ∀ s t, P s t → Q (f s) (g t)) :
    Coupled safe P (Fallible.modify f : Fallible ε σ Unit) (Fallible.modify g : Fallible ε τ Unit)
      (fun _ => Q) E :=
  fun s t hst => .ok (h s t hst)

theorem set {s' : σ} {t' : τ} {Q : σ → τ → Prop} (h : ∀ s t, P s t → Q s' t') :
    Coupled safe P (Fallible.set s' : Fallible ε σ Unit) (Fallible.set t' : Fallible ε τ Unit)
      (fun _ => Q) E :=
  fun s t hst => .ok (h s t hst)

theorem assert {p q : Prop} [Decidable p] [Decidable q] (hp : p) (hq : q) :
    Coupled safe P (Fallible.assert p : Fallible ε σ Unit) (Fallible.assert q : Fallible ε τ Unit)
      (fun _ => P) E := by
  rw [assert_of hp, assert_of hq]
  exact pure fun _ _ h => h

end Coupled

end Fallible
