import SpaceWasm.Lib.Fallible

/-!
# Runs that agree until a refusal

`y` goes as `x` does until it fails with an error and in a state that `P` allows. Up to
there the two pass through the same states, so that what was proved of `x` holds of `y`.
-/

namespace Fallible

variable {ε ε' σ α β : Type} {P : ε → σ → Prop}

def AgreesUntil (P : ε → σ → Prop) (x y : Fallible ε σ α) : Prop :=
  ∀ s, y s = x s ∨ ∃ e t, y s = .error e t ∧ P e t

namespace AgreesUntil

theorem refl (x : Fallible ε σ α) : AgreesUntil P x x := fun _ => .inl rfl

theorem bind {x y : Fallible ε σ α} {f g : α → Fallible ε σ β} (hx : AgreesUntil P x y)
    (hf : ∀ a, AgreesUntil P (f a) (g a)) : AgreesUntil P (x >>= f) (y >>= g) := by
  intro s
  obtain hs | ⟨e, t, hs, he⟩ := hx s
  · rw [bind_apply, bind_apply, hs]
    cases x s with
    | ok a t => exact hf a t
    | error | panic | diverge => exact .inl rfl
  · exact .inr ⟨e, t, bind_of_error hs, he⟩

/-- The two begin alike. -/
theorem bind_left (x : Fallible ε σ α) {f g : α → Fallible ε σ β}
    (hf : ∀ a, AgreesUntil P (f a) (g a)) : AgreesUntil P (x >>= f) (x >>= g) :=
  bind (refl x) hf

theorem ite {p : Prop} [Decidable p] {x x' y y' : Fallible ε σ α} (hx : AgreesUntil P x y)
    (hx' : AgreesUntil P x' y') : AgreesUntil P (if p then x else x') (if p then y else y') := by
  split
  · exact hx
  · exact hx'

theorem iterate {x y : Fallible ε σ Unit} (h : AgreesUntil P x y) (n : Nat) :
    AgreesUntil P (Fallible.iterate n x) (Fallible.iterate n y) := by
  induction n with
  | zero => exact refl _
  | succ n ih => exact bind h fun _ => ih

theorem mapError {P' : ε' → σ → Prop} {f : ε → ε'} {x y : Fallible ε σ α} (h : AgreesUntil P x y)
    (hP : ∀ e s, P e s → P' (f e) s) :
    AgreesUntil P' (Fallible.mapError f x) (Fallible.mapError f y) := by
  intro s
  unfold Fallible.mapError
  obtain hs | ⟨e, t, hs, he⟩ := h s
  · exact .inl (by rw [hs])
  · exact .inr ⟨f e, t, by rw [hs], hP e t he⟩

end AgreesUntil

end Fallible
