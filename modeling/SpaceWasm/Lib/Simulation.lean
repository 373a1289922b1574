import SpaceWasm.Lib.Fallible

/-!
# Simulation of one fallible computation by another

`Simulates limit K safe R x y S` compares a concrete computation `x` with an
abstract one `y` from related states. When `x` returns, `y` returns too and the
final states and values are related by `S`. When `x` fails, either `y` fails as
well, or the error is one of the `limit`s that only the concrete side has; the
state it leaves satisfies `K`. The concrete side does not diverge, and it does not
panic when `safe` holds.

So `x` succeeds exactly where `y` does, up to the limits.
-/

namespace Fallible

variable {ε ε' σ τ α β γ δ : Type}

def Simulates (limit : ε → Prop) (K : σ → Prop) (safe : Prop) (R : σ → τ → Prop)
    (x : Fallible ε σ α)
    (y : Fallible ε' τ β) (S : α → β → σ → τ → Prop) : Prop :=
  ∀ s t, R s t →
    match x s with
    | .ok a s' => ∃ b t', y t = .ok b t' ∧ S a b s' t'
    | .error e s' => K s' ∧ (limit e ∨ ∃ e' t', y t = .error e' t')
    | .panic => ¬safe
    | .diverge => False

variable {limit : ε → Prop} {K : σ → Prop} {safe : Prop} {R : σ → τ → Prop}

theorem Simulates.pure {a : α} {b : β} {S : α → β → σ → τ → Prop} (h : ∀ s t, R s t → S a b s t) :
    Simulates limit K safe R (Pure.pure a : Fallible ε σ α) (Pure.pure b : Fallible ε' τ β) S :=
  fun s t hst => ⟨b, t, rfl, h s t hst⟩

/-- Both sides fail. -/
theorem Simulates.throw {e : ε} {e' : ε'} {S : α → β → σ → τ → Prop}
    (hK : ∀ s t, R s t → K s) :
    Simulates limit K safe R (Fallible.throw e : Fallible ε σ α)
      (Fallible.throw e' : Fallible ε' τ β)
      S :=
  fun s t hst => ⟨hK s t hst, Or.inr ⟨e', t, rfl⟩⟩

/-- The concrete side fails with a limit. -/
theorem Simulates.throw_limit {e : ε} {y : Fallible ε' τ β} {S : α → β → σ → τ → Prop}
    (he : limit e) (hK : ∀ s t, R s t → K s) :
    Simulates limit K safe R (Fallible.throw e : Fallible ε σ α) y S :=
  fun s t hst => ⟨hK s t hst, Or.inl he⟩

/-- The sequencing rule. -/
theorem Simulates.bind {x : Fallible ε σ α} {y : Fallible ε' τ β} {f : α → Fallible ε σ γ}
    {g : β → Fallible ε' τ δ} {M : α → β → σ → τ → Prop} {S : γ → δ → σ → τ → Prop}
    (hx : Simulates limit K safe R x y M)
    (hf : ∀ a b, Simulates limit K safe (M a b) (f a) (g b) S) :
    Simulates limit K safe R (x >>= f) (y >>= g) S := by
  intro s t hst
  have h := hx s t hst
  rw [bind_apply]
  cases hs : x s with
  | ok a s' =>
      rw [hs] at h
      obtain ⟨b, t', ht, hM⟩ := h
      have h' := hf a b s' t' hM
      simp only
      rw [bind_of_ok ht]
      exact h'
  | error e s' =>
      rw [hs] at h
      obtain ⟨hK, hl | ⟨e', t', ht⟩⟩ := h
      · exact ⟨hK, Or.inl hl⟩
      · exact ⟨hK, Or.inr ⟨e', t', bind_of_error ht⟩⟩
  | panic => rw [hs] at h; exact h
  | diverge => rw [hs] at h; exact h

/-- A step of the concrete side alone. -/
theorem Simulates.left {x : Fallible ε σ α} {f : α → Fallible ε σ γ} {y : Fallible ε' τ δ}
    {M : α → σ → τ → Prop} {S : γ → δ → σ → τ → Prop}
    (hx : Simulates limit K safe R x (Pure.pure () : Fallible ε' τ Unit) fun a _ => M a)
    (hf : ∀ a, Simulates limit K safe (M a) (f a) y S) :
    Simulates limit K safe R (x >>= f) y S := by
  have h := Simulates.bind (g := fun _ => y) hx fun a _ => hf a
  rwa [pure_bind] at h

/-- The abstract side looks at its state. -/
theorem Simulates.gets_right {x : Fallible ε σ γ} {f : τ → β} {g : β → Fallible ε' τ δ}
    {S : γ → δ → σ → τ → Prop} (h : ∀ b, Simulates limit K safe R x (g b) S) :
    Simulates limit K safe R x (Fallible.gets f >>= g) S := by
  intro s t hst
  rw [bind_of_ok (gets_apply f t)]
  exact h (f t) s t hst

/-- The rule of consequence. -/
theorem Simulates.weaken {R' : σ → τ → Prop} {x : Fallible ε σ α} {y : Fallible ε' τ β}
    {S S' : α → β → σ → τ → Prop} (h : Simulates limit K safe R x y S) (hR : ∀ s t, R' s t → R s t)
    (hS : ∀ a b s t, S a b s t → S' a b s t) : Simulates limit K safe R' x y S' := by
  intro s t hst
  have := h s t (hR s t hst)
  cases hs : x s <;> rw [hs] at this
  · obtain ⟨b, t', ht, hS'⟩ := this
    exact ⟨b, t', ht, hS _ _ _ _ hS'⟩
  · exact this
  · exact this
  · exact this

theorem Simulates.ite {p q : Prop} [Decidable p] [Decidable q] {x x' : Fallible ε σ α}
    {y y' : Fallible ε' τ β} {S : α → β → σ → τ → Prop} (hpq : p ↔ q)
    (hx : p → Simulates limit K safe R x y S) (hx' : ¬p → Simulates limit K safe R x' y' S) :
    Simulates limit K safe R (if p then x else x') (if q then y else y') S := by
  by_cases hp : p
  · rw [if_pos hp, if_pos (hpq.1 hp)]
    exact hx hp
  · rw [if_neg hp, if_neg (mt hpq.2 hp)]
    exact hx' hp

/-- The concrete side gives up in one case. -/
theorem Simulates.ite_limit {p : Prop} [Decidable p] {e : ε} {x : Fallible ε σ α}
    {y : Fallible ε' τ β} {S : α → β → σ → τ → Prop} (he : limit e)
    (hK : ∀ s t, R s t → K s) (hx : ¬p → Simulates limit K safe R x y S) :
    Simulates limit K safe R (if p then Fallible.throw e else x) y S := by
  by_cases hp : p
  · rw [if_pos hp]
    exact Simulates.throw_limit he hK
  · rw [if_neg hp]
    exact hx hp

/-- Both sides read a value that is the same on both. -/
theorem Simulates.okOr {o : Option α} {e : ε} {e' : ε'} {S : α → α → σ → τ → Prop}
    (hK : ∀ s t, R s t → K s) (hS : ∀ a s t, o = some a → R s t → S a a s t) :
    Simulates limit K safe R (Fallible.okOr o e) (Fallible.okOr o e' : Fallible ε' τ α) S := by
  cases o with
  | none => exact Simulates.throw hK
  | some a => exact Simulates.pure fun s t hst => hS a s t rfl hst

/-- An invariant of the abstract side alone. -/
theorem Simulates.strengthen {x : Fallible ε σ α} {y : Fallible ε' τ β}
    {S : α → β → σ → τ → Prop} {I J : τ → Prop} (h : Simulates limit K safe R x y S)
    (hI : ∀ s t a s' b t', R s t → I t → y t = .ok b t' → S a b s' t' → J t') :
    Simulates limit K safe (fun s t => R s t ∧ I t) x y fun a b s t => S a b s t ∧ J t := by
  rintro s t ⟨hst, hIt⟩
  have hx := h s t hst
  cases hs : x s <;> rw [hs] at hx
  · obtain ⟨b, t', ht, hS⟩ := hx
    exact ⟨b, t', ht, hS, hI s t _ _ b t' hst hIt ht hS⟩
  · exact hx
  · exact hx
  · exact hx

theorem Simulates.ok {x : Fallible ε σ α} {y : Fallible ε' τ β} {S : α → β → σ → τ → Prop}
    (h : Simulates limit K safe R x y S) {s s' : σ} {t : τ} {a : α} (hst : R s t)
    (hx : x s = .ok a s') : ∃ b t', y t = .ok b t' ∧ S a b s' t' := by
  have := h s t hst
  rwa [hx] at this

end Fallible
