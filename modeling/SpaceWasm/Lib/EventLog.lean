import SpaceWasm.Lib.Fallible

/-!
# What a computation has done

A log is a list of events that account for the state, in the sense of an invariant
`I`. The events of a computation are those of its parts, one part after the other, up to
where the computation stops. `Records I x log s` says that `log` is what `x` adds when it
is run in `s`, whether it returns or fails.
-/

namespace Fallible

variable {ε σ α β γ : Type}

/-- The events after `x`, if it returns. -/
def andThen (x : Fallible ε σ α) (log : α → σ → List γ) (s : σ) : List γ :=
  match x s with
  | .ok a t => log a t
  | _ => []

/-- The events of `n` runs of `x`, of which each has those in `log`. -/
def iterateLog (x : Fallible ε σ Unit) (log : σ → List γ) : ℕ → σ → List γ
  | 0, _ => []
  | n + 1, s => log s ++ x.andThen (fun _ => iterateLog x log n) s

variable {I : List γ → σ → Prop} {x : Fallible ε σ α} {f : α → Fallible ε σ β} {log : List γ}
  {s t : σ} {a : α}

theorem andThen_of_ok {log' : α → σ → List γ} (h : x s = .ok a t) :
    x.andThen log' s = log' a t := by
  rw [andThen, h]

/-- The events of a run of `x` from `s` are those in `log`. -/
def Records (I : List γ → σ → Prop) (x : Fallible ε σ α) (log : List γ) (s : σ) : Prop :=
  ∀ before r t, I before s → (x s).result = some (r, t) → I (before ++ log) t

/-- A run that does nothing that counts. -/
theorem Records.nothing (h : ∀ before r t, I before s → (x s).result = some (r, t) → I before t) :
    Records I x [] s := by
  intro before r t hs ht
  rw [List.append_nil]
  exact h before r t hs ht

theorem Records.bind {log' : α → σ → List γ} (hx : Records I x log s)
    (hf : ∀ a t, x s = .ok a t → Records I (f a) (log' a t) t) :
    Records I (x >>= f) (log ++ x.andThen log' s) s := by
  intro before r t hs ht
  have hx := hx before
  rw [bind_apply] at ht
  cases hr : x s with
  | ok a u =>
      rw [hr] at ht hx
      rw [andThen_of_ok hr, ← List.append_assoc]
      exact hf a u hr _ r t (hx (.ok a) u hs rfl) ht
  | error e u =>
      rw [hr] at ht hx
      cases ht
      rw [andThen, hr, List.append_nil]
      exact hx (.error e) t hs rfl
  | panic | diverge =>
      rw [hr] at ht
      cases ht

/-- A first part that does nothing that counts. -/
theorem Records.bind_nothing {log' : α → σ → List γ} (hx : Records I x [] s)
    (hf : ∀ a t, x s = .ok a t → Records I (f a) (log' a t) t) :
    Records I (x >>= f) (x.andThen log' s) s :=
  Records.bind hx hf

theorem Records.mapError {ε' : Type} {g : ε → ε'} (h : Records I x log s) :
    Records I (mapError g x) log s := by
  intro before r t hs ht
  have h := h before
  rw [Fallible.mapError] at ht
  cases hr : x s with
  | ok a u =>
      rw [hr] at ht h
      cases ht
      exact h (.ok a) t hs rfl
  | error e u =>
      rw [hr] at ht h
      cases ht
      exact h (.error e) t hs rfl
  | panic | diverge =>
      rw [hr] at ht
      cases ht

/-- A first part that changes nothing at all. -/
theorem Records.after {log : List γ} (hx : x s = .ok a s) (hf : Records I (f a) log s) :
    Records I (x >>= f) log s := by
  intro before r t hs ht
  rw [bind_of_ok hx] at ht
  exact hf before r t hs ht

/-- A last part that does nothing that counts. -/
theorem Records.then_nothing (hx : Records I x log s)
    (hf : ∀ a t, x s = .ok a t → Records I (f a) [] t) : Records I (x >>= f) log s := by
  have h : Records I (x >>= f) (log ++ x.andThen (fun _ _ => []) s) s := .bind hx hf
  have hnil : x.andThen (fun _ _ => ([] : List γ)) s = [] := by
    rw [andThen]
    cases x s <;> rfl
  rwa [hnil, List.append_nil] at h

/-- A loop over states in `J`. -/
theorem Records.iterate {J : σ → Prop} {x : Fallible ε σ Unit} {log : σ → List γ}
    (h : ∀ s, J s → Records I x (log s) s) (hJ : ∀ s t, J s → x s = .ok () t → J t) (n : ℕ)
    (hs : J s) : Records I (iterate n x) (iterateLog x log n s) s := by
  induction n generalizing s with
  | zero => exact .nothing fun before r t hs ht => by cases ht; exact hs
  | succ n ih => exact .bind (h s hs) fun _ t ht => ih (hJ s t hs ht)

end Fallible
