import Mathlib.Algebra.BigOperators.Group.List.Basic
import Mathlib.Algebra.Order.Ring.Int

/-!
# Loops with a bound on their rounds

`boundedRun round timeout n` runs `round` at most `n` times. A round goes on or
exits with a result; when the bound is reached the result is `timeout`. All
state is in `σ`, so a run can be cut into slices: `slicedRun` is the caller that
starts the loop again whenever a slice times out. A round may also be undefined,
and then the whole run is.
-/

variable {σ τ ρ : Type}

/-- At most `n` rounds, or `timeout`. -/
def boundedRun (round : σ → Option (Option ρ × σ)) (timeout : ρ) : ℕ → σ → Option (ρ × σ)
  | 0, s => some (timeout, s)
  | n + 1, s =>
      match round s with
      | none => none
      | some (some r, s') => some (r, s')
      | some (none, s') => boundedRun round timeout n s'

/-- Slices of at most the given numbers of rounds, one after the other for as
long as they time out. -/
def slicedRun [DecidableEq ρ] (round : σ → Option (Option ρ × σ)) (timeout : ρ) :
    List ℕ → σ → Option (ρ × σ)
  | [], s => some (timeout, s)
  | n :: ns, s => (boundedRun round timeout n s).bind fun p =>
      if p.1 = timeout then slicedRun round timeout ns p.2 else some p

section

variable {round : σ → Option (Option ρ × σ)} {timeout : ρ}

/-- What relates the states before and after every round relates those of a run. -/
theorem boundedRun_trans {R : σ → σ → Prop} (hrefl : ∀ s, R s s)
    (htrans : ∀ {s t u : σ}, R s t → R t u → R s u)
    (hround : ∀ s r t, round s = some (r, t) → R s t) {n : ℕ} {s s' : σ} {r : ρ}
    (h : boundedRun round timeout n s = some (r, s')) : R s s' := by
  induction n generalizing s with
  | zero =>
      cases h
      exact hrefl _
  | succ n ih =>
      rw [boundedRun] at h
      rcases hs : round s with _ | ⟨_ | r', t⟩
      · rw [hs] at h
        cases h
      · rw [hs] at h
        exact htrans (hround s _ t hs) (ih h)
      · rw [hs] at h
        cases h
        exact hround s _ s' hs

/-- A run that times out can be taken up where it stopped. -/
theorem boundedRun_add_of_timeout {n : ℕ} {s s' : σ} (m : ℕ)
    (hexit : ∀ s r t, round s = some (some r, t) → r ≠ timeout)
    (h : boundedRun round timeout n s = some (timeout, s')) :
    boundedRun round timeout (n + m) s = boundedRun round timeout m s' := by
  induction n generalizing s with
  | zero =>
      simp only [boundedRun, Option.some.injEq, Prod.mk.injEq, true_and] at h
      rw [Nat.zero_add, h]
  | succ n ih =>
      rw [Nat.succ_add]
      rw [boundedRun] at h ⊢
      rcases hround : round s with _ | ⟨_ | r, t⟩
      · rw [hround] at h
        cases h
      · rw [hround] at h
        exact ih h
      · rw [hround] at h
        simp only [Option.some.injEq, Prod.mk.injEq] at h
        exact absurd h.1 (hexit s r t hround)

/-- A run that exits, or is undefined, does not depend on a larger bound. -/
theorem boundedRun_add_of_ne {n : ℕ} {s : σ} (m : ℕ)
    (h : ∀ s', boundedRun round timeout n s ≠ some (timeout, s')) :
    boundedRun round timeout (n + m) s = boundedRun round timeout n s := by
  induction n generalizing s with
  | zero => exact absurd rfl (h s)
  | succ n ih =>
      rw [Nat.succ_add]
      rw [boundedRun] at h
      rw [boundedRun, boundedRun]
      rcases hround : round s with _ | ⟨_ | r, t⟩
      · rfl
      · rw [hround] at h
        exact ih h
      · rfl

theorem boundedRun_add [DecidableEq ρ] (n m : ℕ) (s : σ)
    (hexit : ∀ s r t, round s = some (some r, t) → r ≠ timeout) :
    boundedRun round timeout (n + m) s =
      (boundedRun round timeout n s).bind fun p =>
        if p.1 = timeout then boundedRun round timeout m p.2 else some p := by
  rcases hn : boundedRun round timeout n s with _ | ⟨r, s'⟩
  · rw [boundedRun_add_of_ne m (by simp [hn]), hn]
    rfl
  · by_cases hr : r = timeout
    · subst hr
      rw [boundedRun_add_of_timeout m hexit hn]
      simp
    · have hne : ∀ t, boundedRun round timeout n s ≠ some (timeout, t) := by
        intro t ht
        rw [hn, Option.some.injEq, Prod.mk.injEq] at ht
        exact hr ht.1
      rw [boundedRun_add_of_ne m hne, hn]
      simp [hr]

/-- Slicing is invisible. -/
theorem slicedRun_eq_boundedRun [DecidableEq ρ] (ns : List ℕ) (s : σ)
    (hexit : ∀ s r t, round s = some (some r, t) → r ≠ timeout) :
    slicedRun round timeout ns s = boundedRun round timeout ns.sum s := by
  induction ns generalizing s with
  | nil => rfl
  | cons n ns ih =>
      rw [List.sum_cons, boundedRun_add n ns.sum s hexit, slicedRun]
      rcases boundedRun round timeout n s with _ | ⟨r, s'⟩
      · rfl
      · simp only [ih]

/-- The invariant rule: if every round from a state in `I` is defined, goes on
into `I` or exits into `Q`, then every run from `I` is defined, and ends in `Q`
or times out in `I`. -/
theorem boundedRun_invariant {I : σ → Prop} {Q : ρ → σ → Prop}
    (hround : ∀ s, I s → ∃ r t, round s = some (r, t) ∧
      match r with
      | none => I t
      | some x => Q x t)
    (n : ℕ) {s : σ} (hs : I s) :
    ∃ r t, boundedRun round timeout n s = some (r, t) ∧ (Q r t ∨ r = timeout ∧ I t) := by
  induction n generalizing s with
  | zero => exact ⟨timeout, s, rfl, Or.inr ⟨rfl, hs⟩⟩
  | succ n ih =>
      obtain ⟨r, t, hrt, hr⟩ := hround s hs
      rw [boundedRun, hrt]
      cases r with
      | none => exact ih hr
      | some x => exact ⟨x, t, rfl, Or.inl hr⟩

/-- The same rule for rounds that may be undefined: what a run ends in, if it ends. -/
theorem boundedRun_ends {I : σ → Prop} {Q : ρ → σ → Prop} (htimeout : ∀ s, I s → Q timeout s)
    (hround : ∀ s r t, I s → round s = some (r, t) →
      match r with
      | none => I t
      | some x => Q x t)
    {n : ℕ} {s s' : σ} {r : ρ} (hs : I s) (h : boundedRun round timeout n s = some (r, s')) :
    Q r s' := by
  induction n generalizing s with
  | zero =>
      cases h
      exact htimeout _ hs
  | succ n ih =>
      rw [boundedRun] at h
      rcases hrt : round s with _ | ⟨_ | x, t⟩
      · rw [hrt] at h
        cases h
      · rw [hrt] at h
        exact ih (hround s none t hs hrt) h
      · rw [hrt] at h
        cases h
        exact hround _ (some r) s' hs hrt

/-- The simulation rule: what one loop does in a round, the other does too. -/
theorem boundedRun_simulates {round' : τ → Option (Option ρ × τ)} {R : σ → τ → Prop}
    {Q : ρ → σ → τ → Prop} (htimeout : ∀ s t, R s t → Q timeout s t)
    (hround : ∀ s t r s', R s t → round s = some (r, s') → ∃ t', round' t = some (r, t') ∧
      match r with
      | none => R s' t'
      | some x => Q x s' t')
    {n : ℕ} {s s' : σ} {t : τ} {r : ρ} (hst : R s t)
    (h : boundedRun round timeout n s = some (r, s')) :
    ∃ t', boundedRun round' timeout n t = some (r, t') ∧ Q r s' t' := by
  induction n generalizing s t with
  | zero =>
      cases h
      exact ⟨t, rfl, htimeout _ _ hst⟩
  | succ n ih =>
      rw [boundedRun] at h
      rcases hrs : round s with _ | ⟨_ | x, u⟩
      · rw [hrs] at h
        cases h
      · rw [hrs] at h
        obtain ⟨u', hrt, hu⟩ := hround s t none u hst hrs
        obtain ⟨t', hrun, ht'⟩ := ih hu h
        refine ⟨t', ?_, ht'⟩
        rw [boundedRun, hrt]
        exact hrun
      · rw [hrs] at h
        cases h
        obtain ⟨t', hrt, ht'⟩ := hround s t (some r) s' hst hrs
        refine ⟨t', ?_, ht'⟩
        rw [boundedRun, hrt]

/-- A run that is undefined comes to a round that is. -/
theorem boundedRun_undefined {n : ℕ} {s : σ} (h : boundedRun round timeout n s = none) :
    ∃ k m t, n = k + (m + 1) ∧ boundedRun round timeout k s = some (timeout, t) ∧
      round t = none := by
  induction n generalizing s with
  | zero => cases h
  | succ n ih =>
      rw [boundedRun] at h
      rcases hs : round s with _ | ⟨_ | r, u⟩
      · exact ⟨0, n, s, (Nat.zero_add _).symm, rfl, hs⟩
      · rw [hs] at h
        obtain ⟨k, m, t, rfl, hk, ht⟩ := ih h
        refine ⟨k + 1, m, t, Nat.add_right_comm k (m + 1) 1, ?_, ht⟩
        rw [boundedRun, hs]
        exact hk
      · rw [hs] at h
        cases h

end
