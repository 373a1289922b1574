import SpaceWasm.Interpreter

/-!
# Fuel

`run` takes a number of instructions. Everything it needs from one instruction
to the next is in the engine, so that an execution may be cut anywhere.
-/

namespace SpaceWasm

variable {η : Type}

theorem runRound_ne_outOfFuel (env : ExecEnv η) (e : Engine η) (r : InterpreterResult)
    (e' : Engine η) (h : runRound env e = some (some r, e')) : r ≠ .outOfFuel := by
  rintro rfl
  unfold runRound at h
  split at h
  · cases h
  · split at h
    · split at h <;> cases h
    · cases h

/-- A caller that runs an execution in slices, as long as they run out of fuel. -/
def runSlices (env : ExecEnv η) (fuels : List ℕ) (e : Engine η) :
    Option (InterpreterResult × Engine η) :=
  slicedRun (runRound env) .outOfFuel fuels e

/-- Fuel slicing is invisible: two slices are one run, and so is any list of
slices, with the same outcome and the same engine, its store included. -/
theorem run_slices (env : ExecEnv η) (e : Engine η) :
    (∀ n m, run env (n + m) e = (run env n e).bind fun p =>
      if p.1 = .outOfFuel then run env m p.2 else some p) ∧
    (∀ fuels, runSlices env fuels e = run env fuels.sum e) := by
  constructor
  · intro n m
    exact boundedRun_add n m e (runRound_ne_outOfFuel env)
  · intro fuels
    exact slicedRun_eq_boundedRun fuels e (runRound_ne_outOfFuel env)

end SpaceWasm
