import ProcessNet.Execution.Voting

/-!
Bounded runs: steps are taken until one fires nothing or the bound is reached. The step that fires
nothing ends the run and is not part of the trace. A fault in a step ends the run where it stands.
-/

namespace ProcessNet

/-- The number of steps that fired something, what fired in each, and the marking at the end. -/
structure Trace where
  steps : Nat
  fired : List (List TransitionId)
  final : Marking

namespace Run

/-- At most `bound` more steps; the steps so far are counted, and what they fired is given with the
latest first. -/
def stepsUntilStill (words : Words) : (bound steps : Nat) → List (List TransitionId) →
    Run (Nat × List (List TransitionId))
  | 0, steps, earlier => return (steps, earlier.reverse)
  | bound + 1, steps, earlier => do
    let fired ← step words
    if fired.isEmpty then return (steps, earlier.reverse)
    else stepsUntilStill words bound (steps + 1) (fired :: earlier)

def simulate (bound : Nat) (words : Words) : Run Trace := do
  let (steps, fired) ← stepsUntilStill words bound 0 []
  record (.simulated steps)
  return ⟨steps, fired, (← net).marking⟩

end Run

end ProcessNet
