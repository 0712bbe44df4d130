import ProcessNet.Pattern.Basic
import ProcessNet.Reduction.Prune

/-!
Reduction of the net of a pattern, in one pass or until nothing is left to remove. Activity names of
removed transitions are forgotten. A token count at its capacity can stop the reduction half way; the
pattern then keeps all its names.
-/

namespace ProcessNet.Pattern

/-- How a reduction ended: its report or its fault, the pattern it left and what it recorded. -/
structure Pruning where
  report : Except Fault PruneReport
  pattern : Pattern
  journal : Array Event

/-- Leaves out the names of transitions that the net does not have. -/
def forgetRemoved (pattern : Pattern) : Pattern :=
  { pattern with activities :=
      pattern.activities.filter fun t _ => pattern.net.transitions.contains t }

def prune (pattern : Pattern) (exhaustive : Bool) : Pruning :=
  let passes := if exhaustive then Run.pruneExhaustively else Run.prune
  match passes.run (.start pattern.net) with
  | .error fault s => ⟨.error fault, { pattern with net := s.net }, s.journal⟩
  | .ok report s =>
    let size := Event.patternPruned s.net.places.size s.net.transitions.size
    ⟨.ok report, forgetRemoved { pattern with net := s.net }, s.journal.push size⟩

end ProcessNet.Pattern
