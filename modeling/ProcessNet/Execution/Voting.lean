import ProcessNet.Execution.Draw
import ProcessNet.Execution.Firing

/-!
One step under conflict, place by place. Every marked place votes for one of the transitions that
take from it and whose guard accepts, drawn at random. A transition fires when every one of its inputs
has voted for it, so one that shares an input with a competitor waits until all its inputs agree. The
votes are counted before any transition fires, and the transitions fire in the order of their first
vote.
-/

namespace ProcessNet

abbrev Votes := OrderedMap TransitionId Nat

namespace Votes

def count (votes : Votes) (t : TransitionId) : Nat := (votes.get? t).getD 0

def cast (votes : Votes) (t : TransitionId) : Votes := votes.insert t (votes.count t + 1)

end Votes

namespace Run

def vote (words : Words) (votes : Votes) (place : Place) : Run Votes := do
  let net ← net
  let candidates ← ofExcept (net.accepting (net.consumers place.id))
  match ← drawFrom words candidates with
  | some chosen => return votes.cast chosen
  | none => return votes

def collectVotes (words : Words) : Run Votes := do
  let marked := (← net).places.values.filter (0 < ·.tokens)
  marked.foldlM (vote words) ∅

/-- Whether a count of votes is enough for a transition of the net. -/
def commits (net : Net) (t : TransitionId) (count : Nat) : Bool :=
  (net.transition? t).any (·.inputs.size ≤ count)

/-- The transitions that fired, in order. -/
def step (words : Words) : Run (List TransitionId) := do
  let votes ← collectVotes words
  let committed := (votes.filter (commits (← net))).keys
  committed.forM fire
  return committed

end Run

end ProcessNet
