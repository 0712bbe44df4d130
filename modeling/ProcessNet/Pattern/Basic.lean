import ProcessNet.Net.Workflow

/-!
Activity patterns: workflow nets whose visible transitions carry names of activities. A pattern is
made from a net by normalising it and checking the names; it remembers the one source and the one
sink. Names may be given to silent transitions as well, but only to transitions that the net has.
-/

namespace ProcessNet

abbrev Activities := OrderedMap TransitionId String

/-- How activity names are assigned when a pattern is made. -/
inductive Labels
  | uniform (name : String)
  | perTransition (names : Activities)

structure Pattern where
  net : Net
  activities : Activities
  source : PlaceId
  sink : PlaceId

namespace Labels

/-- A uniform name goes to every transition of the net as it was given, not to those that
normalisation adds. -/
def activities (net : Net) : Labels → Activities
  | uniform name => net.transitions.mapValues fun _ _ => name
  | perTransition names => names

end Labels

namespace Pattern

def normalised (net : Net) : Net := if net.isWorkflow then net else net.toWorkflow

/-- The ends are looked for first, then names of unknown transitions, then visible transitions
without a name. -/
def ofNet (net : Net) (labels : Labels) : Except NetError Pattern := do
  let activities := labels.activities net
  let net := normalised net
  let (source, sink) ← net.endpoints
  if let some unknown := activities.keys.find? fun t => !net.transitions.contains t then
    throw (.unknownReference .transition unknown.name)
  if let some unnamed :=
      net.transitions.values.find? fun t => t.visible && !activities.contains t.id then
    throw (.missingActivity unnamed.id)
  return ⟨net, activities, source, sink⟩

def activity? (pattern : Pattern) (t : TransitionId) : Option String := pattern.activities.get? t

def zeroMarking (pattern : Pattern) : Marking := ⟨pattern.net.places.mapValues fun _ _ => 0⟩

/-- One token on the source and none elsewhere. -/
def initialMarking (pattern : Pattern) : Marking := pattern.zeroMarking.set pattern.source 1

/-- One token on the sink and none elsewhere. -/
def finalMarking (pattern : Pattern) : Marking := pattern.zeroMarking.set pattern.sink 1

end Pattern

end ProcessNet
