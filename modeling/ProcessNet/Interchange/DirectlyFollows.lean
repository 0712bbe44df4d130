import ProcessNet.Net.Edit
import ProcessNet.Net.Workflow

/-!
Nets from pairs of activities of which the second was seen to follow the first directly. Every
activity becomes a visible transition and every distinct pair a place between its two activities. An
activity that follows none gets a place in front of it, and one that none follows a place behind it.
The names of these places are made from the activities' names and made fresh, since activity names
may themselves look like them.
-/

namespace ProcessNet

namespace Edit

/-- Growth is an edit that is never refused. -/
def grow {α : Type} (work : Growth α) : Edit α := fun net =>
  let (answer, net) := work.run net
  .ok answer net

def addActivity (name : String) : Edit Unit :=
  discard (addTransition (.bare ⟨name⟩ name true))

def addFollows (pair : String × String) : Edit Unit := do
  let place ← grow (Growth.freshPlace (pair.1 ++ "->" ++ pair.2))
  addOutputArc ⟨pair.1⟩ place
  addInputArc place ⟨pair.2⟩

/-- The places at the boundary that an activity needs, given the pairs. -/
def addBoundary (pairs : List (String × String)) (name : String) : Edit Unit := do
  if !pairs.any (·.2 = name) then
    addInputArc (← grow (Growth.freshPlace (">" ++ name))) ⟨name⟩
  if !pairs.any (·.1 = name) then
    addOutputArc ⟨name⟩ (← grow (Growth.freshPlace (name ++ ">")))

end Edit

/-- Activities come in order of first appearance, and repeated pairs count once. -/
def Net.ofDirectlyFollows (pairs : List (String × String)) : Except NetError Net :=
  let pairs := (OrderedSet.ofList pairs).toList
  let activities := (OrderedSet.ofList (pairs.flatMap fun p => [p.1, p.2])).toList
  Edit.build do
    activities.forM Edit.addActivity
    pairs.forM Edit.addFollows
    activities.forM (Edit.addBoundary pairs)

end ProcessNet
