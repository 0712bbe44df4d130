import ProcessNet.Net.Basic

/-!
Editing a net. An edit either answers or is refused, and in both cases shows the net it leaves; each
one checks all its arguments before it changes anything, so a refusal leaves the net as it was. The
checks come in a fixed order, which decides the cause that is reported when several apply: for an arc
the place before the transition, for a new transition its id, then its arcs, then the variables of
its guard.
-/

namespace ProcessNet

abbrev Edit := EStateM NetError Net

namespace Edit

def requirePlace (p : PlaceId) : Edit Unit := do
  if !(← get).places.contains p then throw (.unknownReference .place p.name)

def requireTransition (t : TransitionId) : Edit Unit := do
  if !(← get).transitions.contains t then throw (.unknownReference .transition t.name)

def requireVariable (name : String) : Edit Unit := do
  if !(← get).vars.contains name then throw (.unknownReference .variable name)

def addPlace (p : Place) : Edit PlaceId := do
  if (← get).places.contains p.id then throw (.duplicateIdentifier .place p.id.name)
  modify fun net => { net with places := net.places.insert p.id p }
  return p.id

/-- Arcs that the transition brings along must end at places of the net, and its guard may read only
variables of the net. -/
def addTransition (t : Transition) : Edit TransitionId := do
  if (← get).transitions.contains t.id then
    throw (.duplicateIdentifier .transition t.id.name)
  t.inputs.toList.forM requirePlace
  t.outputs.toList.forM requirePlace
  t.guard.reads.forM requireVariable
  modify fun net => { net with transitions := net.transitions.insert t.id t }
  return t.id

/-- A value that the variable already has must be valid for it. -/
def addVariable (x : Variable) : Edit String := do
  if (← get).vars.contains x.name then throw (.duplicateIdentifier .variable x.name)
  if let some v := x.value then
    if let some reason := x.unsuitable? v then throw (.invalidValue x.name reason)
  modify fun net => { net with vars := net.vars.insert x.name x }
  return x.name

def updateTransition (t : TransitionId) (f : Transition → Transition) : Edit Unit := do
  requireTransition t
  modify fun net => { net with transitions := net.transitions.modify t f }

/-- Further calls for one transition add further arcs. -/
def connect (input : PlaceId) (t : TransitionId) (output : PlaceId) : Edit Unit := do
  requirePlace input
  requirePlace output
  updateTransition t fun x =>
    { x with inputs := x.inputs.insert input, outputs := x.outputs.insert output }

def addInputArc (p : PlaceId) (t : TransitionId) : Edit Unit := do
  requirePlace p
  updateTransition t fun x => { x with inputs := x.inputs.insert p }

def addOutputArc (t : TransitionId) (p : PlaceId) : Edit Unit := do
  requirePlace p
  updateTransition t fun x => { x with outputs := x.outputs.insert p }

def setGuard (t : TransitionId) (g : Guard) : Edit Unit := do
  g.reads.forM requireVariable
  updateTransition t fun x => { x with guard := g }

def setVariable (name : String) (v : Value) : Edit Unit := do
  let some x := (← get).namedVariable? name | throw (.unknownReference .variable name)
  if let some reason := x.unsuitable? v then throw (.invalidValue x.name reason)
  modify fun net =>
    { net with vars := net.vars.modify name fun x => { x with value := some v } }

/-- Places that the marking does not list keep their tokens. -/
def setMarking (m : Marking) : Edit Unit := do
  m.entries.forM fun e => requirePlace e.1
  modify fun net => { net with
    places := net.places.mapValues fun p x => { x with tokens := (m.counts.get? p).getD x.tokens } }

/-- The net that edits make of an empty one. -/
def build (edits : Edit Unit) : Except NetError Net :=
  match edits.run ∅ with
  | .ok _ net => .ok net
  | .error e _ => .error e

end Edit

end ProcessNet
