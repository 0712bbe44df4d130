import ProcessNet.Pattern.Basic

/-!
Copying patterns into a common net. The operands of a composition are only read; each is copied
element by element into a net that grows, and a name that is already taken there receives
apostrophes. Places, variables and transitions are renamed apart, guards follow the variables and
activity names follow the transitions. The copy answers with the renaming it used.
-/

namespace ProcessNet

structure Composition where
  net : Net
  activities : Activities

abbrev Compose := StateM Composition

/-- Where each element of an operand went. -/
structure Renaming where
  places : OrderedMap PlaceId PlaceId
  vars : OrderedMap String String
  transitions : OrderedMap TransitionId TransitionId

namespace Renaming

def place (r : Renaming) (p : PlaceId) : PlaceId := (r.places.get? p).getD p

def variableName (r : Renaming) (name : String) : String := (r.vars.get? name).getD name

def transition (r : Renaming) (t : TransitionId) : TransitionId := (r.transitions.get? t).getD t

/-- The copy of a transition under a new id. -/
def copy (r : Renaming) (id : TransitionId) (t : Transition) : Transition where
  id := id
  label := t.label
  visible := t.visible
  guard := t.guard.rename r.variableName
  inputs := t.inputs.map r.place
  outputs := t.outputs.map r.place

end Renaming

namespace Growth

def copyPlaces (places : List Place) : Growth (OrderedMap PlaceId PlaceId) :=
  places.foldlM (fun renamed p => do
    let taken := (← get).places.keys.map PlaceId.name
    let id : PlaceId := ⟨Name.fresh taken p.id.name⟩
    modify fun net => { net with places := net.places.insert id { p with id := id } }
    return renamed.insert p.id id) ∅

def copyVariables (vars : List Variable) : Growth (OrderedMap String String) :=
  vars.foldlM (fun renamed x => do
    let name ← freshVariable x
    return renamed.insert x.name name) ∅

end Growth

namespace Compose

/-- Work on the net alone. -/
def grow {α : Type} (work : Growth α) : Compose α := fun c =>
  let (answer, net) := work.run c.net
  (answer, { c with net := net })

def copyTransition (operand : Pattern) (r : Renaming) (t : Transition) : Compose Renaming := do
  let taken := (← get).net.transitions.keys.map TransitionId.name
  let id : TransitionId := ⟨Name.fresh taken t.id.name⟩
  if let some name := operand.activity? t.id then
    modify fun c => { c with activities := c.activities.insert id name }
  grow (modify fun net => { net with transitions := net.transitions.insert id (r.copy id t) })
  return { r with transitions := r.transitions.insert t.id id }

def absorb (operand : Pattern) : Compose Renaming := do
  let places ← grow (Growth.copyPlaces operand.net.places.values)
  let vars ← grow (Growth.copyVariables operand.net.vars.values)
  operand.net.transitions.values.foldlM (copyTransition operand) ⟨places, vars, ∅⟩

/-- The source and the sink of the copy. -/
def absorbEnds (operand : Pattern) : Compose (PlaceId × PlaceId) := do
  let r ← absorb operand
  return (r.place operand.source, r.place operand.sink)

end Compose

end ProcessNet
