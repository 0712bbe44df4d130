import ProcessNet.Net.Edit

/-!
Flat descriptions of nets for exchange: places with token counts, transitions with optional labels,
and one list of arcs. A transition is visible exactly when it carries a label; guards, variables and
labels of places are not part of a description. Describing a net lists, for each transition in order,
its input arcs before its output arcs. Building a net from a description goes through the ordinary
edits, so whatever they refuse is refused here.
-/

namespace ProcessNet

inductive ArcDirection
  | placeToTransition
  | transitionToPlace
deriving DecidableEq

structure Arc where
  place : PlaceId
  transition : TransitionId
  direction : ArcDirection
deriving DecidableEq

structure PlaceDescription where
  id : PlaceId
  tokens : Nat
deriving DecidableEq

structure TransitionDescription where
  id : TransitionId
  label : Option String
deriving DecidableEq

structure Description where
  places : List PlaceDescription
  transitions : List TransitionDescription
  arcs : List Arc
deriving DecidableEq

namespace Description

/-- One token on every place that has an arc but none in the excluded direction. -/
def boundaryMarking (d : Description) (excluded : ArcDirection) : Marking :=
  let connected := d.places.filter fun p => d.arcs.any (·.place = p.id)
  .ofList <| connected.map fun p =>
    let touched := d.arcs.any fun a => a.place = p.id && a.direction = excluded
    (p.id, if touched then 0 else 1)

/-- One token on every place without incoming arc. -/
def initialMarking (d : Description) : Marking := d.boundaryMarking .transitionToPlace

/-- One token on every place without outgoing arc. -/
def finalMarking (d : Description) : Marking := d.boundaryMarking .placeToTransition

end Description

namespace TransitionDescription

/-- Without a label the transition is silent and takes its id for one. -/
def transition (d : TransitionDescription) : Transition :=
  match d.label with
  | some label => .bare d.id label true
  | none => .silent d.id

end TransitionDescription

namespace Transition

def describe (t : Transition) : TransitionDescription :=
  ⟨t.id, if t.visible then some t.label else none⟩

def arcs (t : Transition) : List Arc :=
  t.inputs.toList.map (⟨·, t.id, .placeToTransition⟩) ++
    t.outputs.toList.map (⟨·, t.id, .transitionToPlace⟩)

end Transition

namespace Net

def describe (net : Net) : Description where
  places := net.places.values.map fun p => ⟨p.id, p.tokens⟩
  transitions := net.transitions.values.map Transition.describe
  arcs := net.transitions.values.flatMap Transition.arcs

end Net

namespace Edit

def addArc (a : Arc) : Edit Unit :=
  match a.direction with
  | .placeToTransition => addInputArc a.place a.transition
  | .transitionToPlace => addOutputArc a.transition a.place

/-- Places, then transitions, then arcs, each in order; places get empty labels. -/
def addDescription (d : Description) : Edit Unit := do
  d.places.forM fun p => discard (addPlace ⟨p.id, "", p.tokens⟩)
  d.transitions.forM fun t => discard (addTransition t.transition)
  d.arcs.forM addArc

end Edit

def Net.ofDescription (d : Description) : Except NetError Net := Edit.build (Edit.addDescription d)

end ProcessNet
