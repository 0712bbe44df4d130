import ProcessNet.Net.Basic

/-!
A net as a directed graph: first its places, then its transitions, each with what a picture needs to
show, and an edge for every arc in the direction in which tokens flow. Edges refer to nodes by their
position. An arc whose place the net does not have is left out.
-/

namespace ProcessNet

inductive Node
  | place (id : PlaceId) (label : String) (tokens : Nat)
  | transition (id : TransitionId) (label : String) (visible : Bool)
deriving DecidableEq

structure Graph where
  nodes : List Node
  edges : List (Nat × Nat)
deriving DecidableEq

namespace Graph

/-- The edges of one transition, which stands at the given position. -/
def transitionEdges (places : List PlaceId) (t : Transition) (position : Nat) : List (Nat × Nat) :=
  let places := places.zipIdx
  let position? p := (places.find? (·.1 = p)).map Prod.snd
  t.inputs.toList.filterMap (fun p => (position? p).map (·, position)) ++
    t.outputs.toList.filterMap (fun p => (position? p).map (position, ·))

end Graph

namespace Net

def graph (net : Net) : Graph :=
  let places := net.places.values
  let transitions := net.transitions.values
  let ids := places.map Place.id
  { nodes := places.map (fun p => .place p.id p.label p.tokens) ++
      transitions.map fun t => .transition t.id t.label t.visible
    edges := (transitions.zipIdx places.length).flatMap fun e =>
      Graph.transitionEdges ids e.1 e.2 }

end Net

end ProcessNet
