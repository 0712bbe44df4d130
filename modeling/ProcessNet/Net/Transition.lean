import ProcessNet.Collections.OrderedSet
import ProcessNet.Data.Guard

/-!
Transitions. The arcs of a net are stored with its transitions, as the ordered sets of the places
they take from and put into; what surrounds a place is read off from them. A transition is identified
by its id alone.
-/

namespace ProcessNet

structure Transition where
  id : TransitionId
  label : String
  visible : Bool
  guard : Guard
  inputs : OrderedSet PlaceId
  outputs : OrderedSet PlaceId

namespace Transition

/-- Equality looks at the id alone. -/
instance : BEq Transition := ⟨fun a b => a.id == b.id⟩

/-- Unguarded and without arcs. -/
def bare (id : TransitionId) (label : String) (visible : Bool) : Transition :=
  ⟨id, label, visible, .always, ∅, ∅⟩

/-- An unguarded routing step, labelled with its own id. -/
def silent (id : TransitionId) : Transition := bare id id.name false

def accepts (t : Transition) (vars : Variables) : Except NetError Bool := t.guard.accepts vars

def inspect (t : Transition) : String :=
  "Transition \x7b id: " ++ t.id.inspect ++ ", label: " ++ Text.quoted t.label ++
    ", visible: " ++ (if t.visible then "true" else "false") ++
    ", guard: " ++ t.guard.inspect ++ " \x7d"

end Transition

end ProcessNet
