import ProcessNet.Text.Quoted

/-!
Identifiers of places and of transitions. Both are names, kept apart by type so that a place is never
looked up among the transitions. Names are ordered by code point, which is also the order of their
UTF-8 bytes.
-/

namespace ProcessNet

structure PlaceId where
  name : String
deriving DecidableEq

structure TransitionId where
  name : String
deriving DecidableEq

namespace PlaceId

instance : Ord PlaceId := ⟨fun a b => compare a.name b.name⟩

def inspect (id : PlaceId) : String := "PlaceId(" ++ Text.quoted id.name ++ ")"

end PlaceId

namespace TransitionId

instance : Ord TransitionId := ⟨fun a b => compare a.name b.name⟩

def inspect (id : TransitionId) : String := "TransitionId(" ++ Text.quoted id.name ++ ")"

end TransitionId

end ProcessNet
