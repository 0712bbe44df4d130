import ProcessNet.Error

/-!
Places and their token counts. A count is a natural number with a capacity; what would pass the
capacity is a fault of the run, and taking from an empty place is refused.
-/

namespace ProcessNet

structure Place where
  id : PlaceId
  label : String
  tokens : Nat
deriving DecidableEq

namespace Place

def capacity : Nat := Nat.pow 2 64 - 1

theorem capacity_value : capacity = 18446744073709551615 := by decide

/-- Labelled with its own id. -/
def ofId (id : PlaceId) (tokens : Nat) : Place := ⟨id, id.name, tokens⟩

def blank (id : PlaceId) : Place := ⟨id, "", 0⟩

def add (p : Place) (n : Nat) : Except Fault Place :=
  if capacity < p.tokens + n then .error .overflow
  else .ok { p with tokens := p.tokens + n }

def increment (p : Place) : Except Fault Place := p.add 1

def decrement (p : Place) : Except NetError Place :=
  if p.tokens = 0 then .error (.noToken p.id)
  else .ok { p with tokens := p.tokens - 1 }

def inspect (p : Place) : String :=
  "Place \x7b id: " ++ p.id.inspect ++ ", label: " ++ Text.quoted p.label ++
    ", tokens: " ++ toString p.tokens ++ " \x7d"

end Place

end ProcessNet
