import ProcessNet.Collections.OrderedMap
import ProcessNet.Net.Place

/-!
Markings: token counts by place. A place that is not listed holds nothing, and two markings are equal
when they list the same places with the same counts in any order. The order of the entries is that of
the net the marking was taken from.
-/

namespace ProcessNet

structure Marking where
  counts : OrderedMap PlaceId Nat

namespace Marking

def ofList (entries : List (PlaceId × Nat)) : Marking := ⟨.ofList entries⟩

def entries (m : Marking) : List (PlaceId × Nat) := m.counts.entries

def size (m : Marking) : Nat := m.counts.size

def isEmpty (m : Marking) : Bool := m.counts.isEmpty

def tokens (m : Marking) (p : PlaceId) : Nat := (m.counts.get? p).getD 0

def set (m : Marking) (p : PlaceId) (n : Nat) : Marking := ⟨m.counts.insert p n⟩

/-- All tokens together, if the sum is still a token count. -/
def total (m : Marking) : Except Fault Nat :=
  let sum := m.counts.values.foldr (· + ·) 0
  if Place.capacity < sum then .error .overflow else .ok sum

/-- The order of the entries does not matter. -/
instance : BEq Marking where
  beq m n := m.size == n.size && m.entries.all fun e => n.counts.get? e.1 == some e.2

def inspect (m : Marking) : String :=
  let entry e := Text.quoted e.1.name ++ ": " ++ toString e.2
  "\x7b" ++ ", ".intercalate (m.entries.map entry) ++ "\x7d"

end Marking

end ProcessNet
