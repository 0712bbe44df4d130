import ProcessNet.Execution.Journal
import ProcessNet.Net.Basic

/-!
A net as a short text listing of its places and variables, one line each under a heading. Ids and
labels are quoted and values are not.
-/

namespace ProcessNet

namespace Listing

def placeLine (p : Place) : String :=
  "\t<id=" ++ Text.quoted p.id.name ++ ",label=" ++ Text.quoted p.label ++ ",tokens=" ++
    toString p.tokens ++ ">"

def variableLine (x : Variable) : String :=
  "\t<name=" ++ Text.quoted x.name ++ ",value=" ++ x.value.elim "unset" Value.text ++ ">"

end Listing

namespace Net

def listing (net : Net) : List String :=
  "Places:" :: (net.places.values.map Listing.placeLine ++
    "Variables:" :: net.vars.values.map Listing.variableLine)

/-- Every line ends with a line break. -/
def display (net : Net) : String := String.join (net.listing.map (· ++ "\n"))

def stateLines (net : Net) : List LogLine := net.listing.map (⟨.info, ·⟩)

end Net

end ProcessNet
