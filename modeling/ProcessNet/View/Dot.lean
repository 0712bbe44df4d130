import ProcessNet.Net.Basic

/-!
A net as text for Graphviz: a line for every place, then for every transition its line and a line for
each of its arcs, inputs first. Ids and labels stand between double quotes with quotes, backslashes
and line breaks escaped, so that each of them stays within its line. A place shows its tokens when it
has any; silent transitions are drawn black unless their labels are wanted.
-/

namespace ProcessNet

namespace Dot

def escapedChar (c : Char) : List Char :=
  if c = '"' then ['\\', '"']
  else if c = '\\' then ['\\', '\\']
  else if c = '\n' then ['\\', 'n']
  else [c]

def escaped (s : String) : String := String.ofList (s.toList.flatMap escapedChar)

def placeNode (p : PlaceId) : String := "\"place_" ++ escaped p.name ++ "\""

def transitionNode (t : TransitionId) : String := "\"transition_" ++ escaped t.name ++ "\""

def placeLine (p : Place) : String :=
  let tokens := if p.tokens = 0 then "" else toString p.tokens
  "\t" ++ placeNode p.id ++ " [label=\"" ++ tokens ++ "\" shape=circle xlabel=\"" ++
    escaped p.label ++ "\"]"

def style (visible showSilentLabels : Bool) : String :=
  match visible, showSilentLabels with
  | true, _ => ""
  | false, true => " style=filled"
  | false, false => " style=filled fillcolor=black"

def transitionLine (showSilentLabels : Bool) (t : Transition) : String :=
  "\t" ++ transitionNode t.id ++ " [label=\"" ++ escaped t.label ++ "\" shape=rectangle" ++
    style t.visible showSilentLabels ++ "]"

def arcLine (source target : String) : String := "\t" ++ source ++ " -> " ++ target

def transitionLines (showSilentLabels : Bool) (t : Transition) : List String :=
  transitionLine showSilentLabels t ::
    (t.inputs.toList.map (fun p => arcLine (placeNode p) (transitionNode t.id)) ++
      t.outputs.toList.map fun p => arcLine (transitionNode t.id) (placeNode p))

end Dot

namespace Net

def dotLines (net : Net) (showSilentLabels : Bool) : List String :=
  "digraph \x7b" ::
    (net.places.values.map Dot.placeLine ++
      net.transitions.values.flatMap (Dot.transitionLines showSilentLabels) ++ ["\x7d"])

/-- Every line ends with a line break. -/
def dot (net : Net) (showSilentLabels : Bool) : String :=
  String.join ((net.dotLines showSilentLabels).map (· ++ "\n"))

end Net

end ProcessNet
