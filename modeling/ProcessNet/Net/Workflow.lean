import ProcessNet.Name.Fresh
import ProcessNet.Net.Basic

/-!
Workflow nets: exactly one source and exactly one sink. A source feeds a transition and is fed by
none, a sink the other way round, and a place without arcs is neither. A net with several sources or
sinks is normalised by one new place in front of or behind them, joined to each by a silent
transition. New elements take names derived from the old ones and made fresh.
-/

namespace ProcessNet

namespace Net

/-- The places that some transition takes from, in order of first use. -/
def consumed (net : Net) : OrderedSet PlaceId :=
  .ofList (net.transitions.values.flatMap (·.inputs.toList))

/-- The places that some transition puts into, in order of first use. -/
def produced (net : Net) : OrderedSet PlaceId :=
  .ofList (net.transitions.values.flatMap (·.outputs.toList))

def sources (net : Net) : OrderedSet PlaceId := net.consumed.diff net.produced

def sinks (net : Net) : OrderedSet PlaceId := net.produced.diff net.consumed

/-- The only source and the only sink of a net of at least two places. -/
def endpoints? (net : Net) : Option (PlaceId × PlaceId) :=
  match net.sources.toList, net.sinks.toList with
  | [source], [sink] => if 2 ≤ net.places.size then some (source, sink) else none
  | _, _ => none

def isWorkflow (net : Net) : Bool :=
  2 ≤ net.places.size && net.sources.size == 1 && net.sinks.size == 1

def endpoints (net : Net) : Except NetError (PlaceId × PlaceId) :=
  match net.endpoints? with
  | some ends => .ok ends
  | none => .error (.notWorkflowNet net.places.size net.sources.size net.sinks.size)

end Net

/-- Additions to a net that cannot be refused. -/
abbrev Growth := StateM Net

namespace Growth

/-- An unmarked place without label. -/
def freshPlace (base : String) : Growth PlaceId := do
  let taken := (← get).places.keys.map PlaceId.name
  let id : PlaceId := ⟨Name.fresh taken base⟩
  modify fun net => { net with places := net.places.insert id (.blank id) }
  return id

/-- A silent, unguarded transition without arcs. -/
def freshSilent (base : String) : Growth TransitionId := do
  let taken := (← get).transitions.keys.map TransitionId.name
  let id : TransitionId := ⟨Name.fresh taken base⟩
  modify fun net => { net with transitions := net.transitions.insert id (.silent id) }
  return id

def freshVariable (x : Variable) : Growth String := do
  let name := Name.fresh (← get).vars.keys x.name
  modify fun net => { net with vars := net.vars.insert name { x with name := name } }
  return name

/-- Adds arcs between elements that are known to be there. -/
def link (inputs : List PlaceId) (t : TransitionId) (outputs : List PlaceId) : Growth Unit :=
  modify fun net => { net with transitions := net.transitions.modify t fun x =>
    { x with inputs := x.inputs.insertAll inputs, outputs := x.outputs.insertAll outputs } }

/-- A new silent transition between the given places. -/
def route (base : String) (inputs outputs : List PlaceId) : Growth TransitionId := do
  let id ← freshSilent base
  link inputs id outputs
  return id

/-- The names of places, joined by commas. -/
def joined (places : List PlaceId) : String := ",".intercalate (places.map PlaceId.name)

def newSource (old : OrderedSet PlaceId) : Growth PlaceId := do
  let source ← freshPlace (joined old.toList)
  old.toList.forM fun p => discard (route p.name [source] [p])
  return source

def newSink (old : OrderedSet PlaceId) : Growth PlaceId := do
  let sink ← freshPlace (joined old.toList)
  old.toList.forM fun p => discard (route p.name [p] [sink])
  return sink

end Growth

namespace Net

/-- Both sets of ends are those of the net before anything is added. -/
def toWorkflow (net : Net) : Net :=
  let extend : Growth Unit := do
    if 1 < net.sources.size then discard (Growth.newSource net.sources)
    if 1 < net.sinks.size then discard (Growth.newSink net.sinks)
  (extend.run net).2

end Net

end ProcessNet
