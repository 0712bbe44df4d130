import ProcessNet.Execution.Journal
import ProcessNet.Net.Workflow

/-!
A report on how a net hangs together: places and transitions without arcs, and warnings about places
that can never be marked and transitions that lack inputs or outputs. A place without inflow is no
reason to warn when it is marked or when it is the only source of the net.
-/

namespace ProcessNet

inductive Warning
  | neverMarked (place : PlaceId)
  | noInputs (transition : TransitionId)
  | noOutputs (transition : TransitionId)
deriving DecidableEq

def Warning.message : Warning → String
  | .neverMarked p =>
    "place '" ++ p.name ++ "' has no incoming arc and no tokens, it can never be marked"
  | .noInputs t => "transition '" ++ t.name ++ "' has no preset and is always token-enabled"
  | .noOutputs t => "transition '" ++ t.name ++ "' has no postset and only consumes tokens"

structure Connectivity where
  isolatedPlaces : List PlaceId
  isolatedTransitions : List TransitionId
  warnings : List Warning
  places : Nat
  transitions : Nat

def Connectivity.hasIssues (report : Connectivity) : Bool :=
  !report.isolatedPlaces.isEmpty || !report.isolatedTransitions.isEmpty ||
    !report.warnings.isEmpty

namespace Net

def isOnlySource (net : Net) (p : PlaceId) : Bool :=
  net.sources.size == 1 && decide (p ∈ net.sources)

def isIsolated (net : Net) (p : PlaceId) : Bool :=
  (net.producers p).isEmpty && (net.consumers p).isEmpty

def placeWarning? (net : Net) (p : Place) : Option Warning :=
  if (net.producers p.id).isEmpty && !(net.consumers p.id).isEmpty && p.tokens == 0 &&
      !net.isOnlySource p.id then
    some (.neverMarked p.id)
  else none

def connectivity (net : Net) : Connectivity where
  isolatedPlaces := (net.places.values.map Place.id).filter net.isIsolated
  isolatedTransitions :=
    (net.transitions.values.filter fun t => t.inputs.isEmpty && t.outputs.isEmpty).map (·.id)
  warnings := net.places.values.filterMap net.placeWarning? ++
    net.transitions.values.filterMap fun t =>
      match t.inputs.isEmpty, t.outputs.isEmpty with
      | true, false => some (.noInputs t.id)
      | false, true => some (.noOutputs t.id)
      | _, _ => none
  places := net.places.size
  transitions := net.transitions.size

end Net

/-- The report as lines for a log: one line when nothing is wrong, else one heading and one line for
each finding. -/
def Connectivity.lines (report : Connectivity) : List LogLine :=
  let places := report.places
  let transitions := report.transitions
  if !report.hasIssues then
    [⟨.info, s!"connectivity check passed ({places} places, {transitions} transitions)"⟩]
  else
    let findings :=
      report.isolatedPlaces.map (fun p => "isolated place '" ++ p.name ++ "'") ++
      report.isolatedTransitions.map (fun t => "isolated transition '" ++ t.name ++ "'") ++
      report.warnings.map Warning.message
    ⟨.warning, s!"connectivity issues in net with {places} places, {transitions} transitions"⟩ ::
      findings.map fun finding => ⟨.warning, "  " ++ finding⟩

end ProcessNet
