import ProcessNet.Net.Transition
import ProcessNet.Net.Marking

/-!
Petri nets with data: places, transitions and variables, each kept under its identifier in order of
arrival. This file has the type and the questions that need no search through runs: look-up, the
transitions around a place, the marking, and which transitions are enabled and may fire. Nothing here
assumes that an arc ends at a place of the net; an arc to an unknown place disables its transition.
-/

namespace ProcessNet

structure Net where
  places : OrderedMap PlaceId Place
  transitions : OrderedMap TransitionId Transition
  vars : Variables

namespace Net

def empty : Net := ⟨∅, ∅, ∅⟩

instance : EmptyCollection Net := ⟨empty⟩

instance : Inhabited Net := ⟨empty⟩

def place? (net : Net) (p : PlaceId) : Option Place := net.places.get? p

def transition? (net : Net) (t : TransitionId) : Option Transition := net.transitions.get? t

def namedVariable? (net : Net) (name : String) : Option Variable := net.vars.get? name

def hasGuards (net : Net) : Bool := net.transitions.values.any (!·.guard.isAlways)

/-- The transitions that take from a place. -/
def consumers (net : Net) (p : PlaceId) : List Transition :=
  net.transitions.values.filter (p ∈ ·.inputs)

/-- The transitions that put into a place. -/
def producers (net : Net) (p : PlaceId) : List Transition :=
  net.transitions.values.filter (p ∈ ·.outputs)

def marking (net : Net) : Marking := .ofList (net.places.values.map fun p => (p.id, p.tokens))

/-- A place that the net does not have matches no count. -/
def matchesMarking (net : Net) (m : Marking) : Bool :=
  m.entries.all fun e => (net.place? e.1).any (·.tokens == e.2)

/-- Whether a token can be taken from a place of the net. -/
def isMarked (net : Net) (p : PlaceId) : Bool := (net.place? p).any (0 < ·.tokens)

def isEnabled (net : Net) (t : Transition) : Bool := t.inputs.toList.all net.isMarked

/-- The accepting ones among the given transitions, up to the first guard that fails. -/
def accepting (net : Net) : List Transition → Except NetError (List TransitionId)
  | [] => .ok []
  | t :: rest => do
    let accepted ← t.accepts net.vars
    let others ← net.accepting rest
    return if accepted then t.id :: others else others

/-- The transitions with a token on every input, whatever their guards say. -/
def enabled (net : Net) : List Transition := net.transitions.values.filter net.isEnabled

/-- The enabled transitions whose guard accepts. -/
def fireable (net : Net) : Except NetError (List TransitionId) := net.accepting net.enabled

end Net

end ProcessNet
