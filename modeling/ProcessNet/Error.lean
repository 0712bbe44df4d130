import ProcessNet.Data.Value
import ProcessNet.Name.Ids

/-!
The ways in which an operation on a net can be refused, each with what caused it, and the message for
every cause. Running a net has one more way to stop: a token count at its capacity cannot grow. That
is no refusal, since the marking may have changed before the count was reached.
-/

namespace ProcessNet

inductive ElementKind
  | place
  | transition
  | variable
deriving DecidableEq

def ElementKind.name : ElementKind → String
  | .place => "place"
  | .transition => "transition"
  | .variable => "variable"

/-- Why a value does not suit a variable. -/
inductive Unsuitable
  | kindMismatch (given declared : Kind)
  | belowLower (value : Value) (bound : Binary64)
  | aboveUpper (value : Value) (bound : Binary64)

def Unsuitable.message : Unsuitable → String
  | .kindMismatch given declared =>
    given.name ++ " value for " ++ declared.name ++ " variable"
  | .belowLower value bound => value.text ++ " is below lower bound " ++ bound.text
  | .aboveUpper value bound => value.text ++ " is above upper bound " ++ bound.text

inductive NetError
  | duplicateIdentifier (kind : ElementKind) (id : String)
  | unknownReference (kind : ElementKind) (id : String)
  | unknownTransition (id : TransitionId)
  | noToken (place : PlaceId)
  | noAlternatives
  | missingActivity (transition : TransitionId)
  | notWorkflowNet (places sources sinks : Nat)
  | unsetVariable (name : String)
  | invalidValue (name : String) (reason : Unsuitable)

def NetError.message : NetError → String
  | .duplicateIdentifier kind id => kind.name ++ " '" ++ id ++ "' does already exist"
  | .unknownReference kind id => kind.name ++ " '" ++ id ++ "' is not in net"
  | .unknownTransition id => "transition '" ++ id.name ++ "' is not in net"
  | .noToken place => "no token available on place '" ++ place.name ++ "'"
  | .noAlternatives => "at least one activity pattern is required"
  | .missingActivity transition =>
    "visible transition '" ++ transition.name ++ "' has no high level activity mapping"
  | .notWorkflowNet places sources sinks =>
    s!"not a workflow net: {places} places, {sources} sources, {sinks} sinks"
  | .unsetVariable name => "variable '" ++ name ++ "' has no value"
  | .invalidValue name reason =>
    "invalid value for variable '" ++ name ++ "': " ++ reason.message

theorem exists_eq_ok {ε α : Type} {answer : Except ε α} (h : answer.toBool = true) :
    ∃ a, answer = .ok a := by
  cases answer with
  | error e => cases h
  | ok a => exact ⟨a, rfl⟩

/-- How a run can stop: by a refusal, or because a token count would pass its capacity. -/
inductive Fault
  | refused (error : NetError)
  | overflow

end ProcessNet
