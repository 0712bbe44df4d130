import ProcessNet.Name.Ids

/-!
What work on a net reports as it goes: one event per fired transition, per removed silent transition,
per reduction pass, per composition and per run. An event is data; its level and its wording follow
from it.
-/

namespace ProcessNet

inductive Level
  | debug
  | info
  | warning
deriving DecidableEq

def Level.name : Level → String
  | .debug => "DEBUG"
  | .info => "INFO"
  | .warning => "WARN"

structure LogLine where
  level : Level
  message : String
deriving DecidableEq

def LogLine.text (line : LogLine) : String := line.level.name ++ " " ++ line.message

/-- The operators that build a pattern from patterns. -/
inductive Operator
  | sequence
  | choice
  | choiceList
  | parallel
  | interleaving
  | repetition
deriving DecidableEq

def Operator.name : Operator → String
  | .sequence => "sequence"
  | .choice => "choice"
  | .choiceList => "choice_list"
  | .parallel => "parallel"
  | .interleaving => "interleaving"
  | .repetition => "unbounded_repetition"

/-- A silent transition that was taken out; what fed `place` now feeds `redirectedTo`. -/
structure Bypass where
  transition : TransitionId
  place : PlaceId
  redirectedTo : PlaceId
deriving DecidableEq

inductive Event
  | fired (transition : TransitionId)
  | bypassed (step : Bypass)
  | pruned (transitions places : Nat)
  | composed (operator : Operator) (places transitions : Nat)
  | simulated (steps : Nat)
  | patternPruned (places transitions : Nat)
deriving DecidableEq

def Event.line : Event → LogLine
  | .fired t => ⟨.debug, "fired transition '" ++ t.name ++ "'"⟩
  | .bypassed step =>
    ⟨.debug, "pruned silent transition '" ++ step.transition.name ++ "' ('" ++ step.place.name ++
      "' -> '" ++ step.redirectedTo.name ++ "')"⟩
  | .pruned transitions places =>
    ⟨.info, s!"prune removed {transitions} transitions and {places} places"⟩
  | .composed operator places transitions =>
    ⟨.info, operator.name ++
      s!": composed pattern with {places} places and {transitions} transitions"⟩
  | .simulated steps => ⟨.debug, s!"simulation stopped after {steps} steps"⟩
  | .patternPruned places transitions =>
    ⟨.debug, s!"pattern pruned to {places} places and {transitions} transitions"⟩

end ProcessNet
