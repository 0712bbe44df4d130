import ProcessNet.Execution.Journal
import ProcessNet.Pattern.Absorb

/-!
The operators of the pattern algebra. Each copies its operands into an empty net and joins the copies
by new places and silent transitions, so operands are never changed and may share any names. The
names of what is added are made from the names of the ends it joins.
-/

namespace ProcessNet

namespace Compose

def place (base : String) : Compose PlaceId := grow (Growth.freshPlace base)

def route (base : String) (inputs outputs : List PlaceId) : Compose Unit :=
  grow (discard (Growth.route base inputs outputs))

/-- The pattern with the ends that the work answers. -/
def finish (work : Compose (PlaceId × PlaceId)) : Pattern :=
  let ((source, sink), c) := work.run ⟨∅, ∅⟩
  ⟨c.net, c.activities, source, sink⟩

end Compose

namespace Pattern

open Compose
open Growth (joined newSink)

/-- A silent transition leads from the sink of the first to the source of the second. -/
def sequence (first second : Pattern) : Pattern := finish do
  let (start₁, end₁) ← absorbEnds first
  let (start₂, end₂) ← absorbEnds second
  route (joined [end₁, start₂]) [end₁] [start₂]
  return (start₁, end₂)

/-- Exactly one of the two runs. -/
def choice (first second : Pattern) : Pattern := finish do
  let (start₁, end₁) ← absorbEnds first
  let (start₂, end₂) ← absorbEnds second
  let source ← place (joined [start₁, start₂])
  route start₁.name [source] [start₁]
  route start₂.name [source] [start₂]
  let sink ← grow (newSink (.ofList [end₁, end₂]))
  return (source, sink)

/-- Exactly one of several runs, with one silent transition before and one after each alternative
in place of the nesting that repeated binary choices give. -/
def choiceList (alternatives : List Pattern) : Except NetError Pattern :=
  if alternatives.isEmpty then .error .noAlternatives
  else .ok <| finish do
    let ends ← alternatives.mapM absorbEnds
    let starts := ends.map Prod.fst
    let ends := ends.map Prod.snd
    let source ← place (joined starts)
    starts.forM fun start => route (joined [source, start]) [source] [start]
    let sink ← place (joined ends)
    ends.forM fun stop => route (joined [stop, sink]) [stop] [sink]
    return (source, sink)

/-- Both run independently between a common split and a common join. -/
def parallel (first second : Pattern) : Pattern := finish do
  let (start₁, end₁) ← absorbEnds first
  let (start₂, end₂) ← absorbEnds second
  let source ← place (joined [start₁, start₂])
  route start₁.name [source] [start₁, start₂]
  let sink ← place (joined [end₁, end₂])
  route (joined [end₁, end₂]) [end₁, end₂] [sink]
  return (source, sink)

/-- Both run in either order without overlapping: a token on the mutex place, put there by the split,
is taken to enter a branch, given back on leaving it, and consumed by the join. -/
def interleaving (first second : Pattern) : Pattern := finish do
  let (start₁, end₁) ← absorbEnds first
  let (start₂, end₂) ← absorbEnds second
  let source ← place (joined [start₁, start₂])
  let mutex ← place (joined [start₁, start₂] ++ ",px")
  let sink ← place (joined [end₁, end₂])
  let entry₁ ← place (start₁.name ++ "_")
  let entry₂ ← place (start₂.name ++ "_")
  let exit₁ ← place (end₁.name ++ "_")
  let exit₂ ← place (end₂.name ++ "_")
  route (joined [start₁, start₂]) [source] [entry₁, entry₂, mutex]
  route (start₁.name ++ "_") [entry₁, mutex] [start₁]
  route (start₂.name ++ "_") [entry₂, mutex] [start₂]
  route (end₁.name ++ "_") [end₁] [exit₁, mutex]
  route (end₂.name ++ "_") [end₂] [exit₂, mutex]
  route (joined [end₁, end₂]) [exit₁, exit₂, mutex] [sink]
  return (source, sink)

/-- The pattern runs once or more often: a silent transition leads from its sink back to its
source. -/
def repetition (pattern : Pattern) : Pattern := finish do
  let (start, stop) ← absorbEnds pattern
  let source ← place start.name
  let sink ← place stop.name
  route start.name [source] [start]
  route stop.name [stop] [sink]
  route (joined [start, stop]) [stop] [start]
  return (source, sink)

/-- What a composition reports about its result. -/
def composedBy (operator : Operator) (result : Pattern) : Event :=
  .composed operator result.net.places.size result.net.transitions.size

end Pattern

end ProcessNet
