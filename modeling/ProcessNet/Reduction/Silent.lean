import ProcessNet.Execution.Session
import ProcessNet.Net.Workflow

/-!
Removal of one silent transition. A silent, unguarded transition from one place `p` to one place `q`
does nothing but pass tokens on, and may go when it is the only one that takes from `p`, does not put
back into `p`, and `p` is no source. What fed `p` then feeds `q`, and the tokens on `p` move to `q`.
The redirection comes before the tokens, so when they do not fit on `q` the arcs have already changed.
-/

namespace ProcessNet

namespace Net

/-- The two places that a removable transition joins. -/
def bypass? (net : Net) (sources : OrderedSet PlaceId) (t : TransitionId) :
    Option (PlaceId × PlaceId) := do
  let x ← net.transition? t
  match x.inputs.toList, x.outputs.toList with
  | [p], [q] =>
    let consumers := net.consumers p
    if !x.visible && x.guard.isAlways && consumers.length == 1 &&
        !consumers.any (p ∈ ·.outputs) && p ∉ sources then
      some (p, q)
    else none
  | _, _ => none

/-- An arc that already ends at `q` stays where it is, and the redirected arc falls together with
it. -/
def redirectOutputs (p q : PlaceId) (x : Transition) : Transition :=
  if p ∈ x.outputs then { x with outputs := (x.outputs.erase p).insert q } else x

/-- The net without the transition, its place `p` bypassed by `q`. -/
def bypass (net : Net) (t : TransitionId) (p q : PlaceId) : Net :=
  { net with transitions := (net.transitions.erase t).mapValues fun _ => redirectOutputs p q }

end Net

namespace Run

def moveTokens (p q : PlaceId) : Run Unit := do
  let stranded := ((← net).place? p).elim 0 Place.tokens
  if stranded = 0 then return
  updatePlace q (·.add stranded)
  updatePlace p fun x => .ok { x with tokens := 0 }

/-- Whether the transition qualifies is decided on the net as it is now, with the sources given. -/
def removeSilent (sources : OrderedSet PlaceId) (t : TransitionId) : Run (Option Bypass) := do
  match (← net).bypass? sources t with
  | none => return none
  | some (p, q) =>
    modifyNet (·.bypass t p q)
    moveTokens p q
    record (.bypassed ⟨t, p, q⟩)
    return some ⟨t, p, q⟩

end Run

end ProcessNet
