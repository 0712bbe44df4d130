import ProcessNet.Execution.Session

/-!
Firing one transition, whatever its guard says. All inputs are checked before any token moves, in the
order of the arcs, so a refusal names the first empty input and changes nothing. Then every input
loses a token and every output gains one, in order; only a full output can stop this, and by then the
inputs have been taken.
-/

namespace ProcessNet

namespace Run

def takeToken (p : PlaceId) : Run Unit :=
  updatePlace p fun x => x.decrement.mapError .refused

def putToken (p : PlaceId) : Run Unit := updatePlace p Place.increment

def fire (t : TransitionId) : Run Unit := do
  let net ← net
  let some target := net.transition? t | refuse (.unknownTransition t)
  if let some missing := target.inputs.toList.find? fun p => !net.isMarked p then
    refuse (.noToken missing)
  target.inputs.toList.forM takeToken
  target.outputs.toList.forM putToken
  record (.fired t)

end Run

end ProcessNet
