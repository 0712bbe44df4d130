import ProcessNet.Interchange.Description
import ProcessNet.Json.Layout
import ProcessNet.Json.Record

/-!
Descriptions as JSON text. Written, a description is an object with its places, transitions and arcs
in this order; a transition without label has the label `null`, and the direction of an arc is one of
two words. Read, keys may come in any order and others may stand between them, tokens default to none
and labels to no label, and a direction may also be an object that maps its word to `null`.
-/

namespace ProcessNet

def ArcDirection.name : ArcDirection → String
  | .placeToTransition => "PlaceToTransition"
  | .transitionToPlace => "TransitionToPlace"

namespace Description

open Json.Layout

def placeText (p : PlaceDescription) : List Char :=
  object 2 [("id", encode p.id.name), ("tokens", natural p.tokens)]

def transitionText (t : TransitionDescription) : List Char :=
  object 2 [("id", encode t.id.name), ("label", t.label.elim null encode)]

def arcText (a : Arc) : List Char :=
  object 2 [("place", encode a.place.name), ("transition", encode a.transition.name),
    ("direction", encode a.direction.name)]

def characters (d : Description) : List Char :=
  object 0 [
    ("places", array 1 (d.places.map placeText)),
    ("transitions", array 1 (d.transitions.map transitionText)),
    ("arcs", array 1 (d.arcs.map arcText))]

def text (d : Description) : String := String.ofList d.characters

end Description

namespace Description

open Json (Problem Reader Record Field)

structure PlaceDraft where
  id : Option String
  tokens : Option Nat

def placeRecord : Record PlaceDraft PlaceDescription where
  fields := [
    .of "id" (·.id) (fun d v => { d with id := some v }) Json.text,
    .of "tokens" (·.tokens) (fun d v => { d with tokens := some v }) Json.naturalNumber]
  blank := ⟨none, none⟩
  finish d := d.id.map fun id => ⟨⟨id⟩, d.tokens.getD 0⟩

structure TransitionDraft where
  id : Option String
  label : Option (Option String)

def transitionRecord : Record TransitionDraft TransitionDescription where
  fields := [
    .of "id" (·.id) (fun d v => { d with id := some v }) Json.text,
    .of "label" (·.label) (fun d v => { d with label := some v }) Json.optionalText]
  blank := ⟨none, none⟩
  finish d := d.id.map fun id => ⟨⟨id⟩, d.label.getD none⟩

def directionOf? (word : String) : Option ArcDirection :=
  if word = ArcDirection.placeToTransition.name then some .placeToTransition
  else if word = ArcDirection.transitionToPlace.name then some .transitionToPlace
  else none

/-- One of the two words for a direction. -/
def directionWord : Reader ArcDirection := Json.afterBlanks fun cs => do
  let p ← Json.key cs
  match directionOf? p.value with
  | some direction => return p.map fun _ => direction
  | none => .error .misfit

/-- After the opening brace: a word, `null` for its value, and the closing brace. -/
def directionMember : Reader ArcDirection := fun cs => do
  let word ← directionWord cs
  let colon ← Json.mark ':' word.rest
  let unit ← Json.onlyNull colon.rest
  let brace ← Json.mark '\x7d' unit.rest
  return ⟨word.value, brace.rest, by
    have := word.shorter
    have := colon.shorter
    have := unit.shorter
    have := brace.shorter
    omega⟩

def direction : Reader ArcDirection := Json.afterBlanks fun cs =>
  match cs with
  | [] => .error .truncated
  | '"' :: rest => directionWord ('"' :: rest)
  | '\x7b' :: rest => do
    let p ← directionMember rest
    return p.past
  | _ => .error .malformed

structure ArcDraft where
  place : Option String
  transition : Option String
  direction : Option ArcDirection

def arcRecord : Record ArcDraft Arc where
  fields := [
    .of "place" (·.place) (fun d v => { d with place := some v }) Json.text,
    .of "transition" (·.transition) (fun d v => { d with transition := some v }) Json.text,
    .of "direction" (·.direction) (fun d v => { d with direction := some v }) direction]
  blank := ⟨none, none, none⟩
  finish d := do return ⟨⟨← d.place⟩, ⟨← d.transition⟩, ← d.direction⟩

structure Draft where
  places : Option (List PlaceDescription)
  transitions : Option (List TransitionDescription)
  arcs : Option (List Arc)

def record : Record Draft Description where
  fields := [
    .of "places" (·.places) (fun d v => { d with places := some v })
      (Json.array placeRecord.reader),
    .of "transitions" (·.transitions) (fun d v => { d with transitions := some v })
      (Json.array transitionRecord.reader),
    .of "arcs" (·.arcs) (fun d v => { d with arcs := some v })
      (Json.array arcRecord.reader)]
  blank := ⟨none, none, none⟩
  finish d := do return ⟨← d.places, ← d.transitions, ← d.arcs⟩

def ofCharacters (cs : List Char) : Except Problem Description := do
  let p ← record.reader cs
  if Json.skipBlanks p.rest = [] then return p.value else .error .malformed

/-- The description that a text gives, or the first problem met from the left. -/
def ofText (text : String) : Except Problem Description := ofCharacters text.toList

end Description

end ProcessNet
