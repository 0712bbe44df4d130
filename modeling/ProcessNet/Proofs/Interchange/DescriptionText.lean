import ProcessNet.Interchange.DescriptionText
import ProcessNet.Proofs.Json.Numbers
import ProcessNet.Proofs.Json.Record

/-!
A description is what its text gives. Ids and labels may hold any characters, counts of tokens go up
to the capacity of a place, labels may be absent and lists empty: every part is written so that its
reader takes it back, whatever follows, and so is the whole.
-/

namespace ProcessNet.Description

open Json (Reads Starts Follows)
open Json.Layout (encode natural)

theorem reads_directionWord (direction : ArcDirection) (rest : List Char) :
    Reads directionWord (encode direction.name ++ rest) direction rest := by
  have word : directionOf? direction.name = some direction := by cases direction <;> decide
  have read := Json.reads_key direction.name rest
  rw [directionWord, Json.reads_afterBlanks]
  rw [Json.encode_append] at read ⊢
  rw [Json.skipBlanks_cons (by decide)]
  obtain ⟨shorter, read⟩ := read
  refine ⟨shorter, ?_⟩
  dsimp only [bind, Except.bind]
  rw [read]
  dsimp only
  rw [word]
  rfl

theorem reads_direction (way : ArcDirection) (rest : List Char) :
    Reads direction (encode way.name ++ rest) way rest := by
  have read := reads_directionWord way rest
  rw [direction, Json.reads_afterBlanks]
  rw [Json.encode_append] at read ⊢
  rwa [Json.skipBlanks_cons (by decide)]

theorem reads_placeText {p : PlaceDescription} (h : p.tokens ≤ Place.capacity) (rest : List Char) :
    Reads placeRecord.reader (placeText p ++ rest) p rest := by
  have fills : placeRecord.Fills placeRecord.blank
      [("id", encode p.id.name), ("tokens", natural p.tokens)] ⟨some p.id.name, some p.tokens⟩ :=
    .field rfl rfl (fun rest _ => Json.reads_text p.id.name rest) <|
      .field rfl rfl (fun rest follows => Json.reads_naturalNumber h follows) <| .nil _
  exact Json.Record.reads_object fills rfl rest

theorem reads_transitionText (t : TransitionDescription) (rest : List Char) :
    Reads transitionRecord.reader (transitionText t ++ rest) t rest := by
  have fills : transitionRecord.Fills transitionRecord.blank
      [("id", encode t.id.name), ("label", t.label.elim Json.Layout.null encode)]
      ⟨some t.id.name, some t.label⟩ :=
    .field rfl rfl (fun rest _ => Json.reads_text t.id.name rest) <|
      .field rfl rfl (fun rest _ => Json.reads_optionalText t.label rest) <| .nil _
  exact Json.Record.reads_object fills rfl rest

theorem reads_arcText (a : Arc) (rest : List Char) :
    Reads arcRecord.reader (arcText a ++ rest) a rest := by
  have fills : arcRecord.Fills arcRecord.blank
      [("place", encode a.place.name), ("transition", encode a.transition.name),
        ("direction", encode a.direction.name)]
      ⟨some a.place.name, some a.transition.name, some a.direction⟩ :=
    .field rfl rfl (fun rest _ => Json.reads_text a.place.name rest) <|
      .field rfl rfl (fun rest _ => Json.reads_text a.transition.name rest) <|
        .field rfl rfl (fun rest _ => reads_direction a.direction rest) <| .nil _
  exact Json.Record.reads_object fills rfl rest

theorem starts_object (level : ℕ) (members : List (String × List Char)) :
    Starts ']' (Json.Layout.object level members) := by
  rw [Json.Layout.object, Json.Layout.bracketed_eq]
  exact ⟨_, _, rfl, by decide, by decide⟩

theorem reads_characters {d : Description} (h : ∀ p ∈ d.places, p.tokens ≤ Place.capacity)
    (rest : List Char) : Reads record.reader (d.characters ++ rest) d rest := by
  have fills : record.Fills record.blank
      [("places", Json.Layout.array 1 (d.places.map placeText)),
        ("transitions", Json.Layout.array 1 (d.transitions.map transitionText)),
        ("arcs", Json.Layout.array 1 (d.arcs.map arcText))]
      ⟨some d.places, some d.transitions, some d.arcs⟩ :=
    .field rfl rfl (fun rest _ => Json.reads_array fun p hp =>
      ⟨starts_object _ _, fun rest _ => reads_placeText (h p hp) rest⟩) <|
    .field rfl rfl (fun rest _ => Json.reads_array fun t _ =>
      ⟨starts_object _ _, fun rest _ => reads_transitionText t rest⟩) <|
    .field rfl rfl (fun rest _ => Json.reads_array fun a _ =>
      ⟨starts_object _ _, fun rest _ => reads_arcText a rest⟩) <| .nil _
  exact Json.Record.reads_object fills rfl rest

/-- Written and read again, a description is the same. -/
theorem ofText_text (d : Description) (h : ∀ p ∈ d.places, p.tokens ≤ Place.capacity) :
    ofText d.text = .ok d := by
  have read := reads_characters h []
  rw [List.append_nil] at read
  obtain ⟨shorter, read⟩ := read
  rw [ofText, text, String.toList_ofList, ofCharacters, read]
  rfl

def awkward : Description where
  places := [⟨⟨"\"back\\slash\"\n\x01"⟩, 18446744073709551615⟩, ⟨⟨"𝄞"⟩, 0⟩]
  transitions := [⟨⟨""⟩, none⟩, ⟨⟨"t"⟩, some ""⟩, ⟨⟨"/ü\x7f"⟩, some "null"⟩]
  arcs := [⟨⟨"𝄞"⟩, ⟨""⟩, .placeToTransition⟩, ⟨⟨"nowhere"⟩, ⟨"t"⟩, .transitionToPlace⟩]

theorem awkward_ofText_text : ofText awkward.text = .ok awkward := ofText_text awkward (by decide)

end ProcessNet.Description
