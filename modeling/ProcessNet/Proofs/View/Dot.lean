import Mathlib.Data.List.Basic
import Mathlib.Data.Nat.Notation
import Mathlib.Tactic.SplitIfs
import ProcessNet.Interchange.Description
import ProcessNet.View.Dot
import ProcessNet.View.Graph

/-!
The Graphviz text can be read back. Whatever is escaped comes to its end at the quote that closes it and
keeps within its line, so a text splits at its line breaks into the lines that were written, a line at
its quotes into ids, labels and what stands around them. The lines are those of the nodes, each followed
by the arcs that belong to it, which is as much as a net shows.
-/

namespace ProcessNet

namespace Dot

mutual

/-- The pieces of a text that starts outside of double quotes: those outside of them and those between
them, in turn. -/
def outside : List Char → List (List Char)
  | [] => [[]]
  | '"' :: rest => [] :: inside rest
  | c :: rest => (outside rest).modifyHead (c :: ·)

/-- Between double quotes a backslash takes the next character with it, be that a quote or not. -/
def inside : List Char → List (List Char)
  | [] => [[]]
  | '"' :: rest => [] :: outside rest
  | '\\' :: 'n' :: rest => (inside rest).modifyHead ('\n' :: ·)
  | '\\' :: c :: rest => (inside rest).modifyHead (c :: ·)
  | c :: rest => (inside rest).modifyHead (c :: ·)

end

variable {c : Char} {raw : List Char}

theorem outside_cons (solid : c ≠ '"') (rest : List Char) :
    outside (c :: rest) = (outside rest).modifyHead (c :: ·) := by
  rw [outside]
  exact solid

theorem inside_cons (quote : c ≠ '"') (backslash : c ≠ '\\') (rest : List Char) :
    inside (c :: rest) = (inside rest).modifyHead (c :: ·) := by
  rw [inside]
  · exact quote
  · intro _ h
    exact absurd h backslash
  · intro _ _ h
    exact absurd h backslash

theorem outside_raw (plain : '"' ∉ raw) : outside raw = [raw] := by
  induction raw with
  | nil => rw [outside]
  | cons c rest ih =>
    obtain ⟨solid, plain⟩ := not_or.1 (List.mem_cons.not.1 plain)
    rw [outside_cons (Ne.symm solid), ih plain, List.modifyHead_cons]

theorem outside_quote (plain : '"' ∉ raw) (rest : List Char) :
    outside (raw ++ '"' :: rest) = raw :: inside rest := by
  induction raw with
  | nil => rw [List.nil_append, outside]
  | cons c tail ih =>
    obtain ⟨solid, plain⟩ := not_or.1 (List.mem_cons.not.1 plain)
    rw [List.cons_append, outside_cons (Ne.symm solid), ih plain, List.modifyHead_cons]

theorem inside_escapedChar (c : Char) (rest : List Char) :
    inside (escapedChar c ++ rest) = (inside rest).modifyHead (c :: ·) := by
  unfold escapedChar
  split_ifs with quote backslash newline
  · subst quote
    simp [inside]
  · subst backslash
    simp [inside]
  · subst newline
    simp [inside]
  · exact inside_cons quote backslash rest

/-- What is escaped ends with the quote after it, not earlier, and is what it was. -/
theorem inside_escaped (s : String) (rest : List Char) :
    inside ((escaped s).toList ++ '"' :: rest) = s.toList :: outside rest := by
  rw [escaped, String.toList_ofList]
  induction s.toList with
  | nil => rw [List.flatMap_nil, List.nil_append, inside]
  | cons c tail ih =>
    rw [List.flatMap_cons, List.append_assoc, inside_escapedChar, ih, List.modifyHead_cons]

theorem newline_not_mem_escaped (s : String) : '\n' ∉ (escaped s).toList := by
  rw [escaped, String.toList_ofList, List.mem_flatMap]
  rintro ⟨c, -, broken⟩
  unfold escapedChar at broken
  split_ifs at broken with quote backslash newline
  · exact absurd broken (by decide)
  · exact absurd broken (by decide)
  · exact absurd broken (by decide)
  · exact newline (List.mem_singleton.1 broken).symm

theorem toList_join_lines (lines : List String) :
    (String.join (lines.map (· ++ "\n"))).toList =
      ['\n'].intercalate (lines.map String.toList ++ [[]]) := by
  rw [String.toList_join, List.flatMap_map]
  induction lines with
  | nil => rfl
  | cons l rest ih =>
    obtain ⟨next, more, split⟩ : ∃ next more, rest.map String.toList ++ [[]] = next :: more :=
      List.exists_cons_of_ne_nil (by simp)
    rw [List.flatMap_cons, ih, List.map_cons, List.cons_append, split,
      List.intercalate_cons_cons, String.toList_append]
    rfl

def quoted (s : String) : String := "\"" ++ escaped s ++ "\""

theorem escaped_append (s t : String) : escaped (s ++ t) = escaped s ++ escaped t := by
  simp [escaped]

theorem newline_not_mem_quoted (s : String) : '\n' ∉ (quoted s).toList := by
  have kept := newline_not_mem_escaped s
  simp [quoted, kept]

theorem outside_quoted {before : String} (plain : '"' ∉ before.toList) (s after : String) :
    outside (before ++ quoted s ++ after).toList =
      before.toList :: s.toList :: outside after.toList := by
  have characters : (before ++ quoted s ++ after).toList =
      before.toList ++ '"' :: ((escaped s).toList ++ '"' :: after.toList) := by
    simp [quoted]
  rw [characters, outside_quote plain, inside_escaped]

def spelled : List String → String
  | [] => ""
  | [last] => last
  | before :: s :: rest => before ++ quoted s ++ spelled rest

def Plain (raw : String) : Prop := '"' ∉ raw.toList ∧ '\n' ∉ raw.toList

instance (raw : String) : Decidable (Plain raw) := inferInstanceAs (Decidable (_ ∧ _))

def Spellable : List String → Prop
  | [] => False
  | [last] => Plain last
  | before :: _ :: rest => Plain before ∧ Spellable rest

theorem outside_spelled {ps : List String} (h : Spellable ps) :
    outside (spelled ps).toList = ps.map String.toList := by
  induction ps using spelled.induct with
  | case1 => exact h.elim
  | case2 last => exact outside_raw h.1
  | case3 before s rest ih =>
    obtain ⟨plain, later⟩ := h
    rw [spelled, outside_quoted plain.1, ih later]
    rfl

theorem newline_not_mem_spelled {ps : List String} (h : Spellable ps) :
    '\n' ∉ (spelled ps).toList := by
  induction ps using spelled.induct with
  | case1 => exact h.elim
  | case2 last => exact h.2
  | case3 before s rest ih =>
    obtain ⟨plain, later⟩ := h
    rw [spelled, String.toList_append, String.toList_append, List.mem_append, List.mem_append]
    rintro ((broken | broken) | broken)
    · exact plain.2 broken
    · exact newline_not_mem_quoted s broken
    · exact ih later broken

def count (tokens : ℕ) : String := if tokens = 0 then "" else toString tokens

theorem escaped_count (tokens : ℕ) : escaped (count tokens) = count tokens := by
  unfold count
  split_ifs with empty
  · decide
  · have digits : ∀ c ∈ (toString tokens).toList, escapedChar c = [c] := by
      intro c hc
      rw [Nat.toString_eq_repr, Nat.toList_repr] at hc
      have digit : c.isDigit = true := Nat.isDigit_of_mem_toDigits (by decide) (by decide) hc
      unfold escapedChar
      split_ifs with quote backslash newline
      · exact absurd (quote ▸ digit) (by decide)
      · exact absurd (backslash ▸ digit) (by decide)
      · exact absurd (newline ▸ digit) (by decide)
      · rfl
    rw [escaped, List.flatMap_congr digits, List.flatMap_singleton', String.ofList_toList]

theorem count_injective : Function.Injective count := by
  have digits (n : ℕ) : (toString n).toList = Nat.toDigits 10 n := by
    rw [Nat.toString_eq_repr, Nat.toList_repr]
  have written (n : ℕ) : toString n ≠ "" := by
    intro h
    exact Nat.toDigits_ne_nil ((digits n).symm.trans (congrArg String.toList h))
  intro m n h
  unfold count at h
  split_ifs at h with hm hn hn
  · rw [hm, hn]
  · exact absurd h.symm (written n)
  · exact absurd h (written m)
  · have same : Nat.toDigits 10 m = Nat.toDigits 10 n := by rw [← digits m, ← digits n, h]
    have read := congrArg (Nat.ofDigitChars 10 · 0) same
    simpa only [Nat.ofDigitChars_ten_toDigits] using read

/-- What a line between the braces is about. -/
inductive Line
  | node (n : Node)
  | arc (a : Arc)

namespace Line

variable {showSilentLabels : Bool}

def text (showSilentLabels : Bool) : Line → String
  | .node (.place id label tokens) => placeLine ⟨id, label, tokens⟩
  | .node (.transition id label visible) =>
    transitionLine showSilentLabels (.bare id label visible)
  | .arc ⟨p, t, .placeToTransition⟩ => arcLine (placeNode p) (transitionNode t)
  | .arc ⟨p, t, .transitionToPlace⟩ => arcLine (transitionNode t) (placeNode p)

def pieces (showSilentLabels : Bool) : Line → List String
  | .node (.place id label tokens) =>
    ["\t", "place_" ++ id.name, " [label=", count tokens, " shape=circle xlabel=", label, "]"]
  | .node (.transition id label visible) =>
    ["\t", "transition_" ++ id.name, " [label=", label,
      " shape=rectangle" ++ style visible showSilentLabels ++ "]"]
  | .arc ⟨p, t, .placeToTransition⟩ =>
    ["\t", "place_" ++ p.name, " -> ", "transition_" ++ t.name, ""]
  | .arc ⟨p, t, .transitionToPlace⟩ =>
    ["\t", "transition_" ++ t.name, " -> ", "place_" ++ p.name, ""]

theorem text_eq (l : Line) : l.text showSilentLabels = spelled (l.pieces showSilentLabels) := by
  have place (s : String) : escaped ("place_" ++ s) = "place_" ++ escaped s := by
    rw [escaped_append, show escaped "place_" = "place_" by decide]
  have transition (s : String) : escaped ("transition_" ++ s) = "transition_" ++ escaped s := by
    rw [escaped_append, show escaped "transition_" = "transition_" by decide]
  apply String.toList_inj.1
  rcases l with (⟨id, label, tokens⟩ | ⟨id, label, visible⟩) | ⟨p, t, _ | _⟩
  · have line : placeLine ⟨id, label, tokens⟩ = "\t" ++ placeNode id ++ " [label=\"" ++ count tokens ++
        "\" shape=circle xlabel=\"" ++ escaped label ++ "\"]" := rfl
    simp [text, line, pieces, spelled, quoted, placeNode, place, escaped_count]
  · simp [text, pieces, spelled, quoted, transitionLine, transitionNode, transition,
      Transition.bare]
  · simp [text, pieces, spelled, quoted, arcLine, placeNode, transitionNode, place, transition]
  · simp [text, pieces, spelled, quoted, arcLine, placeNode, transitionNode, place, transition]

theorem spellable (l : Line) : Spellable (l.pieces showSilentLabels) := by
  rcases l with (⟨id, label, tokens⟩ | ⟨id, label, visible⟩) | ⟨p, t, _ | _⟩
  · exact ⟨by decide, by decide, by decide, (by decide : Plain "]")⟩
  · have styled : Plain (" shape=rectangle" ++ style visible showSilentLabels ++ "]") := by
      cases visible <;> cases showSilentLabels <;> decide
    exact ⟨by decide, by decide, styled⟩
  · exact ⟨by decide, by decide, (by decide : Plain "")⟩
  · exact ⟨by decide, by decide, (by decide : Plain "")⟩

theorem style_injective : Function.Injective (style · showSilentLabels) := by
  intro visible visible' h
  cases visible <;> cases visible' <;> cases showSilentLabels <;> revert h <;> decide

theorem pieces_injective : Function.Injective (pieces showSilentLabels) := by
  have apart (p t : String) : "place_" ++ p ≠ "transition_" ++ t := by
    intro h
    simpa using congrArg String.toList h
  intro l m h
  -- lines of different kinds differ in a piece or in the number of pieces
  rcases l with (⟨⟨id⟩, label, tokens⟩ | ⟨⟨id⟩, label, visible⟩) | ⟨⟨p⟩, ⟨t⟩, _ | _⟩ <;>
    rcases m with (⟨⟨id'⟩, label', tokens'⟩ | ⟨⟨id'⟩, label', visible'⟩) | ⟨⟨p'⟩, ⟨t'⟩, _ | _⟩ <;>
    simp [pieces, apart, (apart _ _).symm] at h
  case node.place.node.place =>
    obtain ⟨rfl, tokens_eq, rfl⟩ := h
    rw [count_injective tokens_eq]
  case node.transition.node.transition =>
    obtain ⟨rfl, rfl, styles⟩ := h
    rw [style_injective styles]
  case arc.placeToTransition.arc.placeToTransition =>
    obtain ⟨rfl, rfl⟩ := h
    rfl
  case arc.transitionToPlace.arc.transitionToPlace =>
    obtain ⟨rfl, rfl⟩ := h
    rfl

theorem outside_text (l : Line) : outside (l.text showSilentLabels).toList =
    (l.pieces showSilentLabels).map String.toList := by
  rw [text_eq, outside_spelled l.spellable]

theorem newline_not_mem_text (l : Line) : '\n' ∉ (l.text showSilentLabels).toList := by
  rw [text_eq]
  exact newline_not_mem_spelled l.spellable

theorem text_injective : Function.Injective (text showSilentLabels) := by
  intro l m h
  have same := congrArg (outside ·.toList) h
  simp only [outside_text] at same
  exact pieces_injective (List.map_injective_iff.2 (fun _ _ => String.toList_inj.1) same)

end Line

/-- A node with the arcs that are drawn after it. -/
abbrev Section := Node × List Arc

def Section.lines (s : Section) : List Line := .node s.1 :: s.2.map .arc

def sections : List Line → List Arc × List Section
  | [] => ([], [])
  | .node n :: rest => ([], (n, (sections rest).1) :: (sections rest).2)
  | .arc a :: rest => (a :: (sections rest).1, (sections rest).2)

theorem sections_arcs (arcs : List Arc) (rest : List Line) :
    sections (arcs.map .arc ++ rest) = (arcs ++ (sections rest).1, (sections rest).2) := by
  induction arcs with
  | nil => rfl
  | cons a later ih => rw [List.map_cons, List.cons_append, sections, ih, List.cons_append]

theorem sections_lines (ss : List Section) : sections (ss.flatMap Section.lines) = ([], ss) := by
  induction ss with
  | nil => rfl
  | cons s rest ih =>
    rw [List.flatMap_cons, Section.lines, List.cons_append, sections, sections_arcs, ih,
      List.append_nil]

theorem length_lines (ss : List Section) :
    (ss.flatMap Section.lines).length = ss.length + (ss.flatMap Prod.snd).length := by
  induction ss with
  | nil => rfl
  | cons s rest ih =>
    rw [List.flatMap_cons, List.flatMap_cons, List.length_append, List.length_append, ih,
      Section.lines, List.length_cons, List.length_map, List.length_cons]
    omega

namespace Section

/-- What a picture shows of a transition: its id, label and visibility, its inputs and its outputs. -/
abbrev Shown := TransitionId × String × Bool × List PlaceId × List PlaceId

def ofPlace (p : Place) : Section := (.place p.id p.label p.tokens, [])

def ofShown : Shown → Section
  | (id, label, visible, inputs, outputs) =>
    (.transition id label visible, inputs.map (⟨·, id, .placeToTransition⟩) ++
      outputs.map (⟨·, id, .transitionToPlace⟩))

def place? : Section → Option Place
  | (.place id label tokens, _) => some ⟨id, label, tokens⟩
  | (.transition .., _) => none

def ends (arcs : List Arc) (direction : ArcDirection) : List PlaceId :=
  (arcs.filter (·.direction = direction)).map Arc.place

def shown? : Section → Option Shown
  | (.place .., _) => none
  | (.transition id label visible, arcs) =>
    some (id, label, visible, ends arcs .placeToTransition, ends arcs .transitionToPlace)

theorem shown?_ofShown (x : Shown) : (ofShown x).shown? = some x := by
  obtain ⟨id, label, visible, inputs, outputs⟩ := x
  simp [ofShown, shown?, ends, List.filter_map, Function.comp_def]

end Section

end Dot

def Transition.shown (t : Transition) : Dot.Section.Shown :=
  (t.id, t.label, t.visible, t.inputs.toList, t.outputs.toList)

namespace Net

open Dot (Section Line)

variable {n m net : Net} {showSilentLabels : Bool}

def drawn (net : Net) : List Section :=
  net.places.values.map Section.ofPlace ++
    (net.transitions.values.map Transition.shown).map Section.ofShown

theorem drawn_eq_iff : n.drawn = m.drawn ↔ n.places.values = m.places.values ∧
    n.transitions.values.map Transition.shown = m.transitions.values.map Transition.shown := by
  have places (net : Net) : net.drawn.filterMap Section.place? = net.places.values := by
    have read : Section.place? ∘ Section.ofPlace = some := rfl
    have other : Section.place? ∘ Section.ofShown = fun _ => none := rfl
    rw [drawn, List.filterMap_append, List.filterMap_map, List.filterMap_map, read, other]
    simp
  have transitions (net : Net) : net.drawn.filterMap Section.shown? =
      net.transitions.values.map Transition.shown := by
    have other : Section.shown? ∘ Section.ofPlace = fun _ => none := rfl
    have read : Section.shown? ∘ Section.ofShown = some := funext Section.shown?_ofShown
    rw [drawn, List.filterMap_append, List.filterMap_map, List.filterMap_map, other, read]
    simp
  constructor
  · intro h
    rw [← places n, ← places m, ← transitions n, ← transitions m, h]
    exact ⟨rfl, rfl⟩
  · rintro ⟨same_places, same_transitions⟩
    rw [drawn, drawn, same_places, same_transitions]

theorem length_drawn :
    net.drawn.length = net.places.values.length + net.transitions.values.length := by
  rw [drawn, List.length_append, List.length_map, List.length_map, List.length_map]

theorem flatMap_snd_drawn : net.drawn.flatMap Prod.snd = net.describe.arcs := by
  have place (p : Place) : (Section.ofPlace p).2 = [] := rfl
  have transition (t : Transition) : (Section.ofShown t.shown).2 = t.arcs := rfl
  simp [drawn, List.flatMap_map, describe, place, transition]

theorem dotLines_eq : net.dotLines showSilentLabels =
    "digraph \x7b" :: ((net.drawn.flatMap Section.lines).map (Line.text showSilentLabels) ++
      ["\x7d"]) := by
  have place (p : Place) : (Section.ofPlace p).lines.map (Line.text showSilentLabels) =
      [Dot.placeLine p] := rfl
  have transition (t : Transition) : (Section.ofShown t.shown).lines.map
      (Line.text showSilentLabels) = Dot.transitionLines showSilentLabels t := by
    simp only [Section.lines, Section.ofShown, Transition.shown, List.map_cons, List.map_append,
      List.map_map]
    rfl
  rw [List.map_flatMap, drawn, List.flatMap_append, List.flatMap_map, List.flatMap_map,
    List.flatMap_map]
  simp only [place, transition]
  rw [dotLines, List.map_eq_flatMap]

theorem length_dotLines : (net.dotLines showSilentLabels).length =
    2 + net.places.values.length + net.transitions.values.length + net.describe.arcs.length := by
  rw [dotLines_eq, List.length_cons, List.length_append, List.length_map, Dot.length_lines,
    length_drawn, flatMap_snd_drawn, List.length_singleton]
  omega

theorem newline_not_mem_dotLines : ∀ l ∈ net.dotLines showSilentLabels, '\n' ∉ l.toList := by
  intro l hl
  rw [dotLines_eq, List.mem_cons, List.mem_append, List.mem_singleton] at hl
  obtain rfl | inner | rfl := hl
  · decide
  · obtain ⟨line, -, rfl⟩ := List.mem_map.1 inner
    exact line.newline_not_mem_text
  · decide

theorem splitOn_dot : (net.dot showSilentLabels).toList.splitOn '\n' =
    (net.dotLines showSilentLabels).map String.toList ++ [[]] := by
  rw [dot, Dot.toList_join_lines]
  apply List.splitOn_intercalate
  · intro cs hcs
    rw [List.mem_append, List.mem_map, List.mem_singleton] at hcs
    obtain ⟨l, hl, rfl⟩ | rfl := hcs
    · exact newline_not_mem_dotLines l hl
    · exact List.not_mem_nil
  · simp

theorem drawn_eq_of_dot_eq (h : n.dot showSilentLabels = m.dot showSilentLabels) :
    n.drawn = m.drawn := by
  have lines : n.dotLines showSilentLabels = m.dotLines showSilentLabels := by
    have split := congrArg (·.toList.splitOn '\n') h
    simp only [splitOn_dot] at split
    exact List.map_injective_iff.2 (fun _ _ => String.toList_inj.1) (List.append_cancel_right split)
  rw [dotLines_eq, dotLines_eq] at lines
  have texts := List.append_cancel_right (List.cons.inj lines).2
  have same := List.map_injective_iff.2 Dot.Line.text_injective texts
  have read := congrArg Dot.sections same
  rw [Dot.sections_lines, Dot.sections_lines] at read
  exact congrArg Prod.snd read

theorem dot_eq_iff : n.dot showSilentLabels = m.dot showSilentLabels ↔
    n.places.values = m.places.values ∧
      n.transitions.values.map Transition.shown = m.transitions.values.map Transition.shown := by
  rw [← drawn_eq_iff]
  constructor
  · exact drawn_eq_of_dot_eq
  · intro same
    rw [dot, dot, dotLines_eq, dotLines_eq, same]

theorem outside_dotLines : (net.dotLines showSilentLabels).map (Dot.outside ·.toList) =
    (["digraph \x7b"] :: ((net.drawn.flatMap Section.lines).map (Line.pieces showSilentLabels) ++
      [["\x7d"]])).map (·.map String.toList) := by
  have first : Dot.outside "digraph \x7b".toList = ["digraph \x7b".toList] :=
    Dot.outside_raw (by decide)
  have last : Dot.outside "\x7d".toList = ["\x7d".toList] := Dot.outside_raw (by decide)
  rw [dotLines_eq]
  simp only [List.map_cons, List.map_append, List.map_map, List.map_nil, first, last,
    Function.comp_def, Line.outside_text]

/-- Two nets have one text only if their places and their transitions are the same in everything that
is drawn. The text of a net splits into the two lines of the braces and a line for each place, each
transition and each arc. Read at its quotes, a line gives the ids, labels and tokens as they are, for
what is escaped ends at the quote after it, whatever it is made of. -/
theorem dot_unambiguous (showSilentLabels : Bool) :
    (∀ n m : Net, n.dot showSilentLabels = m.dot showSilentLabels ↔
      n.places.values = m.places.values ∧
        n.transitions.values.map (fun t =>
            (t.id, t.label, t.visible, t.inputs.toList, t.outputs.toList)) =
          m.transitions.values.map (fun t =>
            (t.id, t.label, t.visible, t.inputs.toList, t.outputs.toList))) ∧
    (∀ net : Net,
      (net.dot showSilentLabels).toList.splitOn '\n' =
          (net.dotLines showSilentLabels).map String.toList ++ [[]] ∧
        (net.dotLines showSilentLabels).length = 2 + net.places.values.length +
          net.transitions.values.length + net.describe.arcs.length ∧
        (net.dotLines showSilentLabels).map (Dot.outside ·.toList) =
          (["digraph \x7b"] :: ((net.drawn.flatMap Section.lines).map
            (Line.pieces showSilentLabels) ++ [["\x7d"]])).map (·.map String.toList)) ∧
    ∀ (s : String) (rest : List Char),
      Dot.inside ((Dot.escaped s).toList ++ '"' :: rest) = s.toList :: Dot.outside rest :=
  ⟨fun _ _ => dot_eq_iff, fun _ => ⟨splitOn_dot, length_dotLines, outside_dotLines⟩,
    Dot.inside_escaped⟩

/-- A label that is made like the end of its line and an arc after it. -/
example : Dot.outside (Dot.placeLine ⟨⟨"\\"⟩, "\"]\n\t\"place_\\\" -> \"", 3⟩).toList =
    ["\t", "place_\\", " [label=", "3", " shape=circle xlabel=", "\"]\n\t\"place_\\\" -> \"",
      "]"].map String.toList := by
  decide +kernel

end Net

end ProcessNet
