import ProcessNet.Text.Parsed

/-!
Reading JSON text from the left. What stops a reading is the first problem met: the text ends too
early, it is no JSON, or it is JSON of another shape than expected. `turn` settles the commas of
arrays and objects alike.
-/

namespace ProcessNet.Json

inductive Problem
  | truncated
  | malformed
  | misfit
deriving DecidableEq

abbrev Reader (α : Type) := (cs : List Char) → Except Problem (Parsed α cs)

def isBlank (c : Char) : Bool := c = ' ' || c = '\n' || c = '\t' || c = '\r'

def skipBlanks (cs : List Char) : List Char := cs.dropWhile isBlank

theorem length_skipBlanks_le (cs : List Char) : (skipBlanks cs).length ≤ cs.length :=
  (List.dropWhile_sublist _).length_le

/-- Reads the given letters. -/
def letters : (word cs : List Char) → Except Problem (Remainder cs)
  | [], cs => .ok (.whole cs)
  | _ :: _, [] => .error .truncated
  | w :: word, c :: cs =>
    if c = w then do
      let r ← letters word cs
      return r.past
    else .error .malformed

/-- Reads blanks and one character that has to follow them. -/
def mark (expected : Char) : Reader Unit := fun cs =>
  match h : skipBlanks cs with
  | [] => .error .truncated
  | c :: rest =>
    if c = expected then
      .ok ⟨(), rest, by
        have := length_skipBlanks_le cs
        simp only [h, List.length_cons] at this
        omega⟩
    else .error .malformed

/-- What comes next between brackets: the closing bracket, or an item that starts here. -/
inductive Turn (cs : List Char)
  | close (rest : List Char) (shorter : rest.length < cs.length)
  | item (start : List Char) (le : start.length ≤ cs.length)

/-- An item is preceded by a comma unless it is the first, and a comma is followed by an item. -/
def turn (closing : Char) (first : Bool) (cs : List Char) : Except Problem (Turn cs) :=
  match h : skipBlanks cs with
  | [] => .error .truncated
  | c :: rest =>
    have bound : rest.length < cs.length := by
      have := length_skipBlanks_le cs
      simp only [h, List.length_cons] at this
      omega
    if c = closing then .ok (.close rest bound)
    else if first then .ok (.item (c :: rest) bound)
    else if c = ',' then
      match h' : skipBlanks rest with
      | [] => .error .truncated
      | d :: more =>
        if d = closing then .error .malformed
        else .ok (.item (d :: more) (by
          have := length_skipBlanks_le rest
          simp only [h', List.length_cons] at this ⊢
          omega))
    else .error .malformed

/-- The items of an array up to its closing bracket. -/
def items {α : Type} (element : Reader α) (first : Bool) : Reader (List α) := fun cs => do
  match ← turn ']' first cs with
  | .close rest shorter => return ⟨[], rest, shorter⟩
  | .item start le =>
    let p := (← element start).within le
    let others ← items element false p.rest
    return (others.map (p.value :: ·)).within (Nat.le_of_lt p.shorter)
termination_by cs => cs.length
decreasing_by exact p.shorter

end ProcessNet.Json
