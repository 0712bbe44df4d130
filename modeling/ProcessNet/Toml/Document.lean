import ProcessNet.Toml.Scalars
import ProcessNet.Toml.Strings

/-!
Reading a document: lines that are empty, open a table, open an item of an array of tables, or give a
value to a key, each with an optional comment. Values nest in arrays and inline tables, so many deep
at most; both may run over several lines, with comments, and end with a comma. A line ends with a line
feed, perhaps after a carriage return, and the last one may end with the text.
-/

namespace ProcessNet.Toml

/-- Passes over a comment after its sign, up to the end of the line. -/
def skipComment : (cs : List Char) → Option (Remainder cs)
  | [] => some (.whole [])
  | '\n' :: rest => some (.whole ('\n' :: rest))
  | '\r' :: '\n' :: rest => some (.whole ('\r' :: '\n' :: rest))
  | c :: rest =>
    if isControl c then none
    else do
      let r ← skipComment rest
      return r.past

/-- Passes over blanks, line breaks and comments. -/
def skipLines (cs : List Char) : Option (Remainder cs) :=
  match h : skipBlanks cs with
  | '\n' :: rest =>
    have lt := length_lt_of_skipBlanks h
    (skipLines rest).map (·.within lt)
  | '\r' :: '\n' :: rest =>
    have lt := Nat.lt_of_succ_lt (length_lt_of_skipBlanks h)
    (skipLines rest).map (·.within lt)
  | '#' :: rest => do
    let r ← skipComment rest
    have lt := Nat.lt_of_le_of_lt r.2 (length_lt_of_skipBlanks h)
    (skipLines r.1).map (·.within lt)
  | _ => some ⟨skipBlanks cs, length_skipBlanks_le cs⟩
termination_by cs.length

def skipOptionalComment : (cs : List Char) → Option (Remainder cs)
  | '#' :: rest => do
    let r ← skipComment rest
    return r.past
  | cs => some (.whole cs)

/-- Passes over a line break; the end of the text is as good as one. -/
def skipLineBreak : (cs : List Char) → Option (Remainder cs)
  | [] => some (.whole [])
  | '\n' :: rest => some (Remainder.whole rest).past
  | '\r' :: '\n' :: rest => some (Remainder.whole rest).past.past
  | _ => none

/-- Passes over blanks and a comment at the end of a line, with its line break. -/
def endLine (cs : List Char) : Option (Remainder cs) := do
  let ⟨rest₁, le₁⟩ ← skipOptionalComment (skipBlanks cs)
  let ⟨rest₂, le₂⟩ ← skipLineBreak rest₁
  return ⟨rest₂, by
    have := length_skipBlanks_le cs
    omega⟩

def isScalarChar (c : Char) : Bool :=
  !(isBlank c || ['=', ',', '[', ']', '\x7b', '\x7d', '#', '\r', '\n'].contains c)

/-- Whether an unquoted value goes on after blanks. -/
def goesOn (cs : List Char) : Bool :=
  ((skipBlanks cs).head?).any fun c => isScalarChar c && c ≠ '.' && c ≠ '"' && c ≠ '\''

/-- The text of an unquoted value: everything up to a mark of another kind. Blanks belong to it if it
goes on after them, as a date does before a time. -/
def scalarText : List Char → List Char
  | [] => []
  | c :: rest => if isScalarChar c || (isBlank c && goesOn rest) then c :: scalarText rest else []

def bareScalar : Reader Node := fun cs => do
  let text := scalarText cs
  let s ← scalar? text
  if h : 0 < text.length ∧ 0 < cs.length then
    return ⟨.scalar s, cs.drop text.length, by
      simp only [List.length_drop]
      omega⟩
  else none

mutual

/-- A value, with room for so many levels of arrays and inline tables. -/
def value (room : Nat) : Reader Node
  | '[' :: rest =>
    if room = 0 then none
    else do
      let p ← arrayItems (room - 1) rest
      return (p.map .array).past
  | '\x7b' :: rest =>
    if room = 0 then none
    else do
      let p ← inlineMembers (room - 1) [] rest
      return (p.map .inline).past
  | '"' :: rest => do
    let p ← string ('"' :: rest)
    return p.map fun s => .scalar (.text s)
  | '\'' :: rest => do
    let p ← string ('\'' :: rest)
    return p.map fun s => .scalar (.text s)
  | cs => bareScalar cs
termination_by cs => 2 * cs.length
decreasing_by
  all_goals
    simp only [List.length_cons]
    omega

/-- Items up to the closing bracket, which may follow a comma. -/
def arrayItems (room : Nat) : Reader (List Node) := fun cs => do
  let ⟨start, le⟩ ← skipLines cs
  match hs : start with
  | ']' :: rest => return ⟨[], rest, by simp only [hs, List.length_cons] at le; omega⟩
  | _ =>
    let p ← value room start
    have hp := Nat.lt_of_lt_of_le p.shorter le
    let ⟨after, le'⟩ ← skipLines p.rest
    match ha : after with
    | ']' :: rest => return ⟨[p.value], rest, by simp only [ha, List.length_cons] at le'; omega⟩
    | ',' :: rest =>
      have lt : rest.length < cs.length := by
        simp only [ha, List.length_cons] at le'
        omega
      let others ← arrayItems room rest
      return (others.map (p.value :: ·)).within (Nat.le_of_lt lt)
    | _ => none
termination_by cs => 2 * cs.length + 1
decreasing_by all_goals omega

/-- Members of an inline table up to its closing brace, which may follow a comma. -/
def inlineMembers (room : Nat) (es : Entries) : Reader Entries := fun cs => do
  let ⟨start, le⟩ ← skipLines cs
  match hs : start with
  | '\x7d' :: rest => return ⟨es, rest, by simp only [hs, List.length_cons] at le; omega⟩
  | _ =>
    let k ← key start
    have hk := Nat.lt_of_lt_of_le k.shorter le
    let ⟨sign, leSign⟩ ← skipLines k.rest
    match he : sign with
    | '=' :: afterSign =>
      let ⟨content, leContent⟩ ← skipLines afterSign
      have hc : content.length < cs.length := by
        simp only [he, List.length_cons] at leSign
        omega
      let v ← value room content
      have hv := v.shorter
      let es ← es.add k.value.1 k.value.2 v.value
      let ⟨after, leAfter⟩ ← skipLines v.rest
      match ha : after with
      | '\x7d' :: rest => return ⟨es, rest, by
          simp only [ha, List.length_cons] at leAfter
          omega⟩
      | ',' :: rest =>
        have lt : rest.length < cs.length := by
          simp only [ha, List.length_cons] at leAfter
          omega
        let others ← inlineMembers room es rest
        return others.within (Nat.le_of_lt lt)
      | _ => none
    | _ => none
termination_by cs => 2 * cs.length + 1
decreasing_by all_goals omega

end

/-- The document so far, and the key of the latest header. -/
structure Draft where
  root : Entries
  current : List String

def tableHeader (draft : Draft) : Reader Draft := fun cs => do
  let k ← key cs
  have hk := k.shorter
  match he : k.rest with
  | ']' :: rest =>
    let root ← draft.root.openTable k.value.1 k.value.2
    return ⟨⟨root, k.value.1 ++ [k.value.2]⟩, rest, by
      simp only [he, List.length_cons] at hk
      omega⟩
  | _ => none

def itemHeader (draft : Draft) : Reader Draft := fun cs => do
  let k ← key cs
  have hk := k.shorter
  match he : k.rest with
  | ']' :: ']' :: rest =>
    let root ← draft.root.openItem k.value.1 k.value.2
    return ⟨⟨root, k.value.1 ++ [k.value.2]⟩, rest, by
      simp only [he, List.length_cons] at hk
      omega⟩
  | _ => none

def assignment (draft : Draft) : Reader Draft := fun cs => do
  let k ← key cs
  have hk := k.shorter
  match he : k.rest with
  | '=' :: rest =>
    let v ← value deepest (skipBlanks rest)
    let root ← draft.root.addBelow draft.current k.value.1 k.value.2 v.value
    return ⟨{ draft with root := root }, v.rest, by
      have := v.shorter
      have := length_skipBlanks_le rest
      simp only [he, List.length_cons] at hk
      omega⟩
  | _ => none

def line (draft : Draft) : Reader Draft
  | '[' :: '[' :: rest => do
    let p ← itemHeader draft rest
    return p.past.past
  | '[' :: rest => do
    let p ← tableHeader draft rest
    return p.past
  | cs => assignment draft cs

def document (draft : Draft) (cs : List Char) : Option Entries := do
  let ⟨start, _⟩ ← skipLines cs
  if start.isEmpty then return draft.root
  let p ← line draft start
  have := p.shorter
  let ⟨rest, _⟩ ← endLine p.rest
  document p.value rest
termination_by cs.length
decreasing_by omega

/-- The tables of a text. A byte order mark at its start is passed over. -/
def read (text : String) : Option Entries :=
  match text.toList with
  | '\ufeff' :: cs => document ⟨[], []⟩ cs
  | cs => document ⟨[], []⟩ cs

end ProcessNet.Toml
