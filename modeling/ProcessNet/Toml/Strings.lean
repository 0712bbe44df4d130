import ProcessNet.Text.Parsed
import ProcessNet.Text.Hex

/-!
Strings and keys. A basic string stands between double quotes and has escapes, a literal string
between single quotes and has none; three quotes let either run over several lines. Control
characters other than the tab never stand for themselves. A string over several lines may end with one
or two quotes of its own right before the closing ones, and drops a line break right after the opening
ones. The parts of a dotted key are bare or quoted on one line, and there are not too many of them.
-/

namespace ProcessNet.Toml

open Text (hexValue?)

abbrev Reader (α : Type) := (cs : List Char) → Option (Parsed α cs)

def isControl (c : Char) : Bool := (c.toNat < 0x20 && c ≠ '\t') || c.toNat = 0x7f

def isBlank (c : Char) : Bool := c = ' ' || c = '\t'

def skipBlanks (cs : List Char) : List Char := cs.dropWhile isBlank

theorem length_skipBlanks_le (cs : List Char) : (skipBlanks cs).length ≤ cs.length :=
  (List.dropWhile_sublist _).length_le

theorem length_lt_of_skipBlanks {cs rest : List Char} {c : Char} (h : skipBlanks cs = c :: rest) :
    rest.length < cs.length := by
  have := length_skipBlanks_le cs
  rwa [h] at this

def codePoint (count : Nat) (cs : List Char) : Option (Char × Remainder cs) := do
  let digits := cs.take count
  if digits.length < count then none
  let values ← digits.mapM hexValue?
  let n := values.foldl (fun n d => 16 * n + d) 0
  if n.isValidChar then return (Char.ofNat n, ⟨cs.drop count, by simp⟩) else none

def letterEscape? : Char → Option Char
  | 'b' => some '\x08'
  | 'e' => some '\x1b'
  | 't' => some '\t'
  | 'n' => some '\n'
  | 'f' => some '\x0c'
  | 'r' => some '\r'
  | '"' => some '"'
  | '\\' => some '\\'
  | _ => none

def escape : Reader Char
  | [] => none
  | 'x' :: rest => do
    let (c, r) ← codePoint 2 rest
    return .ofRemainder c r
  | 'u' :: rest => do
    let (c, r) ← codePoint 4 rest
    return .ofRemainder c r
  | 'U' :: rest => do
    let (c, r) ← codePoint 8 rest
    return .ofRemainder c r
  | c :: _ => (letterEscape? c).map .head

def basic : Reader (List Char)
  | [] => none
  | '"' :: _ => some (.head [])
  | '\\' :: rest => do
    let p ← escape rest
    let others ← basic p.rest
    return (p.followedBy (others.map (p.value :: ·))).past
  | c :: rest =>
    if isControl c then none
    else do
      let others ← basic rest
      return (others.map (c :: ·)).past
termination_by cs => cs.length
decreasing_by
  · have := p.shorter
    simp only [List.length_cons]
    omega
  · simp

def literal : Reader (List Char)
  | [] => none
  | '\'' :: _ => some (.head [])
  | c :: rest =>
    if isControl c then none
    else do
      let others ← literal rest
      return (others.map (c :: ·)).past

/-- What closes a string of several lines: three quotes, with up to two more before them that belong
to the string. -/
def closing (quote : Char) (cs : List Char) : Option (Parsed (List Char) cs) :=
  let run := (cs.takeWhile (· = quote)).length
  if h : 3 ≤ run then
    have le : run ≤ cs.length := (List.takeWhile_sublist _).length_le
    some ⟨List.replicate (min run 5 - 3) quote, cs.drop (min run 5), by
      simp only [List.length_drop]
      omega⟩
  else none

/-- Passes over blanks and line breaks. -/
def skipSpace : (cs : List Char) → Remainder cs
  | '\r' :: '\n' :: rest => (skipSpace rest).past.past
  | c :: rest =>
    if isBlank c || c = '\n' then (skipSpace rest).past else .whole (c :: rest)
  | [] => .whole []

/-- Whether a backslash before this text stands at the end of its line. -/
def endsLine (cs : List Char) : Bool :=
  match skipBlanks cs with
  | '\n' :: _ => true
  | '\r' :: '\n' :: _ => true
  | _ => false

/-- A basic string of several lines, after its opening quotes. A backslash at the end of a line takes
the space around the line break away. -/
def basicLines : Reader (List Char) := fun cs =>
  match closing '"' cs with
  | some p => some p
  | none =>
    match cs with
    | [] => none
    | '\\' :: rest =>
      if endsLine rest then do
        let ⟨next, le⟩ := skipSpace rest
        let others ← basicLines next
        return (others.within le).past
      else do
        let p ← escape rest
        let others ← basicLines p.rest
        return (p.followedBy (others.map (p.value :: ·))).past
    | '\r' :: '\n' :: rest => do
      let others ← basicLines rest
      return (others.map ('\n' :: ·)).past.past
    | c :: rest =>
      if isControl c && c ≠ '\n' then none
      else do
        let others ← basicLines rest
        return (others.map (c :: ·)).past
termination_by cs => cs.length
decreasing_by
  · simp only [List.length_cons]
    omega
  · have := p.shorter
    simp only [List.length_cons]
    omega
  · simp only [List.length_cons]
    omega
  · simp

def literalLines : Reader (List Char) := fun cs =>
  match closing '\'' cs with
  | some p => some p
  | none =>
    match cs with
    | [] => none
    | '\r' :: '\n' :: rest => do
      let others ← literalLines rest
      return (others.map ('\n' :: ·)).past.past
    | c :: rest =>
      if isControl c && c ≠ '\n' then none
      else do
        let others ← literalLines rest
        return (others.map (c :: ·)).past
termination_by cs => cs.length
decreasing_by
  · simp only [List.length_cons]
    omega
  · simp

def dropLineBreak : (cs : List Char) → Remainder cs
  | '\n' :: rest => (Remainder.whole rest).past
  | '\r' :: '\n' :: rest => (Remainder.whole rest).past.past
  | cs => .whole cs

def string : Reader String
  | '"' :: '"' :: '"' :: rest => do
    let body := dropLineBreak rest
    let p ← basicLines body.1
    return ((p.map String.ofList).within body.2).past.past.past
  | '\'' :: '\'' :: '\'' :: rest => do
    let body := dropLineBreak rest
    let p ← literalLines body.1
    return ((p.map String.ofList).within body.2).past.past.past
  | '"' :: rest => do
    let p ← basic rest
    return (p.map String.ofList).past
  | '\'' :: rest => do
    let p ← literal rest
    return (p.map String.ofList).past
  | _ => none

def isKeyChar (c : Char) : Bool := c.isAlphanum || c = '_' || c = '-'

/-- One part of a key: bare, or a string on one line. -/
def keyPart : Reader String
  | [] => none
  | '"' :: rest => do
    let p ← basic rest
    return (p.map String.ofList).past
  | '\'' :: rest => do
    let p ← literal rest
    return (p.map String.ofList).past
  | c :: rest =>
    if isKeyChar c then
      some ⟨String.ofList (c :: rest.takeWhile isKeyChar), rest.dropWhile isKeyChar, by
        have := (List.dropWhile_sublist isKeyChar (l := rest)).length_le
        simp only [List.length_cons]
        omega⟩
    else none

/-- How many parts a key may have, and how deep arrays and inline tables may nest. -/
def deepest : Nat := 80

/-- The parts of a dotted key with blanks around them: those before the last, and the last. -/
def keyParts : Reader (List String × String) := fun cs => do
  let p := (← keyPart (skipBlanks cs)).within (length_skipBlanks_le cs)
  match h : skipBlanks p.rest with
  | '.' :: rest =>
    have lt : rest.length < cs.length := by
      have := length_skipBlanks_le p.rest
      have := p.shorter
      simp only [h, List.length_cons] at *
      omega
    let others ← keyParts rest
    return (others.map fun k => (p.value :: k.1, k.2)).within (Nat.le_of_lt lt)
  | rest => return ⟨([], p.value), rest, by
      have := length_skipBlanks_le p.rest
      have := p.shorter
      rw [h] at *
      omega⟩
termination_by cs => cs.length

def key : Reader (List String × String) := fun cs => do
  let p ← keyParts cs
  if p.value.1.length < deepest then return p else none

end ProcessNet.Toml
