/-!
Writing JSON text, over lists of characters. A string escapes quotes, backslashes and control
characters and nothing else. Arrays and objects are laid out over several lines, two spaces for each
level, an empty one staying on its line.
-/

namespace ProcessNet.Json.Layout

def hexDigit (n : Nat) : Char := (Nat.toDigits 16 n).getLastD '0'

/-- The escapes of one letter. -/
def shortEscape? : Char → Option Char
  | '"' => some '"'
  | '\\' => some '\\'
  | '\x08' => some 'b'
  | '\x0c' => some 'f'
  | '\n' => some 'n'
  | '\r' => some 'r'
  | '\t' => some 't'
  | _ => none

def encodeChar (c : Char) : List Char :=
  match shortEscape? c with
  | some e => ['\\', e]
  | none =>
    if c.toNat < 0x20 then
      ['\\', 'u', '0', '0', hexDigit (c.toNat / 16), hexDigit (c.toNat % 16)]
    else [c]

def encode (s : String) : List Char := '"' :: (s.toList.flatMap encodeChar ++ ['"'])

def natural (n : Nat) : List Char := Nat.toDigits 10 n

def null : List Char := ['n', 'u', 'l', 'l']

/-- A new line at the given level. -/
def newline (level : Nat) : List Char := '\n' :: List.replicate (2 * level) ' '

/-- Items on lines of their own, one level below the brackets. -/
def bracketed (opening closing : Char) (level : Nat) (items : List (List Char)) : List Char :=
  match items with
  | [] => [opening, closing]
  | _ =>
    let lines := items.map (newline (level + 1) ++ ·)
    opening :: (List.intercalate [','] lines ++ newline level ++ [closing])

def array (level : Nat) (items : List (List Char)) : List Char := bracketed '[' ']' level items

def member (key : String) (value : List Char) : List Char := encode key ++ ':' :: ' ' :: value

def object (level : Nat) (members : List (String × List Char)) : List Char :=
  bracketed '\x7b' '\x7d' level (members.map fun m => member m.1 m.2)

end ProcessNet.Json.Layout
