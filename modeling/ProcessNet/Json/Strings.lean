import ProcessNet.Json.Reader
import ProcessNet.Text.Hex

/-!
Reading JSON strings after their opening quote. Control characters have to be escaped. An escape by
four hexadecimal digits stands for a UTF-16 unit, and two of them for a character beyond the first
plane; a surrogate without its partner is no character and therefore malformed. Four digits are
wanted as four bytes of text: with fewer bytes left the text ends too early, otherwise what is there
is no digit. A string that is only skipped need not make sense as characters.
-/

namespace ProcessNet.Json

open Text (hexValue?)

def utf8Length (cs : List Char) : Nat := (cs.map Char.utf8Size).foldr (· + ·) 0

def hexUnit : Reader Nat
  | a :: b :: c :: d :: rest =>
    match hexValue? a, hexValue? b, hexValue? c, hexValue? d with
    | some a, some b, some c, some d =>
      .ok ⟨((a * 16 + b) * 16 + c) * 16 + d, rest, by simp only [List.length_cons]; omega⟩
    | _, _, _, _ => .error .malformed
  | cs => if utf8Length cs < 4 then .error .truncated else .error .malformed

def isLeading (unit : Nat) : Bool := 0xd800 ≤ unit && unit < 0xdc00

def isTrailing (unit : Nat) : Bool := 0xdc00 ≤ unit && unit < 0xe000

def ofSurrogates (leading trailing : Nat) : Char :=
  Char.ofNat (0x10000 + (leading - 0xd800) * 0x400 + (trailing - 0xdc00))

/-- The second half of a pair, with its backslash. -/
def trailingUnit : Reader Nat
  | [] => .error .truncated
  | '\\' :: [] => .error .truncated
  | '\\' :: 'u' :: rest => do
    let p ← hexUnit rest
    if isTrailing p.value then
      return p.past.past
    else .error .malformed
  | _ => .error .malformed

def letterEscape? : Char → Option Char
  | '"' => some '"'
  | '\\' => some '\\'
  | '/' => some '/'
  | 'b' => some '\x08'
  | 'f' => some '\x0c'
  | 'n' => some '\n'
  | 'r' => some '\r'
  | 't' => some '\t'
  | _ => none

def escape : Reader Char
  | [] => .error .truncated
  | 'u' :: rest => do
    let p ← hexUnit rest
    if isTrailing p.value then .error .malformed
    else if isLeading p.value then
      let q ← trailingUnit p.rest
      return (p.followedBy (q.map (ofSurrogates p.value))).past
    else return (p.map Char.ofNat).past
  | c :: _ =>
    match letterEscape? c with
    | some e => .ok (.head e)
    | none => .error .malformed

def characters : Reader (List Char)
  | [] => .error .truncated
  | '"' :: _ => .ok (.head [])
  | '\\' :: rest => do
    let p ← escape rest
    let others ← characters p.rest
    return (p.followedBy (others.map (p.value :: ·))).past
  | c :: rest =>
    if c.toNat < 0x20 then .error .malformed
    else do
      let others ← characters rest
      return (others.map (c :: ·)).past
termination_by cs => cs.length
decreasing_by
  · have := p.shorter
    simp only [List.length_cons]
    omega
  · simp

def string : Reader String := fun cs => do
  let p ← characters cs
  return p.map String.ofList

/-- Passes over an escape after the backslash; surrogates need no partner. -/
def skipEscape : Reader Unit
  | [] => .error .truncated
  | 'u' :: rest => do
    let p ← hexUnit rest
    return (p.map fun _ => ()).past
  | c :: _ => if (letterEscape? c).isSome then .ok (.head ()) else .error .malformed

def skipString : Reader Unit
  | [] => .error .truncated
  | '"' :: _ => .ok (.head ())
  | '\\' :: rest => do
    let p ← skipEscape rest
    let q ← skipString p.rest
    return (p.followedBy q).past
  | c :: rest =>
    if c.toNat < 0x20 then .error .malformed
    else do
      let q ← skipString rest
      return q.past
termination_by cs => cs.length
decreasing_by
  · have := p.shorter
    simp only [List.length_cons]
    omega
  · simp

end ProcessNet.Json
