import ProcessNet.Json.Reader
import ProcessNet.Number.Decimal

/-!
Reading JSON numbers. A natural number of 64 bits is read exactly. Any other number only has to be
one that a double can hold: its digits are gathered into a 64-bit significand as far as they fit, the
whole digits that no longer fit raise the exponent and such fraction digits are dropped, and the
significand times its power of ten, both rounded, must stay finite. A number that is only skipped has
to be well formed and nothing more.
-/

namespace ProcessNet.Json

/-- A number as written: its sign, whole digits, fraction digits and exponent. -/
structure Numeral where
  negative : Bool
  whole : List Char
  fraction : Option (List Char)
  exponent : Option Int

def digitsFrom (c : Char) (rest : List Char) : Parsed (List Char) (c :: rest) :=
  ⟨c :: rest.takeWhile Char.isDigit, rest.dropWhile Char.isDigit, by
    have := (List.dropWhile_sublist Char.isDigit (l := rest)).length_le
    simp only [List.length_cons]
    omega⟩

def digits : Reader (List Char)
  | [] => .error .truncated
  | c :: rest => if c.isDigit then .ok (digitsFrom c rest) else .error .malformed

/-- Zero stands alone. -/
def wholeDigits : Reader (List Char)
  | '0' :: rest =>
    if (rest.head?).any Char.isDigit then .error .malformed else .ok (.head ['0'])
  | cs => digits cs

/-- Something optional and what follows it. -/
abbrev Rest (α : Type) (cs : List Char) := { p : Option α × List Char // p.2.length ≤ cs.length }

namespace Rest

variable {α : Type}

def none (cs : List Char) : Rest α cs := ⟨(.none, cs), Nat.le_refl _⟩

/-- Something after the character that announces it. -/
def some {c : Char} {cs : List Char} (p : Parsed α cs) : Rest α (c :: cs) :=
  ⟨(.some p.value, p.rest), Nat.le_succ_of_le (Nat.le_of_lt p.shorter)⟩

end Rest

def fraction : (cs : List Char) → Except Problem (Rest (List Char) cs)
  | '.' :: rest => do
    let p ← digits rest
    return .some p
  | cs => .ok (.none cs)

def exponentDigits : Reader Int
  | '-' :: rest => do
    let p ← digits rest
    return (p.map fun ds => -(Decimal.natOfDigits ds : Int)).past
  | '+' :: rest => do
    let p ← digits rest
    return (p.map fun ds => (Decimal.natOfDigits ds : Int)).past
  | cs => do
    let p ← digits cs
    return p.map fun ds => Decimal.natOfDigits ds

def exponent : (cs : List Char) → Except Problem (Rest Int cs)
  | c :: rest =>
    if c = 'e' ∨ c = 'E' then do
      let p ← exponentDigits rest
      return .some p
    else .ok (.none (c :: rest))
  | [] => .ok (.none [])

def unsignedNumeral (negative : Bool) : Reader Numeral := fun cs => do
  let p ← wholeDigits cs
  let ⟨(f, afterFraction), le₁⟩ ← fraction p.rest
  let ⟨(e, rest), le₂⟩ ← exponent afterFraction
  return ⟨⟨negative, p.value, f, e⟩, rest, by
    have := p.shorter
    dsimp only at le₁ le₂
    omega⟩

def numeral : Reader Numeral
  | '-' :: rest => do
    let p ← unsignedNumeral true rest
    return p.past
  | cs => unsignedNumeral false cs

def significandCapacity : Nat := Nat.pow 2 64 - 1

/-- The significand of the whole digits and the number of them that did not fit. -/
def wholeSignificand (digits : List Char) : Nat × Nat :=
  digits.foldl (fun (s, cut) c =>
    let next := 10 * s + Decimal.digitValue c
    if 0 < cut ∨ significandCapacity < next then (s, cut + 1) else (next, 0)) (0, 0)

/-- Continues a significand by those first fraction digits that fit, and counts them. -/
def fractionSignificand (s : Nat) : List Char → Nat × Nat
  | [] => (s, 0)
  | c :: rest =>
    let next := 10 * s + Decimal.digitValue c
    if significandCapacity < next then (s, 0)
    else
      let (s, places) := fractionSignificand next rest
      (s, places + 1)

/-- Whether a significand times a power of ten, each rounded to a double, has no finite product. -/
def exceedsDoubles (significand : Nat) (e : Int) : Bool :=
  if significand = 0 ∨ e < 0 then false
  else if 308 < e then true
  else
    let units (n : Nat) := Binary64.unitsOfRank (Binary64.ofInt n).rank
    Binary64.nearestRank (units significand * units (Nat.pow 10 e.toNat)) (Nat.pow 2 1074)
      = Binary64.infinityRank

namespace Numeral

def outOfRange (n : Numeral) : Bool :=
  let (s, cut) := wholeSignificand n.whole
  let (s, places) := fractionSignificand s (n.fraction.getD [])
  exceedsDoubles s (cut - places + n.exponent.getD 0)

/-- The value of a plain number without sign that 64 bits hold. -/
def natural? (n : Numeral) : Option Nat :=
  let value := Decimal.natOfDigits n.whole
  if !n.negative && n.fraction.isNone && n.exponent.isNone && value ≤ significandCapacity then
    some value
  else none

end Numeral

/-- A number that is no double is no number; otherwise its value if it is a natural number. -/
def number : Reader (Option Nat) := fun cs => do
  let p ← numeral cs
  if p.value.outOfRange then .error .malformed
  return p.map Numeral.natural?

/-- Every fault of a skipped number is one of form, even the end of the text. -/
def skipNumber : Reader Unit := fun cs =>
  match numeral cs with
  | .ok p => .ok (p.map fun _ => ())
  | .error _ => .error .malformed

end ProcessNet.Json
