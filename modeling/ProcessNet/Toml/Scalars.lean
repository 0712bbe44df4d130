import ProcessNet.Number.Decimal
import ProcessNet.Text.Hex
import ProcessNet.Toml.Datetime
import ProcessNet.Toml.Node

/-!
Values that are written without quotes: truth values, integers, floats, dates and times. Underscores
may stand between two digits. A decimal number has no leading zero; integers may also be hexadecimal,
octal or binary, then without a sign. Reading goes by the look of a number: what follows the first
underscore of an integer need not be digits, as long as hexadecimal ones stand beside each underscore,
and the digits after a radix may be missing. Such a text is kept as unreadable, and so is a float that
rounds to infinity.
-/

namespace ProcessNet.Toml

open Text (hexValue?)

/-- The digits without the underscores between them. -/
def plainDigits? (isDigit : Char → Bool) : List Char → Option (List Char)
  | [] => none
  | [c] => if isDigit c then some [c] else none
  | c :: '_' :: rest =>
    if isDigit c then (plainDigits? isDigit rest).map (c :: ·) else none
  | c :: rest => if isDigit c then (plainDigits? isDigit rest).map (c :: ·) else none

def isHexDigit (c : Char) : Bool := (hexValue? c).isSome

/-- Whether a hexadecimal digit stands on either side of every underscore. -/
def underscoresFit : List Char → Bool
  | [] => true
  | '_' :: _ => false
  | c :: '_' :: rest => isHexDigit c && (rest.head?).any isHexDigit && underscoresFit rest
  | _ :: rest => underscoresFit rest

def radixDigits? : List Char → Option (Nat × List Char)
  | '0' :: 'x' :: rest => some (16, rest)
  | '0' :: 'o' :: rest => some (8, rest)
  | '0' :: 'b' :: rest => some (2, rest)
  | _ => none

def radixInteger? (radix : Nat) (cs : List Char) : Option Scalar :=
  if cs.isEmpty then some .unreadable
  else do
    let digits ← plainDigits? (fun c => (hexValue? c).any (· < radix)) cs
    return .integer (digits.foldl (fun n c => radix * n + (hexValue? c).getD 0) (0 : Nat))

def splitSign : List Char → Bool × List Char
  | '-' :: rest => (true, rest)
  | '+' :: rest => (false, rest)
  | cs => (false, cs)

/-- Whether a zero leads other digits. -/
def hasLeadingZero (digits : List Char) : Bool := digits.head? = some '0' && digits.length ≠ 1

/-- A decimal integer after its sign. -/
def decimalInteger (negative : Bool) (cs : List Char) : Scalar :=
  let digits := cs.filter (· ≠ '_')
  let n := Decimal.natOfDigits digits
  if digits.all Char.isDigit then .integer (if negative then -(n : Int) else n) else .unreadable

/-- The part before the first character of a kind, and what follows that character. -/
def splitAtFirst (p : Char → Bool) (cs : List Char) : List Char × Option (List Char) :=
  (cs.takeWhile (!p ·), (cs.dropWhile (!p ·)).tail?)

def exponent? (cs : List Char) : Option Int := do
  let (negative, digits) := splitSign cs
  let n := Decimal.natOfDigits (← plainDigits? Char.isDigit digits)
  return if negative then -(n : Int) else n

def wholeDigits? (cs : List Char) : Option (List Char) := do
  let digits ← plainDigits? Char.isDigit cs
  if hasLeadingZero digits then none else return digits

/-- A number with a fraction, an exponent or both, after its sign. -/
def decimalFloat? (negative : Bool) (body : List Char) : Option Scalar := do
  let (mantissa, exponent) := splitAtFirst (fun c => c = 'e' || c = 'E') body
  let (whole, fraction) := splitAtFirst (· = '.') mantissa
  let whole ← wholeDigits? whole
  let fraction ← match fraction with
    | none => some []
    | some digits => plainDigits? Char.isDigit digits
  let e ← match exponent with
    | none => some 0
    | some e => exponent? e
  let x := Decimal.toBinary64 negative
    ⟨Decimal.natOfDigits (whole ++ fraction), e - fraction.length⟩
  return if x.isInfinite then .unreadable else .float x

def decimal? (negative : Bool) (body : List Char) : Option Scalar :=
  let rest := body.dropWhile Char.isDigit
  if rest.any fun c => c = '.' || c = 'e' || c = 'E' then decimalFloat? negative body
  else if rest.contains ' ' || hasLeadingZero body || !underscoresFit body then none
  else if rest.head?.all (· = '_') && !body.isEmpty then some (decimalInteger negative body)
  else none

def number? (cs : List Char) : Option Scalar :=
  let (negative, body) := splitSign cs
  if body = ['i', 'n', 'f'] then some (.float (.infinity negative))
  else if body = ['n', 'a', 'n'] then some (.float { Binary64.nan with negative := negative })
  else
    match radixDigits? cs with
    | some (radix, digits) => radixInteger? radix digits
    | none => decimal? negative body

/-- The value that an unquoted text stands for. -/
def scalar? (cs : List Char) : Option Scalar :=
  if cs = ['t', 'r', 'u', 'e'] then some (.bool true)
  else if cs = ['f', 'a', 'l', 's', 'e'] then some (.bool false)
  else if Datetime.isDatetime cs then some (.datetime (String.ofList cs))
  else number? cs

end ProcessNet.Toml
