/-!
Dates and times. A date may stand alone, before a time, or before a time with an offset, and a time
may stand alone. All numbers have a fixed count of digits but the fraction of a second, and a time may
end with its minutes. Days have to exist in their month, and a minute may have a leap second.
-/

namespace ProcessNet.Toml.Datetime

/-- A number of exactly so many digits, within bounds. -/
def field (count least most : Nat) (cs : List Char) : Option (Nat × List Char) :=
  let digits := cs.take count
  let value := digits.foldl (fun n c => 10 * n + (c.toNat - '0'.toNat)) 0
  if digits.length = count && digits.all Char.isDigit && least ≤ value && value ≤ most then
    some (value, cs.drop count)
  else none

def sign (c : Char) : List Char → Option (List Char)
  | d :: rest => if d = c then some rest else none
  | [] => none

def isLeapYear (year : Nat) : Bool := year % 4 = 0 && (year % 100 ≠ 0 || year % 400 = 0)

def daysIn (year month : Nat) : Nat :=
  if month = 2 then (if isLeapYear year then 29 else 28)
  else if month = 4 ∨ month = 6 ∨ month = 9 ∨ month = 11 then 30
  else 31

def date (cs : List Char) : Option (List Char) := do
  let (year, cs) ← field 4 0 9999 cs
  let (month, cs) ← field 2 1 12 (← sign '-' cs)
  let (_, cs) ← field 2 1 (daysIn year month) (← sign '-' cs)
  return cs

def secondFraction : List Char → Option (List Char)
  | '.' :: rest =>
    if (rest.head?).any Char.isDigit then some (rest.dropWhile Char.isDigit) else none
  | cs => some cs

def seconds : List Char → Option (List Char)
  | ':' :: rest => do
    let (_, rest) ← field 2 0 60 rest
    secondFraction rest
  | cs => some cs

def time (cs : List Char) : Option (List Char) := do
  let (_, cs) ← field 2 0 23 cs
  let (_, cs) ← field 2 0 59 (← sign ':' cs)
  seconds cs

def offset : List Char → Option (List Char)
  | [] => some []
  | 'Z' :: rest => some rest
  | 'z' :: rest => some rest
  | c :: rest =>
    if c = '+' ∨ c = '-' then do
      let (_, rest) ← field 2 0 23 rest
      let (_, rest) ← field 2 0 59 (← sign ':' rest)
      return rest
    else none

def isDatetime (cs : List Char) : Bool :=
  match date cs with
  | some [] => true
  | some (c :: rest) =>
    (c = 'T' || c = 't' || c = ' ') && (time rest).bind offset == some []
  | none => time cs == some []

end ProcessNet.Toml.Datetime
