import ProcessNet.Number.Shortest

/-!
Values of variables: 64-bit integers, double-precision numbers and truth values. Two integers are
compared exactly; any other pair is compared through the numbers the values stand for, an integer
being rounded to the nearest double and a truth value standing for 0 or 1. Equality of values is
finer than that comparison, since values of different kinds are never equal.
-/

namespace ProcessNet

inductive Kind
  | int
  | float
  | bool
deriving DecidableEq

def Kind.name : Kind → String
  | .int => "Int"
  | .float => "Float"
  | .bool => "Bool"

inductive Value
  | int (v : Int64)
  | float (v : Binary64)
  | bool (v : Bool)

namespace Value

def kind : Value → Kind
  | int _ => .int
  | float _ => .float
  | bool _ => .bool

def number : Value → Binary64
  | int v => .ofInt v.toInt
  | float v => v
  | bool v => .ofInt (if v then 1 else 0)

/-- Only zero is false; what is not a number counts as true. -/
def isTruthy (v : Value) : Bool := !(v.number == .zero)

def compare? : Value → Value → Option Ordering
  | int v, int w => some (compare v.toInt w.toInt)
  | v, w => v.number.compare? w.number

instance : BEq Value where
  beq
    | int v, int w => v == w
    | float v, float w => v == w
    | bool v, bool w => v == w
    | _, _ => false

def text : Value → String
  | int v => toString v.toInt
  | float v => v.text
  | bool v => if v then "true" else "false"

end Value

end ProcessNet
