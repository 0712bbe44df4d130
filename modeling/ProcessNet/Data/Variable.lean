import ProcessNet.Collections.OrderedMap
import ProcessNet.Error

/-!
Typed variables with optional bounds. A variable is declared without checks; `validate` decides
whether a value may be assigned: its kind must suit the variable's, an integer also suiting a float
variable, and its number must not be below the lower bound nor above the upper bound. A bound that is
not a number excludes nothing. Truth values are always bounded by 0 and 1, whatever was declared.
-/

namespace ProcessNet

structure Variable where
  name : String
  value : Option Value
  kind : Kind
  lower : Option Binary64
  upper : Option Binary64
deriving BEq

abbrev Variables := OrderedMap String Variable

namespace Variable

def declare (name : String) (kind : Kind) : Variable := ⟨name, none, kind, none, none⟩

def number (x : Variable) : Option Binary64 := x.value.map Value.number

def lowerBound (x : Variable) : Option Binary64 :=
  match x.kind with
  | .bool => some (.ofInt 0)
  | _ => x.lower

def upperBound (x : Variable) : Option Binary64 :=
  match x.kind with
  | .bool => some (.ofInt 1)
  | _ => x.upper

def suits : Kind → Kind → Bool
  | .int, .int => true
  | .float, .float => true
  | .float, .int => true
  | .bool, .bool => true
  | _, _ => false

/-- The kind is checked first, then the lower bound, then the upper bound. -/
def unsuitable? (x : Variable) (v : Value) : Option Unsuitable :=
  if !suits x.kind v.kind then some (.kindMismatch v.kind x.kind)
  else
    match x.lowerBound.filter v.number.lt with
    | some bound => some (.belowLower v bound)
    | none => (x.upperBound.filter (·.lt v.number)).map (.aboveUpper v)

def validate (x : Variable) (v : Value) : Except NetError Unit :=
  match x.unsuitable? v with
  | some reason => .error (.invalidValue x.name reason)
  | none => .ok ()

theorem validate_eq_ok {x : Variable} {v : Value} :
    x.validate v = .ok () ↔ x.unsuitable? v = none := by
  rw [validate]
  cases x.unsuitable? v <;> simp

end Variable

end ProcessNet
