import ProcessNet.Number.Decimal

/-!
The shortest decimal of a number. A decimal reads back as a number when it lies between the midpoints
to the two neighbouring numbers, a midpoint itself counting for the number of even rank. On the grid
of decimals with a given count of digits only the two grid points around the number can be nearest
to it, so a grid has such a decimal exactly when one of these two points reads back. The first count
that succeeds is taken, of two points the nearer, and of two equally near ones the larger.
-/

namespace ProcessNet.Binary64

/-- Whether `c * 10 ^ e` lies where values round to the magnitude of this rank. Values are compared
in halves of 2^-1074, multiplied by the power of ten that clears a fraction. -/
def readsBack (rank : Nat) (e : Int) (c : Nat) : Bool :=
  let value := c * Nat.pow 2 1075 * Nat.pow 10 e.toNat
  let clear := Nat.pow 10 (-e).toNat
  let low := (unitsOfRank (rank - 1) + unitsOfRank rank) * clear
  let high := (unitsOfRank rank + unitsOfRank (rank + 1)) * clear
  if rank % 2 = 0 then low ≤ value && value ≤ high else low < value && value < high

/-- The last grid point `c * 10 ^ e` that is not above the magnitude of this rank. -/
def gridFloor (rank : Nat) (e : Int) : Nat :=
  unitsOfRank rank * Nat.pow 10 (-e).toNat / (Nat.pow 2 1074 * Nat.pow 10 e.toNat)

/-- Whether the grid point after the floor is at least as near as the floor itself. -/
def upperIsNear (rank : Nat) (e : Int) : Bool :=
  (2 * gridFloor rank e + 1) * Nat.pow 2 1074 * Nat.pow 10 e.toNat
    ≤ 2 * unitsOfRank rank * Nat.pow 10 (-e).toNat

/-- The decimal on the grid of step `10 ^ e` that reads back, if there is one. -/
def onGrid? (rank : Nat) (e : Int) : Option Decimal :=
  let floor := gridFloor rank e
  let lower := readsBack rank e floor
  let upper := readsBack rank e (floor + 1)
  if upper && (!lower || upperIsNear rank e) then some ⟨floor + 1, e⟩
  else if lower then some ⟨floor, e⟩
  else none

/-- The number of digits before the point, negative for a fraction that starts with zeros: the least
power of ten above the magnitude. Magnitudes are at least 2^-1074, so 400 more places make the digits
of the whole part tell it. -/
def leadingPower (rank : Nat) : Int :=
  (Decimal.digitCount (unitsOfRank rank * Nat.pow 10 400 / Nat.pow 2 1074) : Int) - 400

/-- Seventeen digits always suffice. -/
def shortest (rank : Nat) : Decimal :=
  let counts := List.range' 1 17
  (counts.findSome? fun n : Nat => onGrid? rank (leadingPower rank - n)).getD ⟨0, 0⟩

/-- A number is written positionally with the fewest digits that read back. -/
def text (x : Binary64) : String :=
  if x.isNaN then "NaN"
  else
    let magnitude :=
      if x.isInfinite then "inf"
      else if x.rank.val = 0 then "0"
      else (shortest x.rank).text
    if x.negative then "-" ++ magnitude else magnitude

end ProcessNet.Binary64
