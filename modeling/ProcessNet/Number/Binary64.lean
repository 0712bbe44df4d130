/-!
Double-precision numbers as exact data. The representable magnitudes are listed in increasing order
and a number is its sign with the rank of its magnitude in that list: a rank is eleven bits of
exponent above 52 bits of fraction, the rank after the last finite one is infinity, and the ranks
above it are not numbers. Every finite magnitude is a whole number of units of 2^-1074, so order is
the order of integers and no rounding takes part in a comparison. Infinity counts as the 2^1024 that
would follow the largest finite number, which puts it above all of them.
-/

namespace ProcessNet

structure Binary64 where
  negative : Bool
  rank : Fin (Nat.pow 2 63)

namespace Binary64

def infinityRank : Nat := 2047 * Nat.pow 2 52

/-- The whole number of units of 2^-1074 that the magnitude of this rank amounts to. -/
def unitsOfRank (rank : Nat) : Nat :=
  let fractions := Nat.pow 2 52
  if rank < fractions then rank
  else (fractions + rank % fractions) * Nat.pow 2 (rank / fractions - 1)

theorem unitsOfRank_zero : unitsOfRank 0 = 0 := by decide

def signedZero (negative : Bool) : Binary64 := ⟨negative, ⟨0, by decide⟩⟩

def zero : Binary64 := signedZero false

def infinity (negative : Bool) : Binary64 := ⟨negative, ⟨infinityRank, by decide⟩⟩

def nan : Binary64 := ⟨false, ⟨infinityRank + Nat.pow 2 51, by decide⟩⟩

def isNaN (x : Binary64) : Bool := infinityRank < x.rank

def isInfinite (x : Binary64) : Bool := x.rank = infinityRank

def units (x : Binary64) : Int :=
  if x.negative then -(unitsOfRank x.rank : Int) else unitsOfRank x.rank

/-- The two zeros are equal, and what is not a number has no order. -/
def compare? (x y : Binary64) : Option Ordering :=
  if x.isNaN || y.isNaN then none else some (compare x.units y.units)

/-- Numeric equality: the two zeros are equal and what is not a number differs from itself. -/
instance : BEq Binary64 := ⟨fun x y => x.compare? y == some .eq⟩

def lt (x y : Binary64) : Bool := x.compare? y == some .lt

end Binary64

end ProcessNet
