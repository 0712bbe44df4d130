import ProcessNet.Number.Binary64

/-!
Rounding of exact quotients to double precision: the nearest number, of two equally near ones the
one of even rank, and infinity from half a step above the largest finite number on. A magnitude with
at most 53 binary digits in units of 2^-1074 has its own rank; a longer one is first cut to 53
digits. Because ranks continue across a change of exponent, a carry out of the last digit needs no
case of its own.
-/

namespace ProcessNet.Binary64

/-- The integer nearest to `n / d`, a half going to the even neighbour. -/
def roundQuotient (n d : Nat) : Nat :=
  let floor := n / d
  let rest := 2 * (n % d)
  if rest < d ∨ (rest = d ∧ floor % 2 = 0) then floor else floor + 1

/-- The rank nearest to the magnitude of `n / d` units. -/
def nearestRank (n d : Nat) : Nat :=
  let cut := (n / d).log2 - 52
  min (cut * Nat.pow 2 52 + roundQuotient n (d * Nat.pow 2 cut)) infinityRank

theorem nearestRank_lt (n d : Nat) : nearestRank n d < Nat.pow 2 63 :=
  Nat.lt_of_le_of_lt (Nat.min_le_right _ _) (by decide)

def ofQuotient (negative : Bool) (n d : Nat) : Binary64 :=
  ⟨negative, ⟨nearestRank (n * Nat.pow 2 1074) d, nearestRank_lt _ _⟩⟩

def ofInt (v : Int) : Binary64 := ofQuotient (v < 0) v.natAbs 1

end ProcessNet.Binary64
