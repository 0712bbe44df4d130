import ProcessNet.Execution.Session

/-!
Drawing one of `n` candidates with 32-bit random words. A word is scaled to `n`; the whole part is the
index and the remainder tells whether a second word could still carry into it, in which case one is
taken. A single candidate takes a word too, and no candidate takes none. The words come as an
endless stream, and the session counts how many of them have been taken.
-/

namespace ProcessNet

abbrev Words := Nat → UInt32

namespace Run

def nextWord (words : Words) : Run Nat := do
  let word := words (← get).drawn
  modify fun s => { s with drawn := s.drawn + 1 }
  return word.toNat

/-- An index below `n`, for `n` from 1 on. -/
def drawIndex (words : Words) (n : Nat) : Run Nat := do
  let scaled := (← nextWord words) * n
  let index := scaled / Nat.pow 2 32
  let rest := scaled % Nat.pow 2 32
  if rest ≤ Nat.pow 2 32 - n then return index
  let second := (← nextWord words) * n
  return if Nat.pow 2 32 ≤ rest + second / Nat.pow 2 32 then index + 1 else index

def drawFrom {α : Type} (words : Words) (candidates : List α) : Run (Option α) := do
  if candidates.isEmpty then return none
  return candidates[← drawIndex words candidates.length]?

end Run

end ProcessNet
