/-!
What reading a part of a text gives: a value and the rest of the text, with the proof that the rest is
shorter. Repeated reading therefore ends without a bound on it. Where reading may also take nothing,
the rest is only known to be no longer.
-/

namespace ProcessNet

structure Parsed (α : Type) (cs : List Char) where
  value : α
  rest : List Char
  shorter : rest.length < cs.length

/-- A rest of a text that may still be the whole of it. -/
abbrev Remainder (cs : List Char) := { rest : List Char // rest.length ≤ cs.length }

namespace Remainder

variable {cs ds : List Char} {c : Char}

def whole (cs : List Char) : Remainder cs := ⟨cs, Nat.le_refl _⟩

/-- The same rest, seen from a longer text. -/
def within (r : Remainder ds) (lt : ds.length < cs.length) : Remainder cs :=
  ⟨r.1, Nat.le_trans r.2 (Nat.le_of_lt lt)⟩

/-- The same rest, seen from one character before. -/
def past (r : Remainder cs) : Remainder (c :: cs) := ⟨r.1, Nat.le_succ_of_le r.2⟩

end Remainder

namespace Parsed

variable {α β : Type} {cs ds : List Char} {c : Char}

def head (a : α) : Parsed α (c :: cs) := ⟨a, cs, Nat.lt_succ_self _⟩

def ofRemainder (a : α) (r : Remainder cs) : Parsed α (c :: cs) :=
  ⟨a, r.1, Nat.lt_succ_of_le r.2⟩

/-- The same result seen from a text that is at least as long. -/
def within (p : Parsed α ds) (le : ds.length ≤ cs.length) : Parsed α cs :=
  ⟨p.value, p.rest, Nat.lt_of_lt_of_le p.shorter le⟩

/-- The same result, seen from one character before. -/
def past (p : Parsed α cs) : Parsed α (c :: cs) := p.within (Nat.le_succ _)

/-- The result of a second reading, seen from where the first one began. -/
def followedBy (p : Parsed α cs) (q : Parsed β p.rest) : Parsed β cs :=
  q.within (Nat.le_of_lt p.shorter)

def map (f : α → β) (p : Parsed α cs) : Parsed β cs := ⟨f p.value, p.rest, p.shorter⟩

end Parsed

end ProcessNet
