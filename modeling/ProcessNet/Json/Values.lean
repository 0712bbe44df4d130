import ProcessNet.Json.Numbers
import ProcessNet.Json.Strings

/-!
Reading whole JSON values of an expected kind. Where a string or a number is expected and something
else begins, that something is still read as far as it is a scalar, and only then is it a misfit; a
bracket is a misfit at once, and what begins no value is malformed. Values nobody asked for are
skipped, by form alone.
-/

namespace ProcessNet.Json

/-- What a reading fails with once the value that begins here is none of the expected kind. -/
def misfitAt (cs : List Char) : Problem :=
  let after {α : Type} (scalar : Except Problem α) : Problem :=
    match scalar with
    | .ok _ => .misfit
    | .error problem => problem
  match cs with
  | [] => .truncated
  | 'n' :: rest => after (letters ['u', 'l', 'l'] rest)
  | 't' :: rest => after (letters ['r', 'u', 'e'] rest)
  | 'f' :: rest => after (letters ['a', 'l', 's', 'e'] rest)
  | '"' :: rest => after (string rest)
  | '[' :: _ => .misfit
  | '\x7b' :: _ => .misfit
  | c :: rest => if c = '-' ∨ c.isDigit then after (number (c :: rest)) else .malformed

/-- Reads past blanks what the given reader wants there. -/
def afterBlanks {α : Type} (reader : Reader α) : Reader α := fun cs => do
  let p ← reader (skipBlanks cs)
  return p.within (length_skipBlanks_le cs)

def text : Reader String := afterBlanks fun cs =>
  match cs with
  | '"' :: rest => do
    let p ← string rest
    return p.past
  | cs => .error (misfitAt cs)

def naturalNumber : Reader Nat := afterBlanks fun cs =>
  if cs.head?.any fun c => c = '-' ∨ c.isDigit then do
    let p ← number cs
    match p.value with
    | some n => return p.map fun _ => n
    | none => .error .misfit
  else .error (misfitAt cs)

def nullRest : (cs : List Char) → Except Problem (Remainder cs) := letters ['u', 'l', 'l']

def optionalText : Reader (Option String) := afterBlanks fun cs =>
  match cs with
  | 'n' :: rest => do
    let r ← nullRest rest
    return .ofRemainder none r
  | cs => do
    let p ← text cs
    return p.map some

def onlyNull : Reader Unit := afterBlanks fun cs =>
  match cs with
  | 'n' :: rest => do
    let r ← nullRest rest
    return .ofRemainder () r
  | cs => .error (misfitAt cs)

def array {α : Type} (element : Reader α) : Reader (List α) := afterBlanks fun cs =>
  match cs with
  | '[' :: rest => do
    let p ← items element true rest
    return p.past
  | cs => .error (misfitAt cs)

/-- A string where nothing else may stand. -/
def key : Reader String
  | [] => .error .truncated
  | '"' :: rest => do
    let p ← string rest
    return p.past
  | _ => .error .malformed

/-- Passes over a key, its quote included, and the colon. -/
def skipKey : Reader Unit
  | [] => .error .truncated
  | '"' :: rest => do
    let p ← skipString rest
    let q ← mark ':' p.rest
    return (p.followedBy q).past
  | _ => .error .malformed

def skipLetters (word : List Char) : Reader Unit
  | [] => .error .truncated
  | _ :: rest => do
    let r ← letters word rest
    return .ofRemainder () r

mutual

def skipValue : Reader Unit := fun cs =>
  have le := length_skipBlanks_le cs
  match h : skipBlanks cs with
  | [] => .error .truncated
  | '[' :: rest => do
    let p ← skipItems false true rest
    return p.within (by simp only [h, List.length_cons] at le; omega)
  | '\x7b' :: rest => do
    let p ← skipItems true true rest
    return p.within (by simp only [h, List.length_cons] at le; omega)
  | '"' :: rest => do
    let p ← skipString rest
    return p.within (by simp only [h, List.length_cons] at le; omega)
  | 'n' :: rest => do
    let p ← skipLetters ['u', 'l', 'l'] ('n' :: rest)
    return p.within (h ▸ le)
  | 't' :: rest => do
    let p ← skipLetters ['r', 'u', 'e'] ('t' :: rest)
    return p.within (h ▸ le)
  | 'f' :: rest => do
    let p ← skipLetters ['a', 'l', 's', 'e'] ('f' :: rest)
    return p.within (h ▸ le)
  | c :: rest =>
    if c = '-' ∨ c.isDigit then do
      let p ← skipNumber (c :: rest)
      return p.within (h ▸ le)
    else .error .malformed
termination_by cs => 2 * cs.length
decreasing_by
  all_goals
    simp only [h, List.length_cons] at le
    omega

/-- Passes over the items of an array, or the members of an object, up to the closing bracket. -/
def skipItems (keyed first : Bool) : Reader Unit := fun cs => do
  match ← turn (if keyed then '\x7d' else ']') first cs with
  | .close rest shorter => return ⟨(), rest, shorter⟩
  | .item start le =>
    if keyed then
      let k ← skipKey start
      have hk := Nat.lt_of_lt_of_le k.shorter le
      let p ← skipValue k.rest
      have hp := Nat.lt_trans p.shorter hk
      let q ← skipItems keyed false p.rest
      return q.within (Nat.le_of_lt hp)
    else
      let p ← skipValue start
      have hp := Nat.lt_of_lt_of_le p.shorter le
      let q ← skipItems keyed false p.rest
      return q.within (Nat.le_of_lt hp)
termination_by cs => 2 * cs.length + 1
decreasing_by all_goals omega

end

end ProcessNet.Json
