import ProcessNet.Json.Values

/-!
Reading records: objects with known keys, or arrays of the same fields in their order. A record is
gathered in a draft that knows which fields have been read. A known key that comes a second time is a
misfit before its value is looked at, the values of other keys are skipped, and a field that is still
missing at the closing bracket is a misfit unless it has a default. As an array a record may leave out
fields at its end, but it may not have more items than fields.
-/

namespace ProcessNet.Json

/-- A field of a record with draft `δ`: whether it has been read, and how to read it. -/
structure Field (δ : Type) where
  key : String
  isRead : δ → Bool
  read : δ → Reader δ

structure Record (δ α : Type) where
  fields : List (Field δ)
  blank : δ
  finish : δ → Option α

/-- A field that is kept as what its reader gives. -/
def Field.of {δ β : Type} (key : String) (get : δ → Option β) (set : δ → β → δ)
    (reader : Reader β) : Field δ where
  key := key
  isRead d := (get d).isSome
  read d cs := do
    let p ← reader cs
    return p.map (set d)

namespace Record

variable {δ α : Type}

/-- What the draft makes, once the closing bracket has been read. -/
def close (r : Record δ α) (d : δ) {cs : List Char} (rest : List Char)
    (shorter : rest.length < cs.length) : Except Problem (Parsed α cs) :=
  match r.finish d with
  | some a => .ok ⟨a, rest, shorter⟩
  | none => .error .misfit

def value (r : Record δ α) (name : String) (d : δ) : Reader δ := fun cs =>
  match r.fields.find? (·.key = name) with
  | some field =>
    if field.isRead d then .error .misfit
    else do
      let colon ← mark ':' cs
      let p ← field.read d colon.rest
      return colon.followedBy p
  | none => do
    let colon ← mark ':' cs
    let p ← skipValue colon.rest
    return colon.followedBy (p.map fun _ => d)

def members (r : Record δ α) (first : Bool) (d : δ) : Reader α := fun cs => do
  match ← turn '\x7d' first cs with
  | .close rest shorter => r.close d rest shorter
  | .item start le =>
    let k ← key start
    have hk := Nat.lt_of_lt_of_le k.shorter le
    let p ← r.value k.value d k.rest
    have hp := Nat.lt_trans p.shorter hk
    let q ← r.members false p.value p.rest
    return q.within (Nat.le_of_lt hp)
termination_by cs => cs.length

/-- The fields from the given ones on, as items of an array. -/
def elements (r : Record δ α) : List (Field δ) → (first : Bool) → δ → Reader α
  | [], _, d => fun cs => do
    let bracket ← mark ']' cs
    r.close d bracket.rest bracket.shorter
  | field :: fields, first, d => fun cs => do
    match ← turn ']' first cs with
    | .close rest shorter => r.close d rest shorter
    | .item start le =>
      let p ← field.read d start
      let q ← r.elements fields false p.value p.rest
      return q.within (Nat.le_of_lt (Nat.lt_of_lt_of_le p.shorter le))

def reader (r : Record δ α) : Reader α := afterBlanks fun cs =>
  match cs with
  | '\x7b' :: rest => do
    let p ← r.members true r.blank rest
    return p.past
  | '[' :: rest => do
    let p ← r.elements r.fields true r.blank rest
    return p.past
  | cs => .error (misfitAt cs)

end Record

end ProcessNet.Json
