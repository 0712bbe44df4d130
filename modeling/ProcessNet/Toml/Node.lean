import ProcessNet.Number.Binary64

/-!
Documents of tables. A table can come into being in four ways: by its own header, as something that a
longer header passes through, by a dotted key, or inline; arrays of tables grow by one table with each
of their headers. How a table came into being decides what may still be added to it: a header may
open a table once, a dotted key may only extend tables that dotted keys have made, an inline table is
closed, and no key is given twice. A text that has the look of a number but no value that fits is kept
as unreadable until somebody asks for it.
-/

namespace ProcessNet.Toml

inductive Scalar
  | text (s : String)
  | integer (v : Int)
  | float (v : Binary64)
  | unreadable
  | bool (b : Bool)
  | datetime (s : String)

/-- Integers have up to 128 bits, with or without a sign. -/
def Scalar.isReadable : Scalar → Bool
  | .integer v => -Int.pow 2 127 ≤ v && v < Int.pow 2 128
  | .unreadable => false
  | _ => true

inductive TableKind
  | header
  | implied
  | dotted
deriving DecidableEq

inductive Node
  | scalar (s : Scalar)
  | array (items : List Node)
  | inline (entries : List (String × Node))
  | table (kind : TableKind) (entries : List (String × Node))
  | tables (items : List (List (String × Node)))

abbrev Entries := List (String × Node)

mutual

/-- Whether all numbers in a node can be read. -/
def Node.isReadable : Node → Bool
  | .scalar s => s.isReadable
  | .array items => Node.areReadable items
  | .inline entries => Entries.isReadable entries
  | .table _ entries => Entries.isReadable entries
  | .tables items => Entries.areReadable items

def Node.areReadable : List Node → Bool
  | [] => true
  | node :: rest => node.isReadable && Node.areReadable rest

def Entries.isReadable : List (String × Node) → Bool
  | [] => true
  | (_, node) :: rest => node.isReadable && Entries.isReadable rest

def Entries.areReadable : List (List (String × Node)) → Bool
  | [] => true
  | es :: rest => Entries.isReadable es && Entries.areReadable rest

end

namespace Entries

def put (key : String) (node : Node) : Entries → Entries
  | [] => [(key, node)]
  | e :: rest => if e.1 = key then (key, node) :: rest else e :: put key node rest

/-- Changes the table at the end of a path, given how it came into being. Tables missing on the way
are made, and of an array of tables the last one is meant. A dotted path does not pass through a table
with a header of its own. -/
def changeAt (dotted : Bool) (change : TableKind → Entries → Option Entries) :
    (path : List String) → TableKind → Entries → Option Entries
  | [], kind, es => change kind es
  | key :: path, _, es =>
    match es.lookup key with
    | none => do
      let kind : TableKind := if dotted then .dotted else .implied
      let inner ← changeAt dotted change path kind []
      return put key (.table kind inner) es
    | some (.table kind inner) =>
      if dotted && kind = .header then none
      else do
        let inner ← changeAt dotted change path kind inner
        return put key (.table kind inner) es
    | some (.tables items) => do
      let last ← items.getLast?
      let inner ← changeAt dotted change path .header last
      return put key (.tables (items.dropLast ++ [inner])) es
    | some _ => none

def add (path : List String) (key : String) (node : Node) (es : Entries) : Option Entries :=
  changeAt true (fun kind es =>
    if decide (kind = .dotted) = path.isEmpty || (es.lookup key).isSome then none
    else some (put key node es)) path .header es

def openTable (path : List String) (key : String) (root : Entries) : Option Entries :=
  changeAt false (fun _ es =>
    match es.lookup key with
    | none => some (put key (.table .header []) es)
    | some (.table .implied inner) => some (put key (.table .header inner) es)
    | some _ => none) path .header root

def openItem (path : List String) (key : String) (root : Entries) : Option Entries :=
  changeAt false (fun _ es =>
    match es.lookup key with
    | none => some (put key (.tables [[]]) es)
    | some (.tables items) => some (put key (.tables (items ++ [[]])) es)
    | some _ => none) path .header root

def addBelow (current path : List String) (key : String) (node : Node) (root : Entries) :
    Option Entries :=
  changeAt false (fun _ es => add path key node es) current .header root

end Entries

end ProcessNet.Toml
