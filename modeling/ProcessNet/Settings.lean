import ProcessNet.Toml.Document

/-!
Settings of runs and reductions, read from a file of tables. Whatever is not given has its default and
unknown keys are ignored, though their numbers have to be readable. A section may also be written as
an array of its values in order, in which nobody looks at items beyond them, or as a date, which gives
none of them. Without a file everything has its default; a file that is no text cannot be read, and
one that is no document of tables, or gives a value of the wrong kind, cannot be understood.
-/

namespace ProcessNet

/-- Without a seed a run takes one from its surroundings. -/
structure SimulationSettings where
  seed : Option Nat
  maxSteps : Nat
deriving DecidableEq

structure PruningSettings where
  exhaustive : Bool
deriving DecidableEq

structure Settings where
  simulation : SimulationSettings
  pruning : PruningSettings
deriving DecidableEq

inductive SettingsError
  | unreadable
  | unparsable
deriving DecidableEq

def SettingsError.message : SettingsError → String
  | .unreadable => "Failed to read config file"
  | .unparsable => "Failed to parse config file"

/-- What is found where the file should be. -/
inductive SettingsFile
  | missing
  | unreadable
  | bytes (content : ByteArray)

namespace Settings

open Toml (Entries Node)

def standard : Settings := ⟨⟨none, 1000⟩, ⟨false⟩⟩

/-- A field of a section, by key or by position. -/
def field? (section? : Option Node) (key : String) (position : Nat) :
    Except SettingsError (Option Node) :=
  match section? with
  | none => .ok none
  | some (.inline es) => .ok (es.lookup key)
  | some (.table _ es) => .ok (es.lookup key)
  | some (.array items) => .ok items[position]?
  | some (.tables items) => .ok (items[position]?.map .inline)
  | some (.scalar (.datetime _)) => .ok none
  | some (.scalar _) => .error .unparsable

def natural : Node → Except SettingsError Nat
  | .scalar (.integer v) => if 0 ≤ v ∧ v < Int.pow 2 64 then .ok v.toNat else .error .unparsable
  | _ => .error .unparsable

def truth : Node → Except SettingsError Bool
  | .scalar (.bool b) => .ok b
  | _ => .error .unparsable

/-- Whether the numbers of an entry can be read, items of a section's array left aside. -/
def isEntryReadable (entry : String × Node) : Bool :=
  match entry.2 with
  | .array items => ["simulation", "pruning"].contains entry.1 || Node.areReadable items
  | node => node.isReadable

def ofEntries (es : Entries) : Except SettingsError Settings := do
  unless es.all isEntryReadable do throw .unparsable
  let simulation := es.lookup "simulation"
  let pruning := es.lookup "pruning"
  let seed ← (← field? simulation "seed" 0).mapM natural
  let maxSteps ← (← field? simulation "max_steps" 1).mapM natural
  let exhaustive ← (← field? pruning "exhaustive" 0).mapM truth
  return ⟨⟨seed, maxSteps.getD standard.simulation.maxSteps⟩,
    ⟨exhaustive.getD standard.pruning.exhaustive⟩⟩

def ofText (text : String) : Except SettingsError Settings :=
  match Toml.read text with
  | some es => ofEntries es
  | none => .error .unparsable

def load : SettingsFile → Except SettingsError Settings
  | .missing => .ok standard
  | .unreadable => .error .unreadable
  | .bytes content =>
    match String.fromUTF8? content with
    | some text => ofText text
    | none => .error .unreadable

/-- The settings as compact JSON text. -/
def text (s : Settings) : String :=
  let seed := s.simulation.seed.elim "null" toString
  let exhaustive := if s.pruning.exhaustive then "true" else "false"
  "\x7b\"simulation\":\x7b\"seed\":" ++ seed ++ ",\"max_steps\":" ++
    toString s.simulation.maxSteps ++ "\x7d,\"pruning\":\x7b\"exhaustive\":" ++ exhaustive ++
    "\x7d\x7d"

end Settings

end ProcessNet
