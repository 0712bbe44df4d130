import ProcessNet.Data.Variable

/-!
Guards: conditions on the current values of variables. A guard names its variables and is evaluated
against the variables of the net that holds it, so it keeps its meaning in a copy once its names are
renamed. A conjunction is evaluated from the left and stops at the first part that does not accept,
be it by a rejection or by an error. Reading a variable that is undeclared or has no value is an
error.
-/

namespace ProcessNet

inductive Comparison
  | equal
  | smaller
  | smallerOrEqual
  | greater
  | greaterOrEqual
deriving DecidableEq

namespace Comparison

/-- Values that have no order satisfy no comparison. -/
def holds (op : Comparison) (left right : Value) : Bool :=
  match left.compare? right with
  | none => false
  | some o =>
    match op with
    | equal => o.isEq
    | smaller => o.isLT
    | smallerOrEqual => o.isLE
    | greater => o.isGT
    | greaterOrEqual => o.isGE

def symbol : Comparison → String
  | equal => "=="
  | smaller => "<"
  | smallerOrEqual => "<="
  | greater => ">"
  | greaterOrEqual => ">="

end Comparison

inductive Guard
  | always
  | compare (name : String) (op : Comparison) (value : Value)
  | truth (name : String) (expected : Bool)
  | predicate (name : String) (holds : Value → Bool)
  | allOf (guards : List Guard)

def Variables.read (vars : Variables) (name : String) : Except NetError Value :=
  match vars.get? name with
  | none => .error (.unknownReference .variable name)
  | some x =>
    match x.value with
    | none => .error (.unsetVariable name)
    | some v => .ok v

namespace Guard

def isAlways : Guard → Bool
  | always => true
  | _ => false

mutual

def accepts (vars : Variables) : Guard → Except NetError Bool
  | always => .ok true
  | compare x op v => (vars.read x).map fun current => op.holds current v
  | truth x expected => (vars.read x).map fun current => current.isTruthy == expected
  | predicate x holds => (vars.read x).map holds
  | allOf guards => acceptsAll vars guards

def acceptsAll (vars : Variables) : List Guard → Except NetError Bool
  | [] => .ok true
  | g :: rest =>
    match g.accepts vars with
    | .ok true => acceptsAll vars rest
    | other => other

end

mutual

/-- The variables read, in the order of evaluation and with repetitions. -/
def reads : Guard → List String
  | always => []
  | compare x _ _ => [x]
  | truth x _ => [x]
  | predicate x _ => [x]
  | allOf guards => readsAll guards

def readsAll : List Guard → List String
  | [] => []
  | g :: rest => g.reads ++ readsAll rest

end

mutual

def rename (r : String → String) : Guard → Guard
  | always => always
  | compare x op v => compare (r x) op v
  | truth x expected => truth (r x) expected
  | predicate x holds => predicate (r x) holds
  | allOf guards => allOf (renameAll r guards)

def renameAll (r : String → String) : List Guard → List Guard
  | [] => []
  | g :: rest => g.rename r :: renameAll r rest

end

mutual

theorem reads_rename (r : String → String) : (g : Guard) → (g.rename r).reads = g.reads.map r
  | always => rfl
  | compare _ _ _ => rfl
  | truth _ _ => rfl
  | predicate _ _ => rfl
  | allOf guards => readsAll_renameAll r guards

theorem readsAll_renameAll (r : String → String) :
    (guards : List Guard) → readsAll (renameAll r guards) = (readsAll guards).map r
  | [] => rfl
  | g :: rest => by
    rw [renameAll, readsAll, readsAll, List.map_append, reads_rename r g,
      readsAll_renameAll r rest]

end

/-- The only errors of a guard are that a variable is undeclared or has no value. -/
def IsReadError (e : NetError) : Prop :=
  ∃ name, e = .unknownReference .variable name ∨ e = .unsetVariable name

theorem isReadError_of_read {vars : Variables} {name : String} {e : NetError}
    (h : vars.read name = .error e) : IsReadError e := by
  rw [Variables.read] at h
  split at h
  · cases h
    exact ⟨name, .inl rfl⟩
  · split at h
    · cases h
      exact ⟨name, .inr rfl⟩
    · cases h

theorem isReadError_of_map {vars : Variables} {name : String} {f : Value → Bool} {e : NetError}
    (h : (vars.read name).map f = .error e) : IsReadError e := by
  rcases hr : vars.read name with e' | v <;> rw [hr] at h
  · cases h
    exact isReadError_of_read hr
  · cases h

mutual

theorem isReadError_of_accepts {vars : Variables} {e : NetError} :
    (g : Guard) → g.accepts vars = .error e → IsReadError e
  | always, h => nomatch h
  | compare _ _ _, h => isReadError_of_map h
  | truth _ _, h => isReadError_of_map h
  | predicate _ _, h => isReadError_of_map h
  | allOf guards, h => isReadError_of_acceptsAll guards h

theorem isReadError_of_acceptsAll {vars : Variables} {e : NetError} :
    (guards : List Guard) → acceptsAll vars guards = .error e → IsReadError e
  | [], h => nomatch h
  | g :: rest, h => by
    rcases hg : g.accepts vars with e' | accepted
    · rw [acceptsAll, hg] at h
      cases h
      exact isReadError_of_accepts g hg
    · cases accepted with
      | false =>
        rw [acceptsAll, hg] at h
        cases h
      | true =>
        rw [acceptsAll, hg] at h
        exact isReadError_of_acceptsAll rest h

end

mutual

def inspect : Guard → String
  | always => "AcceptAlways"
  | compare x op v => "Compare(" ++ x ++ " " ++ op.symbol ++ " " ++ v.text ++ ")"
  | truth x expected => "Truth(" ++ x ++ " is " ++ (if expected then "true" else "false") ++ ")"
  | predicate x _ => "Predicate(" ++ x ++ ")"
  | allOf guards => "AllOf([" ++ ", ".intercalate (inspectAll guards) ++ "])"

def inspectAll : List Guard → List String
  | [] => []
  | g :: rest => g.inspect :: inspectAll rest

end

end Guard

end ProcessNet
