import ProcessNet.Data.Guard

/-!
What a guard sees of the variables. It is evaluated by reading the variables it names and by nothing
else, so it answers alike over variables that read alike; and a renamed guard answers over variables
that read under the new names what the others read under the old ones. An error names a variable, and
the name in it is the new one.
-/

namespace ProcessNet

def NetError.renameVariable (r : String → String) : NetError → NetError
  | .duplicateIdentifier .variable name => .duplicateIdentifier .variable (r name)
  | .unknownReference .variable name => .unknownReference .variable (r name)
  | .unsetVariable name => .unsetVariable (r name)
  | .invalidValue name reason => .invalidValue (r name) reason
  | e => e

theorem NetError.renameVariable_id : renameVariable id = id := by
  funext e
  cases e with
  | duplicateIdentifier kind name => cases kind <;> rfl
  | unknownReference kind name => cases kind <;> rfl
  | _ => rfl

namespace Guard

variable {V W : Variables} {r : String → String} {e : NetError → NetError}

theorem map_mapError {α β : Type} (x : Except NetError α) (f : α → β) :
    (x.mapError e).map f = (x.map f).mapError e := by
  cases x <;> rfl

theorem mapError_id {α : Type} (x : Except NetError α) : x.mapError id = x := by
  cases x <;> rfl

mutual

theorem rename_id : (g : Guard) → g.rename id = g
  | always => rfl
  | compare _ _ _ => rfl
  | truth _ _ => rfl
  | predicate _ _ => rfl
  | allOf guards => congrArg allOf (renameAll_id guards)

theorem renameAll_id : (guards : List Guard) → renameAll id guards = guards
  | [] => rfl
  | g :: rest => by rw [renameAll, rename_id g, renameAll_id rest]

end

mutual

theorem rename_rename (r s : String → String) :
    (g : Guard) → (g.rename r).rename s = g.rename (s ∘ r)
  | always => rfl
  | compare _ _ _ => rfl
  | truth _ _ => rfl
  | predicate _ _ => rfl
  | allOf guards => congrArg allOf (renameAll_renameAll r s guards)

theorem renameAll_renameAll (r s : String → String) :
    (guards : List Guard) → renameAll s (renameAll r guards) = renameAll (s ∘ r) guards
  | [] => rfl
  | g :: rest => by rw [renameAll, renameAll, renameAll, rename_rename r s g,
      renameAll_renameAll r s rest]

end

mutual

theorem rename_congr {r s : String → String} :
    (g : Guard) → (∀ name ∈ g.reads, r name = s name) → g.rename r = g.rename s
  | always, _ => rfl
  | compare _ _ _, h => by rw [rename, rename, h _ (List.mem_singleton_self _)]
  | truth _ _, h => by rw [rename, rename, h _ (List.mem_singleton_self _)]
  | predicate _ _, h => by rw [rename, rename, h _ (List.mem_singleton_self _)]
  | allOf guards, h => congrArg allOf (renameAll_congr guards h)

theorem renameAll_congr {r s : String → String} : (guards : List Guard) →
    (∀ name ∈ readsAll guards, r name = s name) → renameAll r guards = renameAll s guards
  | [], _ => rfl
  | g :: rest, h => by
    rw [renameAll, renameAll, rename_congr g fun name hn => h name (List.mem_append_left _ hn),
      renameAll_congr rest fun name hn => h name (List.mem_append_right _ hn)]

end

mutual

theorem accepts_rename : (g : Guard) →
    (∀ name ∈ g.reads, W.read (r name) = (V.read name).mapError e) →
      (g.rename r).accepts W = (g.accepts V).mapError e
  | always, _ => rfl
  | compare x op v, h => by
    rw [rename, accepts, accepts, h x (List.mem_singleton_self x), map_mapError]
  | truth x expected, h => by
    rw [rename, accepts, accepts, h x (List.mem_singleton_self x), map_mapError]
  | predicate x holds, h => by
    rw [rename, accepts, accepts, h x (List.mem_singleton_self x), map_mapError]
  | allOf guards, h => acceptsAll_rename guards h

theorem acceptsAll_rename : (guards : List Guard) →
    (∀ name ∈ readsAll guards, W.read (r name) = (V.read name).mapError e) →
      acceptsAll W (renameAll r guards) = (acceptsAll V guards).mapError e
  | [], _ => rfl
  | g :: rest, h => by
    have first := accepts_rename g fun name hn => h name (List.mem_append_left _ hn)
    have others := acceptsAll_rename rest fun name hn => h name (List.mem_append_right _ hn)
    rw [renameAll, acceptsAll, acceptsAll, first, others]
    rcases g.accepts V with error | accepted
    · rfl
    · cases accepted <;> rfl

end

theorem accepts_congr {g : Guard} (alike : ∀ name ∈ g.reads, V.read name = W.read name) :
    g.accepts V = g.accepts W := by
  have same : (g.rename id).accepts V = (g.accepts W).mapError id :=
    accepts_rename g fun name hn => by rw [id, alike name hn, mapError_id]
  rwa [rename_id, mapError_id] at same

theorem read_rename {name : String}
    (alike : (W.get? (r name)).map Variable.value = (V.get? name).map Variable.value) :
    W.read (r name) = (V.read name).mapError (.renameVariable r) := by
  unfold Variables.read
  cases hV : V.get? name with
  | none =>
    rw [hV, Option.map_none, Option.map_eq_none_iff] at alike
    rw [alike]
    rfl
  | some x =>
    rw [hV, Option.map_some, Option.map_eq_some_iff] at alike
    obtain ⟨y, hy, same⟩ := alike
    rw [hy]
    dsimp only
    rw [same]
    cases x.value <;> rfl

/-- A guard sees the values of the variables that it reads, each under its name and whatever else is
declared. Renamed, by whatever function, it reads the new names in the old order, and where they have
the values that the old ones had it gives the same answer, or the same error about the new name. -/
theorem sees_reads_only (g : Guard) (r : String → String) :
    (g.rename r).reads = g.reads.map r ∧
    (∀ V W : Variables,
      (∀ name ∈ g.reads, (W.get? (r name)).map Variable.value = (V.get? name).map Variable.value) →
        (g.rename r).accepts W = (g.accepts V).mapError (.renameVariable r)) ∧
    ∀ V W : Variables,
      (∀ name ∈ g.reads, (W.get? name).map Variable.value = (V.get? name).map Variable.value) →
        g.accepts W = g.accepts V := by
  refine ⟨reads_rename r g, fun V W alike => ?_, fun V W alike => ?_⟩
  · exact accepts_rename g fun name hn => read_rename (alike name hn)
  · have same : (g.rename id).accepts W = (g.accepts V).mapError (.renameVariable id) :=
      accepts_rename g fun name hn => read_rename (alike name hn)
    rwa [rename_id, NetError.renameVariable_id, mapError_id] at same

def twofold : Guard :=
  .allOf [.predicate "x" (·.kind = .int),
    .allOf [.compare "x" .greater (.int 5), .compare "y" .smaller (.int 3)]]

theorem shifted_sees_reads_only :
    let shift : String → String := fun name => if name = "x" then "y" else "z"
    let vars : Variables := .ofList [("y", { Variable.declare "y" .int with value := some (.int 6) }),
      ("z", .declare "z" .int), ("x", { Variable.declare "x" .bool with value := some (.bool false) })]
    (twofold.rename shift).reads = ["y", "y", "z"] ∧
      (twofold.rename shift).accepts vars = .error (.unsetVariable "z") := by
  intro shift vars
  obtain ⟨reads, answers, -⟩ := sees_reads_only twofold shift
  let earlier : Variables := .ofList [("x", { Variable.declare "x" .int with value := some (.int 6) }),
    ("y", .declare "y" .float)]
  refine ⟨reads, (answers earlier vars ?_).trans rfl⟩
  intro name hn
  simp only [twofold, Guard.reads, Guard.readsAll, List.append_nil, List.cons_append, List.nil_append,
    List.mem_cons, List.not_mem_nil, or_false] at hn
  rcases hn with rfl | rfl | rfl <;> rfl

end Guard

end ProcessNet
