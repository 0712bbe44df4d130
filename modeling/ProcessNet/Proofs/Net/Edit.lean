import ProcessNet.Net.Edit

/-!
What each edit answers and leaves, in one equation: its checks in their order, the refusal that each
of them causes with the net as it was, and the changed net when all of them pass.
-/

namespace ProcessNet.Edit

theorem run_requirePlace (p : PlaceId) (net : Net) :
    (requirePlace p).run net =
      if p ∈ net.places.keys then .ok () net else .error (.unknownReference .place p.name) net := by
  by_cases h : p ∈ net.places.keys <;> simp [requirePlace, OrderedMap.contains, h]

theorem run_requireTransition (t : TransitionId) (net : Net) :
    (requireTransition t).run net =
      if t ∈ net.transitions.keys then .ok () net
      else .error (.unknownReference .transition t.name) net := by
  by_cases h : t ∈ net.transitions.keys <;> simp [requireTransition, OrderedMap.contains, h]

theorem run_requireVariable (name : String) (net : Net) :
    (requireVariable name).run net =
      if name ∈ net.vars.keys then .ok () net
      else .error (.unknownReference .variable name) net := by
  by_cases h : name ∈ net.vars.keys <;> simp [requireVariable, OrderedMap.contains, h]

theorem run_forM_check {α : Type} {check : α → Edit Unit} {net : Net} {known : α → Prop}
    [DecidablePred known] {cause : α → NetError}
    (h : ∀ a, (check a).run net = if known a then .ok () net else .error (cause a) net)
    (as : List α) :
    (as.forM check).run net =
      (as.find? fun a => ¬known a).elim (.ok () net) fun a => .error (cause a) net := by
  induction as with
  | nil => rfl
  | cons a rest ih =>
    rw [List.forM_eq_forM] at ih ⊢
    rw [List.forM_cons, EStateM.run_bind, h a]
    by_cases ha : known a <;> simp [ha, ih]

theorem run_forM_requirePlace (ps : List PlaceId) (net : Net) :
    (ps.forM requirePlace).run net =
      (ps.find? fun p => ¬p ∈ net.places.keys).elim (.ok () net)
        fun p => .error (.unknownReference .place p.name) net :=
  run_forM_check (fun p => run_requirePlace p net) ps

theorem run_forM_requireVariable (names : List String) (net : Net) :
    (names.forM requireVariable).run net =
      (names.find? fun name => ¬name ∈ net.vars.keys).elim (.ok () net)
        fun name => .error (.unknownReference .variable name) net :=
  run_forM_check (fun name => run_requireVariable name net) names

theorem run_addPlace (p : Place) (net : Net) :
    (addPlace p).run net =
      if p.id ∈ net.places.keys then .error (.duplicateIdentifier .place p.id.name) net
      else .ok p.id { net with places := net.places.insert p.id p } := by
  by_cases h : p.id ∈ net.places.keys <;> simp [addPlace, OrderedMap.contains, h, -bind_pure_comp]

theorem run_addTransition (t : Transition) (net : Net) :
    (addTransition t).run net =
      if t.id ∈ net.transitions.keys then .error (.duplicateIdentifier .transition t.id.name) net
      else
        (t.inputs.toList.find? fun p => ¬p ∈ net.places.keys).elim
          ((t.outputs.toList.find? fun p => ¬p ∈ net.places.keys).elim
            ((t.guard.reads.find? fun name => ¬name ∈ net.vars.keys).elim
              (.ok t.id { net with transitions := net.transitions.insert t.id t })
              fun name => .error (.unknownReference .variable name) net)
            fun p => .error (.unknownReference .place p.name) net)
          fun p => .error (.unknownReference .place p.name) net := by
  by_cases h : t.id ∈ net.transitions.keys
  · simp [addTransition, OrderedMap.contains, h, -bind_pure_comp]
  · simp only [addTransition, OrderedMap.contains, h, EStateM.run_bind, EStateM.run_get,
      decide_false, Bool.false_eq_true, if_false, EStateM.run_pure, run_forM_requirePlace]
    rcases t.inputs.toList.find? _ with _ | p
    · simp only [Option.elim_none]
      rcases t.outputs.toList.find? _ with _ | q
      · simp only [Option.elim_none, run_forM_requireVariable]
        rcases t.guard.reads.find? _ with _ | name <;> rfl
      · rfl
    · rfl

theorem run_addVariable (x : Variable) (net : Net) :
    (addVariable x).run net =
      if x.name ∈ net.vars.keys then .error (.duplicateIdentifier .variable x.name) net
      else match x.value.bind x.unsuitable? with
      | some reason => .error (.invalidValue x.name reason) net
      | none => .ok x.name { net with vars := net.vars.insert x.name x } := by
  by_cases h : x.name ∈ net.vars.keys
  · simp [addVariable, OrderedMap.contains, h, -bind_pure_comp]
  · rcases hv : x.value with _ | v
    · simp [addVariable, OrderedMap.contains, h, hv, -bind_pure_comp]
    · rcases hr : x.unsuitable? v with _ | reason <;>
        simp [addVariable, OrderedMap.contains, h, hv, hr, -bind_pure_comp]

theorem run_updateTransition (t : TransitionId) (f : Transition → Transition) (net : Net) :
    (updateTransition t f).run net =
      if t ∈ net.transitions.keys then
        .ok () { net with transitions := net.transitions.modify t f }
      else .error (.unknownReference .transition t.name) net := by
  rw [updateTransition, EStateM.run_bind, run_requireTransition]
  by_cases h : t ∈ net.transitions.keys <;> simp [h]

theorem run_connect (input : PlaceId) (t : TransitionId) (output : PlaceId) (net : Net) :
    (connect input t output).run net =
      if input ∈ net.places.keys then
        if output ∈ net.places.keys then
          (updateTransition t fun x => { x with
            inputs := x.inputs.insert input, outputs := x.outputs.insert output }).run net
        else .error (.unknownReference .place output.name) net
      else .error (.unknownReference .place input.name) net := by
  simp only [connect, EStateM.run_bind, run_requirePlace]
  by_cases hi : input ∈ net.places.keys <;> by_cases ho : output ∈ net.places.keys <;>
    simp [hi, ho]

theorem run_addInputArc (p : PlaceId) (t : TransitionId) (net : Net) :
    (addInputArc p t).run net =
      if p ∈ net.places.keys then
        (updateTransition t fun x => { x with inputs := x.inputs.insert p }).run net
      else .error (.unknownReference .place p.name) net := by
  simp only [addInputArc, EStateM.run_bind, run_requirePlace]
  by_cases h : p ∈ net.places.keys <;> simp [h]

theorem run_addOutputArc (t : TransitionId) (p : PlaceId) (net : Net) :
    (addOutputArc t p).run net =
      if p ∈ net.places.keys then
        (updateTransition t fun x => { x with outputs := x.outputs.insert p }).run net
      else .error (.unknownReference .place p.name) net := by
  simp only [addOutputArc, EStateM.run_bind, run_requirePlace]
  by_cases h : p ∈ net.places.keys <;> simp [h]

theorem run_setGuard (t : TransitionId) (g : Guard) (net : Net) :
    (setGuard t g).run net =
      (g.reads.find? fun name => ¬name ∈ net.vars.keys).elim
        ((updateTransition t fun x => { x with guard := g }).run net)
        fun name => .error (.unknownReference .variable name) net := by
  simp only [setGuard, EStateM.run_bind, run_forM_requireVariable]
  rcases g.reads.find? _ with _ | name <;> rfl

theorem run_setVariable (name : String) (v : Value) (net : Net) :
    (setVariable name v).run net =
      match net.namedVariable? name with
      | none => .error (.unknownReference .variable name) net
      | some x => match x.unsuitable? v with
        | some reason => .error (.invalidValue x.name reason) net
        | none => .ok () { net with
            vars := net.vars.modify name fun x => { x with value := some v } } := by
  rcases h : net.namedVariable? name with _ | x
  · simp [setVariable, h]
  · rcases hr : x.unsuitable? v with _ | reason <;> simp [setVariable, h, hr]

theorem run_setMarking (m : Marking) (net : Net) :
    (setMarking m).run net =
      (m.entries.find? fun e => ¬e.1 ∈ net.places.keys).elim
        (.ok () { net with places := net.places.mapValues fun p x =>
          { x with tokens := (m.counts.get? p).getD x.tokens } })
        fun e => .error (.unknownReference .place e.1.name) net := by
  have check := run_forM_check (fun e : PlaceId × Nat => run_requirePlace e.1 net) m.entries
  simp only [setMarking, EStateM.run_bind, check]
  rcases m.entries.find? _ with _ | e <;> rfl

end ProcessNet.Edit
