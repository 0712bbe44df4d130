import ProcessNet.Proofs.Pattern.Built

/-!
Nets made from descriptions, and descriptions taken of nets. A description makes a net exactly when it
lists no id twice and its arcs end at listed elements. The net then has the listed elements in their
order; its arcs come transition by transition, inputs before outputs, and an arc that is listed again
adds nothing. In the other direction a net keeps all that a description can say of it, and loses the
labels of its places, its guards and its variables.
-/

namespace ProcessNet

theorem eraseDups_map {α β : Type} [DecidableEq α] [DecidableEq β] {f : α → β}
    (inj : Function.Injective f) (l : List α) : (l.map f).eraseDups = l.eraseDups.map f := by
  induction h : l.length using Nat.strong_induction_on generalizing l with
  | _ n ih =>
    cases l with
    | nil => rfl
    | cons a rest =>
      have later : (rest.map f).filter (fun b => !b == f a) =
          (rest.filter fun b => !b == a).map f := by
        rw [List.filter_map]
        refine congrArg (List.map f) (List.filter_congr fun b _ => ?_)
        simp [inj.eq_iff]
      have shorter : (rest.filter fun b => !b == a).length < n := by
        have := List.length_filter_le (fun b => !b == a) rest
        rw [List.length_cons] at h
        omega
      rw [List.map_cons, List.eraseDups_cons, List.eraseDups_cons, List.map_cons, later,
        ih _ shorter _ rfl]

theorem flatMap_filter_key {α β κ : Type} [DecidableEq κ] {key : α → κ} {f : α → List β}
    {owner : β → κ} (owned : ∀ a, ∀ b ∈ f a, owner b = key a) {l : List α}
    (nodup : (l.map key).Nodup) {a : α} (ha : a ∈ l) :
    (l.flatMap f).filter (fun b => owner b = key a) = f a := by
  have all (c : α) (eq : key c = key a) : (f c).filter (fun b => owner b = key a) = f c :=
    List.filter_eq_self.2 fun b hb => decide_eq_true ((owned c b hb).trans eq)
  have none (c : α) (ne : key c ≠ key a) : (f c).filter (fun b => owner b = key a) = [] :=
    List.filter_eq_nil_iff.2 fun b hb => by simpa [owned c b hb] using ne
  induction l with
  | nil => cases ha
  | cons c rest ih =>
    obtain ⟨absent, nodup⟩ := List.nodup_cons.1 nodup
    rw [List.flatMap_cons, List.filter_append]
    rcases List.mem_cons.1 ha with rfl | ha
    · have others : (rest.flatMap f).filter (fun b => owner b = key a) = [] := by
        rw [List.filter_flatMap, List.flatMap_eq_nil_iff]
        exact fun c hc => none c fun eq => absent (eq ▸ List.mem_map_of_mem hc)
      rw [all a rfl, others, List.append_nil]
    · have ne : key c ≠ key a := fun eq => absent (eq ▸ List.mem_map_of_mem ha)
      rw [none c ne, ih nodup ha, List.nil_append]

namespace OrderedSet

variable {α : Type} [DecidableEq α]

theorem toList_insertAll_eq (s : OrderedSet α) (as : List α) :
    (s.insertAll as).toList = s.toList ++ (as.filter (· ∉ s)).eraseDups := by
  induction as generalizing s with
  | nil => simp [insertAll]
  | cons a rest ih =>
    have step : s.insertAll (a :: rest) = (s.insert a).insertAll rest := rfl
    rw [step, ih]
    by_cases h : a ∈ s
    · rw [insert, dif_pos h, List.filter_cons_of_neg (by simpa using h)]
    · have later : rest.filter (· ∉ s.insert a) =
          (rest.filter (· ∉ s)).filter fun b => !b == a := by
        rw [List.filter_filter]
        refine List.filter_congr fun b _ => ?_
        simp [mem_insert, and_comm, beq_eq_decide]
      rw [toList_insert_of_not_mem h, List.filter_cons_of_pos (by simpa using h),
        List.eraseDups_cons, later, List.append_assoc, List.singleton_append]

theorem toList_ofList_eq (as : List α) : (ofList as).toList = as.eraseDups := by
  have all : as.filter (· ∉ (empty : OrderedSet α)) = as :=
    List.filter_eq_self.2 fun a _ => by simp [mem_def, empty]
  rw [ofList, toList_insertAll_eq, all]
  rfl

theorem ofList_toList (s : OrderedSet α) : ofList s.toList = s := ext (toList_ofList s.nodup)

end OrderedSet

namespace Transition

def withArcs (x : Transition) (as : List Arc) : Transition :=
  { x with
    inputs := x.inputs.insertAll
      ((as.filter (·.direction = .placeToTransition)).map Arc.place)
    outputs := x.outputs.insertAll
      ((as.filter (·.direction = .transitionToPlace)).map Arc.place) }

theorem withArcs_nil (x : Transition) : x.withArcs [] = x := rfl

theorem withArcs_withArcs (x : Transition) (as bs : List Arc) :
    (x.withArcs as).withArcs bs = x.withArcs (as ++ bs) := by
  simp [withArcs, OrderedSet.insertAll]

theorem describe_withArcs (x : Transition) (as : List Arc) :
    (x.withArcs as).describe = x.describe := rfl

def plain (x : Transition) : Transition :=
  { x with label := if x.visible then x.label else x.id.name, guard := .always }

theorem arcs_plain (x : Transition) : x.plain.arcs = x.arcs := rfl

theorem describe_plain (x : Transition) : x.plain.describe = x.describe := by
  cases h : x.visible <;> simp [describe, plain, h]

theorem filter_direction (x : Transition) (direction : ArcDirection) :
    (x.arcs.filter (·.direction = direction)).map Arc.place =
      match direction with
      | .placeToTransition => x.inputs.toList
      | .transitionToPlace => x.outputs.toList := by
  cases direction <;> simp [arcs, List.filter_map, Function.comp_def]

end Transition

namespace TransitionDescription

theorem describe_transition (d : TransitionDescription) : d.transition.describe = d := by
  obtain ⟨id, _ | label⟩ := d <;> rfl

theorem id_transition (d : TransitionDescription) : d.transition.id = d.id := by
  obtain ⟨id, _ | label⟩ := d <;> rfl

theorem inputs_transition (d : TransitionDescription) : d.transition.inputs = ∅ := by
  obtain ⟨id, _ | label⟩ := d <;> rfl

theorem outputs_transition (d : TransitionDescription) : d.transition.outputs = ∅ := by
  obtain ⟨id, _ | label⟩ := d <;> rfl

theorem guard_transition (d : TransitionDescription) : d.transition.guard = .always := by
  obtain ⟨id, _ | label⟩ := d <;> rfl

end TransitionDescription

theorem Transition.withArcs_describe (x : Transition) :
    x.describe.transition.withArcs x.arcs = x.plain := by
  have inputs := x.filter_direction .placeToTransition
  have outputs := x.filter_direction .transitionToPlace
  rw [withArcs, inputs, outputs, TransitionDescription.inputs_transition,
    TransitionDescription.outputs_transition]
  have same (s : OrderedSet PlaceId) : OrderedSet.insertAll ∅ s.toList = s := s.ofList_toList
  simp only [same]
  cases h : x.visible <;>
    simp [plain, describe, h, TransitionDescription.transition, silent, bare]

namespace Description

/-- No id is listed twice, and both ends of every arc are listed. -/
structure Consistent (d : Description) : Prop where
  places : (d.places.map PlaceDescription.id).Nodup
  transitions : (d.transitions.map TransitionDescription.id).Nodup
  ends : ∀ a ∈ d.arcs, a.place ∈ d.places.map PlaceDescription.id ∧
    a.transition ∈ d.transitions.map TransitionDescription.id

def arcsOf (d : Description) (t : TransitionId) (direction : ArcDirection) : List Arc :=
  (d.arcs.filter fun a => a.transition = t ∧ a.direction = direction).eraseDups

/-- Transition by transition, inputs before outputs. -/
def sortedArcs (d : Description) : List Arc :=
  d.transitions.flatMap fun t =>
    d.arcsOf t.id .placeToTransition ++ d.arcsOf t.id .transitionToPlace

def net (d : Description) : Net where
  places := .ofList (d.places.map fun p => (p.id, ⟨p.id, "", p.tokens⟩))
  transitions := OrderedMap.mapValues (fun t x => x.withArcs (d.arcs.filter (·.transition = t)))
    (.ofList (d.transitions.map fun t => (t.id, t.transition)))
  vars := ∅

variable {d : Description}

theorem Consistent.entries_places (h : d.Consistent) :
    d.net.places.entries = d.places.map fun p => (p.id, ⟨p.id, "", p.tokens⟩) :=
  OrderedMap.entries_ofList (by simpa [Function.comp_def] using h.places)

theorem Consistent.entries_transitions (h : d.Consistent) :
    d.net.transitions.entries = d.transitions.map fun t =>
      (t.id, t.transition.withArcs (d.arcs.filter (·.transition = t.id))) := by
  simp only [net, OrderedMap.mapValues]
  rw [OrderedMap.entries_ofList (by simpa [Function.comp_def] using h.transitions), List.map_map]
  rfl

theorem known_iff {net : Net} (d : Description)
    (distinct : (d.places.map PlaceDescription.id).Nodup)
    (distinct' : (d.transitions.map TransitionDescription.id).Nodup)
    (hp : net.places = .ofList (d.places.map fun p => (p.id, ⟨p.id, "", p.tokens⟩)))
    (ht : net.transitions = .ofList (d.transitions.map fun t => (t.id, t.transition))) :
    (∀ a ∈ d.arcs, a.place ∈ net.places.keys ∧ a.transition ∈ net.transitions.keys) ↔
      ∀ a ∈ d.arcs, a.place ∈ d.places.map PlaceDescription.id ∧
        a.transition ∈ d.transitions.map TransitionDescription.id := by
  have keys : net.places.keys = d.places.map PlaceDescription.id := by
    rw [hp, OrderedMap.keys, OrderedMap.entries_ofList] <;> simp [Function.comp_def, distinct]
  have keys' : net.transitions.keys = d.transitions.map TransitionDescription.id := by
    rw [ht, OrderedMap.keys, OrderedMap.entries_ofList] <;> simp [Function.comp_def, distinct']
  rw [keys, keys']

end Description

namespace Edit

theorem run_discard_eq_ok {α : Type} {e : Edit α} {net net' : Net} :
    (discard e).run net = .ok () net' ↔ ∃ a, e.run net = .ok a net' := by
  rw [run_discard]
  rcases e.run net with ⟨a, s⟩ | ⟨e, s⟩ <;> simp [eq_comm]

theorem run_seq_eq_ok {α : Type} {e : Edit Unit} {f : Unit → Edit α} {net net' : Net} {a : α} :
    (e >>= f).run net = .ok a net' ↔
      ∃ mid, e.run net = .ok () mid ∧ (f ()).run mid = .ok a net' := by
  rw [EStateM.run_bind]
  rcases e.run net with ⟨_, s⟩ | ⟨e, s⟩ <;> simp

theorem build_eq_ok {e : Edit Unit} {net : Net} :
    build e = .ok net ↔ e.run ∅ = .ok () net := by
  rw [build]
  rcases e.run ∅ with ⟨a, s⟩ | ⟨e, s⟩ <;> simp

theorem run_forM_insert {α κ β : Type} [DecidableEq κ] {add : α → Edit Unit} {key : α → κ}
    {value : α → β} (holding : OrderedMap κ β → Net)
    (h : ∀ a m net', (add a).run (holding m) = .ok () net' ↔
      key a ∉ m.keys ∧ net' = holding (m.insert (key a) (value a)))
    (as : List α) (m : OrderedMap κ β) (net' : Net) :
    (as.forM add).run (holding m) = .ok () net' ↔ (m.keys ++ as.map key).Nodup ∧
      net' = holding ((as.map fun a => (key a, value a)).foldl (fun m e => m.insert e.1 e.2) m) := by
  induction as generalizing m with
  | nil => simp [OrderedMap.keys, m.nodup_keys, eq_comm]
  | cons a rest ih =>
    rw [List.forM_eq_forM] at ih ⊢
    rw [List.forM_cons, run_seq_eq_ok]
    by_cases known : key a ∈ m.keys
    · have repeats : ¬(m.keys ++ (a :: rest).map key).Nodup := fun nodup =>
        (List.nodup_append.1 nodup).2.2 _ known _ List.mem_cons_self rfl
      simp only [h, known, repeats, not_true_eq_false, false_and, exists_false]
    · have keys : (m.insert (key a) (value a)).keys ++ rest.map key =
          m.keys ++ (a :: rest).map key := by
        rw [OrderedMap.keys_insert, if_neg known, List.append_assoc, List.map_cons,
          List.singleton_append]
      simp only [h, known, not_false_eq_true, true_and]
      rw [← keys, List.map_cons, List.foldl_cons]
      constructor
      · rintro ⟨_, rfl, rest⟩
        exact (ih _).1 rest
      · exact fun rest => ⟨_, rfl, (ih _).2 rest⟩

theorem run_addArc_eq_ok (a : Arc) (net net' : Net) :
    (addArc a).run net = .ok () net' ↔
      (a.place ∈ net.places.keys ∧ a.transition ∈ net.transitions.keys) ∧
        net' = { net with
          transitions := net.transitions.modify a.transition (·.withArcs [a]) } := by
  obtain ⟨p, t, _ | _⟩ := a <;>
    simp only [addArc, run_addInputArc, run_addOutputArc, run_updateTransition] <;>
    by_cases hp : p ∈ net.places.keys <;> by_cases ht : t ∈ net.transitions.keys <;>
    simp [hp, ht, Transition.withArcs, OrderedSet.insertAll, eq_comm]

theorem run_forM_addArc_eq_ok (as : List Arc) (net net' : Net) :
    (as.forM addArc).run net = .ok () net' ↔
      (∀ a ∈ as, a.place ∈ net.places.keys ∧ a.transition ∈ net.transitions.keys) ∧
        net' = { net with transitions :=
          net.transitions.mapValues fun t x => x.withArcs (as.filter (·.transition = t)) } := by
  induction as generalizing net with
  | nil =>
    have same : net.transitions.mapValues (fun _ x => x.withArcs []) = net.transitions :=
      OrderedMap.mapValues_self fun e _ => e.2.withArcs_nil
    simp [same, eq_comm]
  | cons a rest ih =>
    have both : (net.transitions.modify a.transition (·.withArcs [a])).mapValues
        (fun t x => x.withArcs (rest.filter (·.transition = t))) =
        net.transitions.mapValues
          fun t x => x.withArcs ((a :: rest).filter (·.transition = t)) := by
      refine OrderedMap.ext ?_
      simp only [OrderedMap.modify, OrderedMap.mapValues, List.map_map]
      refine List.map_congr_left fun e _ => ?_
      by_cases h : e.1 = a.transition
      · simp [h, Transition.withArcs_withArcs]
      · simp [h, Ne.symm h]
    rw [List.forM_eq_forM] at ih ⊢
    rw [List.forM_cons, run_seq_eq_ok]
    simp only [run_addArc_eq_ok, List.forall_mem_cons]
    constructor
    · rintro ⟨_, ⟨here, rfl⟩, later⟩
      obtain ⟨known, rfl⟩ := (ih _).1 later
      exact ⟨⟨here, by simpa [OrderedMap.keys_modify] using known⟩, by simp only [both]⟩
    · rintro ⟨⟨here, later⟩, rfl⟩
      refine ⟨_, ⟨here, rfl⟩, (ih _).2 ⟨?_, ?_⟩⟩
      · simpa [OrderedMap.keys_modify] using later
      · simp only [both]

theorem run_addPlaceDescription_eq_ok (p : PlaceDescription) (net net' : Net) :
    (discard (addPlace ⟨p.id, "", p.tokens⟩)).run net = .ok () net' ↔
      p.id ∉ net.places.keys ∧
        net' = { net with places := net.places.insert p.id ⟨p.id, "", p.tokens⟩ } := by
  rw [run_discard_eq_ok]
  by_cases h : p.id ∈ net.places.keys <;> simp [run_addPlace, h, eq_comm]

theorem run_addTransitionDescription_eq_ok (t : TransitionDescription) (net net' : Net) :
    (discard (addTransition t.transition)).run net = .ok () net' ↔
      t.id ∉ net.transitions.keys ∧
        net' = { net with transitions := net.transitions.insert t.id t.transition } := by
  have inputs : t.transition.inputs.toList = [] := by rw [t.inputs_transition]; rfl
  have outputs : t.transition.outputs.toList = [] := by rw [t.outputs_transition]; rfl
  have reads : t.transition.guard.reads = [] := by rw [t.guard_transition]; rfl
  rw [run_discard_eq_ok]
  simp only [run_addTransition, inputs, outputs, reads, t.id_transition, List.find?_nil,
    Option.elim_none]
  by_cases h : t.id ∈ net.transitions.keys <;> simp [h, eq_comm]

theorem run_addDescription_eq_ok (d : Description) (net : Net) :
    (addDescription d).run ∅ = .ok () net ↔ d.Consistent ∧ net = d.net := by
  have places := run_forM_insert (fun m => ⟨m, ∅, ∅⟩)
    (fun p m => run_addPlaceDescription_eq_ok p ⟨m, ∅, ∅⟩) d.places ∅
  have transitions (ps) := run_forM_insert (fun m => ⟨ps, m, ∅⟩)
    (fun t m => run_addTransitionDescription_eq_ok t ⟨ps, m, ∅⟩) d.transitions ∅
  rw [addDescription, run_seq_eq_ok]
  simp only [run_seq_eq_ok, run_forM_addArc_eq_ok]
  constructor
  · rintro ⟨_, h, _, h', ends, rfl⟩
    obtain ⟨distinct, rfl⟩ := (places _).1 h
    obtain ⟨distinct', rfl⟩ := (transitions _ _).1 h'
    exact ⟨⟨distinct, distinct', (d.known_iff distinct distinct' rfl rfl).1 ends⟩,
      rfl⟩
  · rintro ⟨⟨distinct, distinct', ends⟩, rfl⟩
    exact ⟨_, (places _).2 ⟨distinct, rfl⟩, _, (transitions _ _).2 ⟨distinct', rfl⟩,
      (d.known_iff distinct distinct' rfl rfl).2 ends, rfl⟩

end Edit

namespace Description

theorem ofDescription_eq_ok {d : Description} {net : Net} :
    Net.ofDescription d = .ok net ↔ d.Consistent ∧ net = d.net := by
  rw [Net.ofDescription, Edit.build_eq_ok, Edit.run_addDescription_eq_ok]

theorem arcs_withArcs (d : Description) (t : TransitionDescription) :
    (t.transition.withArcs (d.arcs.filter (·.transition = t.id))).arcs =
      d.arcsOf t.id .placeToTransition ++ d.arcsOf t.id .transitionToPlace := by
  -- The arcs of one transition in one direction differ in their places alone.
  have ends (direction : ArcDirection) :
      (OrderedSet.ofList (((d.arcs.filter (·.transition = t.id)).filter
        (·.direction = direction)).map Arc.place)).toList.map (⟨·, t.id, direction⟩) =
        d.arcsOf t.id direction := by
    have inj : Function.Injective fun p : PlaceId => (⟨p, t.id, direction⟩ : Arc) :=
      fun _ _ eq => (Arc.mk.inj eq).1
    rw [OrderedSet.toList_ofList_eq, ← eraseDups_map inj, List.map_map, List.filter_filter, arcsOf]
    congr 1
    have same : d.arcs.filter (fun a => decide (a.direction = direction) &&
        decide (a.transition = t.id)) =
        d.arcs.filter fun a => a.transition = t.id ∧ a.direction = direction :=
      List.filter_congr fun a _ => by simp [and_comm]
    rw [same]
    refine (List.map_congr_left fun a ha => ?_).trans (List.map_id _)
    obtain ⟨h, h'⟩ := of_decide_eq_true (List.mem_filter.1 ha).2
    simp [← h, ← h']
  rw [← ends, ← ends, Transition.arcs, Transition.withArcs, t.id_transition, t.inputs_transition,
    t.outputs_transition]
  rfl

theorem Consistent.describe_net {d : Description} (h : d.Consistent) :
    d.net.describe = ⟨d.places, d.transitions, d.sortedArcs⟩ := by
  have places : d.net.places.values.map (fun p => ⟨p.id, p.tokens⟩) = d.places := by
    rw [OrderedMap.values, h.entries_places]
    simp [Function.comp_def]
  have transitions : d.net.transitions.values = d.transitions.map fun t =>
      t.transition.withArcs (d.arcs.filter (·.transition = t.id)) := by
    rw [OrderedMap.values, h.entries_transitions, List.map_map]
    rfl
  rw [Net.describe, places, transitions, List.map_map, List.flatMap_map, sortedArcs]
  simp only [arcs_withArcs, Function.comp_def, Transition.describe_withArcs,
    TransitionDescription.describe_transition, List.map_id']

end Description

namespace Net

/-- What a description can say of the net: no labels of places, no guards, no variables, and of a
silent transition only its id. -/
def plain (net : Net) : Net where
  places := net.places.mapValues fun _ p => { p with label := "" }
  transitions := net.transitions.mapValues fun _ t => t.plain
  vars := ∅

theorem describe_plain (net : Net) : net.plain.describe = net.describe := by
  simp only [describe, plain, OrderedMap.mapValues, OrderedMap.values, List.map_map,
    List.flatMap_map, Function.comp_def, Transition.arcs_plain, Transition.describe_plain]

variable {net : Net}

theorem WellFormed.consistent_describe (wf : net.WellFormed) : net.describe.Consistent := by
  have places : net.describe.places.map PlaceDescription.id = net.places.keys := by
    rw [← wf.place_ids, describe, List.map_map]
    rfl
  have transitions : net.describe.transitions.map TransitionDescription.id =
      net.transitions.keys := by
    rw [← wf.transition_ids, describe, List.map_map]
    rfl
  refine ⟨places ▸ net.places.nodup_keys, transitions ▸ net.transitions.nodup_keys, fun a ha => ?_⟩
  obtain ⟨x, hx, ha⟩ := List.mem_flatMap.1 ha
  obtain ⟨t, hx⟩ := OrderedMap.mem_values.1 hx
  rw [places, transitions]
  rcases List.mem_append.1 ha with ha | ha <;> obtain ⟨p, hp, rfl⟩ := List.mem_map.1 ha
  · exact ⟨(wf.admits hx).inputs p hp, wf.transition_id hx ▸ OrderedMap.mem_keys_of_get? hx⟩
  · exact ⟨(wf.admits hx).outputs p hp, wf.transition_id hx ▸ OrderedMap.mem_keys_of_get? hx⟩

theorem WellFormed.filter_arcs (wf : net.WellFormed) {x : Transition}
    (hx : x ∈ net.transitions.values) :
    net.describe.arcs.filter (·.transition = x.id) = x.arcs := by
  have owned : ∀ y : Transition, ∀ a ∈ y.arcs, a.transition = y.id := fun y a ha => by
    rcases List.mem_append.1 ha with ha | ha <;> obtain ⟨p, -, rfl⟩ := List.mem_map.1 ha <;> rfl
  exact flatMap_filter_key owned (wf.transition_ids ▸ net.transitions.nodup_keys) hx

theorem WellFormed.net_describe (wf : net.WellFormed) : net.describe.net = net.plain := by
  have consistent := wf.consistent_describe
  have places : net.describe.net.places = net.plain.places := by
    refine OrderedMap.ext (consistent.entries_places.trans ?_)
    simp only [describe, plain, OrderedMap.mapValues, OrderedMap.values, List.map_map]
    refine List.map_congr_left fun e he => ?_
    have id : e.2.id = e.1 := wf.place_id (OrderedMap.get?_eq_some.2 he)
    simp [id]
  have transitions : net.describe.net.transitions = net.plain.transitions := by
    refine OrderedMap.ext (consistent.entries_transitions.trans ?_)
    have listed : net.describe.transitions =
        net.transitions.entries.map fun e => e.2.describe := by
      simp [describe, OrderedMap.values]
    rw [listed, List.map_map]
    refine List.map_congr_left fun e he => ?_
    have id : e.2.id = e.1 := wf.transition_id (OrderedMap.get?_eq_some.2 he)
    have arcs := wf.filter_arcs (List.mem_map_of_mem he)
    exact Prod.ext id ((congrArg _ arcs).trans e.2.withArcs_describe)
  exact congrArg₂ (fun places transitions => (⟨places, transitions, ∅⟩ : Net)) places transitions

end Net

/-- A description makes a net just when it is consistent, and the net is described by the same lists of
places and transitions and by the arcs in their order, each once. What is built and described is made
again from its description, up to what descriptions do not say. -/
theorem description_round_trip :
    (∀ d : Description, ((∃ net, Net.ofDescription d = .ok net) ↔ d.Consistent) ∧
      ∀ net, Net.ofDescription d = .ok net →
        net.describe = ⟨d.places, d.transitions, d.sortedArcs⟩) ∧
    ∀ net, Built (.net net) → Net.ofDescription net.describe = .ok net.plain ∧
      net.plain.describe = net.describe := by
  refine ⟨fun d => ⟨?_, fun net h => ?_⟩, fun net built => ?_⟩
  · simp [Description.ofDescription_eq_ok]
  · obtain ⟨consistent, rfl⟩ := Description.ofDescription_eq_ok.1 h
    exact consistent.describe_net
  · have wf : net.WellFormed := built.wellFormed
    exact ⟨Description.ofDescription_eq_ok.2 ⟨wf.consistent_describe, wf.net_describe.symm⟩,
      net.describe_plain⟩

def Description.shuffled : Description where
  places := [⟨⟨"a"⟩, 2⟩, ⟨⟨"b"⟩, 0⟩]
  transitions := [⟨⟨"t"⟩, some "work"⟩, ⟨⟨"u"⟩, none⟩]
  arcs := [⟨⟨"b"⟩, ⟨"u"⟩, .placeToTransition⟩, ⟨⟨"b"⟩, ⟨"t"⟩, .transitionToPlace⟩,
    ⟨⟨"a"⟩, ⟨"t"⟩, .placeToTransition⟩, ⟨⟨"b"⟩, ⟨"t"⟩, .transitionToPlace⟩]

theorem shuffled_round_trip :
    (∃ net, Net.ofDescription .shuffled = .ok net ∧ net.describe.arcs =
      [⟨⟨"a"⟩, ⟨"t"⟩, .placeToTransition⟩, ⟨⟨"b"⟩, ⟨"t"⟩, .transitionToPlace⟩,
        ⟨⟨"b"⟩, ⟨"u"⟩, .placeToTransition⟩]) ∧
    Net.ofDescription Net.guarded.describe = .ok Net.guarded.plain := by
  obtain ⟨made, again⟩ := description_round_trip
  have consistent : Description.shuffled.Consistent := ⟨by decide, by decide, by decide⟩
  obtain ⟨net, h⟩ := (made .shuffled).1.2 consistent
  have sorted : Description.shuffled.sortedArcs =
      [⟨⟨"a"⟩, ⟨"t"⟩, .placeToTransition⟩, ⟨⟨"b"⟩, ⟨"t"⟩, .transitionToPlace⟩,
        ⟨⟨"b"⟩, ⟨"u"⟩, .placeToTransition⟩] := by decide +kernel
  refine ⟨⟨net, h, ?_⟩, (again .guarded (built_after _)).1⟩
  rw [(made .shuffled).2 net h]
  exact sorted

end ProcessNet
