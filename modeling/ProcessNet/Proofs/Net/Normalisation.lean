import ProcessNet.Proofs.Pattern.Built

/-!
Normalisation of the ends of a net, told exactly. It changes nothing that is there and appends at each
side at most one place, joined to every old end of that side. New places are in no old arc, and old
ends get arcs on the side where they have none, so an addition on one side leaves the ends of the
other side what they were. In the end each side has as many ends as before or, where there were
several, one.
-/

namespace ProcessNet

theorem OrderedSet.size_congr {α : Type} {s t : OrderedSet α} (h : ∀ a, a ∈ s ↔ a ∈ t) :
    s.size = t.size :=
  ((List.perm_ext_iff_of_nodup s.nodup t.nodup).2 h).length_eq

/-- A silent, unguarded step with one place on each of its two sides. -/
structure Transition.Joins (near far : Transition → OrderedSet PlaceId) (p q : PlaceId)
    (x : Transition) : Prop where
  silent : x.visible = false
  unguarded : x.guard = .always
  near : (near x).toList = [p]
  far : (far x).toList = [q]

namespace Net

/-- The second net is the first one with the given elements behind its own, the places unmarked. -/
structure Adds (net : Net) (ps : List PlaceId) (ts : List Transition) (net' : Net) : Prop where
  places : net'.places.entries = net.places.entries ++ ps.map fun p => (p, .blank p)
  transitions : net'.transitions.entries = net.transitions.entries ++ ts.map fun x => (x.id, x)
  vars : net'.vars = net.vars

/-- What the ends of one side get in common: several of them a new place, joined to each by a
transition of its own, and one or none nothing. -/
def Gathers (near far : Transition → OrderedSet PlaceId) (ends : OrderedSet PlaceId)
    (ps : List PlaceId) (ts : List Transition) : Prop :=
  if 1 < ends.size then
    ∃ p, ps = [p] ∧ List.Forall₂ (fun q x => x.Joins near far p q) ends.toList ts
  else ps = [] ∧ ts = []

def touched (net : Net) (arcs : Transition → OrderedSet PlaceId) : List PlaceId :=
  net.transitions.values.flatMap fun x => (arcs x).toList

/-- The places that are on the one side of transitions and never on the other: sources on the side of
the inputs, sinks on the side of the outputs. -/
def boundary (net : Net) (near far : Transition → OrderedSet PlaceId) : OrderedSet PlaceId :=
  (OrderedSet.ofList (net.touched near)).diff (.ofList (net.touched far))

variable {net net₁ net' : Net} {near far : Transition → OrderedSet PlaceId}
  {ends : OrderedSet PlaceId} {ps qs : List PlaceId} {ts us : List Transition} {p q r : PlaceId}

theorem WellFormed.mem_of_touched (wf : net.WellFormed)
    (h : r ∈ net.touched Transition.inputs ∨ r ∈ net.touched Transition.outputs) :
    r ∈ net.places.keys := by
  rcases h with h | h
  · exact wf.consumes_mem (mem_consumed.1 (OrderedSet.mem_ofList.2 h))
  · exact wf.produces_mem (mem_produced.1 (OrderedSet.mem_ofList.2 h))

theorem mem_boundary : r ∈ net.boundary near far ↔ r ∈ net.touched near ∧ r ∉ net.touched far := by
  rw [boundary, OrderedSet.mem_diff, OrderedSet.mem_ofList, OrderedSet.mem_ofList]

namespace Adds

theorem refl (net : Net) : net.Adds [] [] net := ⟨by simp, by simp, rfl⟩

theorem trans (h : net.Adds ps ts net₁) (h' : net₁.Adds qs us net') :
    net.Adds (ps ++ qs) (ts ++ us) net' where
  places := by rw [h'.places, h.places, List.map_append, List.append_assoc]
  transitions := by rw [h'.transitions, h.transitions, List.map_append, List.append_assoc]
  vars := h'.vars.trans h.vars

variable (h : net.Adds ps ts net')

include h

theorem keys_places : net'.places.keys = net.places.keys ++ ps := by
  simp [OrderedMap.keys, h.places, Function.comp_def]

theorem keys_transitions : net'.transitions.keys = net.transitions.keys ++ ts.map (·.id) := by
  simp [OrderedMap.keys, h.transitions, Function.comp_def]

theorem fresh_places : (net.places.keys ++ ps).Nodup := h.keys_places ▸ net'.places.nodup_keys

theorem not_mem (hp : r ∈ ps) : r ∉ net.places.keys := fun old =>
  List.disjoint_of_nodup_append h.fresh_places old hp

theorem untouched (known : ∀ r, r ∈ net.touched near ∨ r ∈ net.touched far → r ∈ net.places.keys)
    (new : r ∈ ps) : r ∉ net.touched near ∧ r ∉ net.touched far :=
  not_or.1 fun old => h.not_mem new (known r old)

theorem fresh_transitions : (net.transitions.keys ++ ts.map (·.id)).Nodup :=
  h.keys_transitions ▸ net'.transitions.nodup_keys

theorem values_transitions : net'.transitions.values = net.transitions.values ++ ts := by
  simp [OrderedMap.values, h.transitions, Function.comp_def]

theorem mem_touched (arcs : Transition → OrderedSet PlaceId) : r ∈ net'.touched arcs ↔
    r ∈ net.touched arcs ∨ r ∈ ts.flatMap fun x => (arcs x).toList := by
  rw [touched, h.values_transitions, List.flatMap_append, List.mem_append, touched]

end Adds

section Joins

variable (joins : List.Forall₂ (fun q x => Transition.Joins near far p q x) qs ts)

include joins

theorem flatMap_near : (ts.flatMap fun x => (near x).toList) = qs.map fun _ => p := by
  induction joins with
  | nil => rfl
  | cons join _ ih => rw [List.flatMap_cons, join.near, ih, List.map_cons, List.singleton_append]

theorem silent_of_joins {x : Transition} (hx : x ∈ ts) : x.visible = false := by
  induction joins with
  | nil => cases hx
  | cons join _ ih =>
    rcases List.mem_cons.1 hx with rfl | hx
    · exact join.silent
    · exact ih hx

theorem flatMap_far : (ts.flatMap fun x => (far x).toList) = qs := by
  induction joins with
  | nil => rfl
  | cons join _ ih => rw [List.flatMap_cons, join.far, ih, List.singleton_append]

end Joins

/-! One side is extended, after which `net'` has the new elements and `net` has them not. -/

section Side

variable (adds : net.Adds ps ts net') (gathers : Gathers near far ends ps ts)

include gathers

theorem Gathers.of_several (several : 1 < ends.size) :
    ∃ p, ps = [p] ∧ List.Forall₂ (fun q x => x.Joins near far p q) ends.toList ts := by
  rwa [Gathers, if_pos several] at gathers

theorem Gathers.of_not_several (single : ¬1 < ends.size) : ps = [] ∧ ts = [] := by
  rwa [Gathers, if_neg single] at gathers

theorem Gathers.silent {x : Transition} (hx : x ∈ ts) : x.visible = false := by
  by_cases several : 1 < ends.size
  · obtain ⟨p, -, joins⟩ := gathers.of_several several
    exact silent_of_joins joins hx
  · obtain ⟨-, rfl⟩ := gathers.of_not_several several
    cases hx

include adds

theorem Gathers.mem_touched_near : r ∈ net'.touched near ↔ r ∈ net.touched near ∨ r ∈ ps := by
  rw [adds.mem_touched]
  by_cases several : 1 < ends.size
  · obtain ⟨p, rfl, joins⟩ := gathers.of_several several
    have nonempty : ends.toList ≠ [] :=
      List.ne_nil_of_length_pos (Nat.lt_trans Nat.zero_lt_one several)
    rw [flatMap_near joins, List.map_const', List.mem_replicate, List.mem_singleton]
    simp [nonempty]
  · obtain ⟨rfl, rfl⟩ := gathers.of_not_several several
    rfl

theorem Gathers.mem_touched_far :
    r ∈ net'.touched far ↔ r ∈ net.touched far ∨ 1 < ends.size ∧ r ∈ ends := by
  rw [adds.mem_touched]
  by_cases several : 1 < ends.size
  · obtain ⟨p, -, joins⟩ := gathers.of_several several
    rw [flatMap_far joins, ← OrderedSet.mem_def, and_iff_right several]
  · obtain ⟨-, rfl⟩ := gathers.of_not_several several
    simp [several]

variable (outer : ∀ r, r ∈ ends ↔ r ∈ net.boundary near far)
  (known : ∀ r, r ∈ net.touched near ∨ r ∈ net.touched far → r ∈ net.places.keys)

include outer known

theorem Gathers.known_grown (h : r ∈ net'.touched near ∨ r ∈ net'.touched far) :
    r ∈ net'.places.keys := by
  rw [gathers.mem_touched_near adds, gathers.mem_touched_far adds] at h
  rw [adds.keys_places, List.mem_append]
  rcases h with (near | new) | (far | ⟨-, old⟩)
  · exact .inl (known r (.inl near))
  · exact .inr new
  · exact .inl (known r (.inr far))
  · exact .inl (known r (.inl (mem_boundary.1 ((outer r).1 old)).1))

theorem Gathers.mem_boundary_near :
    r ∈ net'.boundary near far ↔ if 1 < ends.size then r ∈ ps else r ∈ ends := by
  have untouched : r ∈ ps → r ∉ net.touched near ∧ r ∉ net.touched far := adds.untouched known
  rw [mem_boundary, gathers.mem_touched_near adds, gathers.mem_touched_far adds, outer,
    mem_boundary]
  by_cases several : 1 < ends.size
  -- an old end has now an arc on its far side, and only the new place has none there
  · rw [if_pos several]
    tauto
  · obtain ⟨rfl, -⟩ := gathers.of_not_several several
    simp [several]

theorem Gathers.mem_boundary_far :
    r ∈ net'.boundary far near ↔ r ∈ net.boundary far near := by
  have untouched : r ∈ ps → r ∉ net.touched near ∧ r ∉ net.touched far := adds.untouched known
  rw [mem_boundary, gathers.mem_touched_near adds, gathers.mem_touched_far adds, outer,
    mem_boundary, mem_boundary]
  -- what has gained an arc on the far side had one on the near side, so it is no end of either
  tauto

theorem Gathers.size_boundary_near : (net'.boundary near far).size = min 1 ends.size := by
  have members : ∀ r, r ∈ net'.boundary near far ↔ if 1 < ends.size then r ∈ ps else r ∈ ends :=
    fun r => gathers.mem_boundary_near adds outer known
  by_cases several : 1 < ends.size
  · obtain ⟨p, rfl, -⟩ := gathers.of_several several
    simp only [several, if_true, List.mem_singleton] at members
    rw [OrderedSet.size, toList_eq_singleton.2 members, List.length_singleton]
    omega
  · simp only [several, if_false] at members
    rw [OrderedSet.size_congr members]
    omega

end Side

end Net

namespace Growth

open Net (Gathers)

variable {net : Net}

theorem adds_freshPlace (base : String) (net : Net) :
    net.Adds [net.freshPlaceId base] [] ((freshPlace base).run net).2 where
  places := OrderedMap.entries_insert_of_not_mem (net.freshPlaceId_not_mem base)
  transitions := (List.append_nil _).symm
  vars := rfl

theorem adds_route (base : String) (inputs outputs : List PlaceId) (net : Net) :
    net.Adds [] [.routing (net.freshTransitionId base) inputs outputs]
      ((route base inputs outputs).run net).2 := by
  rw [run_route]
  exact ⟨(List.append_nil _).symm,
    OrderedMap.entries_insert_of_not_mem (net.freshTransitionId_not_mem base), rfl⟩

theorem adds_forM_route (joins : PlaceId → Transition → Prop) {base : PlaceId → String}
    {inputs outputs : PlaceId → List PlaceId}
    (h : ∀ q id, joins q (.routing id (inputs q) (outputs q))) (qs : List PlaceId) (net : Net) :
    ∃ ts, net.Adds [] ts
        ((qs.forM fun q => discard (route (base q) (inputs q) (outputs q))).run net).2 ∧
      List.Forall₂ joins qs ts := by
  induction qs generalizing net with
  | nil => exact ⟨[], .refl net, .nil⟩
  | cons q rest ih =>
    obtain ⟨ts, adds, all⟩ := ih ((route (base q) (inputs q) (outputs q)).run net).2
    exact ⟨_, (adds_route _ _ _ net).trans adds, all.cons (h q _)⟩

theorem adds_freshPlace_routes {near far : Transition → OrderedSet PlaceId}
    {inputs outputs : PlaceId → PlaceId → List PlaceId}
    (h : ∀ p q id, (Transition.routing id (inputs p q) (outputs p q)).Joins near far p q)
    (base : String) (qs : List PlaceId) (net : Net) :
    ∃ p ts, net.Adds [p] ts
        ((do let p ← freshPlace base
             qs.forM fun q => discard (route q.name (inputs p q) (outputs p q))
             return p : Growth PlaceId).run net).2 ∧
      List.Forall₂ (fun q x => x.Joins near far p q) qs ts := by
  obtain ⟨ts, adds, all⟩ := adds_forM_route
    (fun q x => x.Joins near far (net.freshPlaceId base) q) (h _) qs ((freshPlace base).run net).2
  exact ⟨_, ts, (adds_freshPlace base net).trans adds, all⟩

theorem newSource_adds (old : OrderedSet PlaceId) (net : Net) :
    ∃ p ts, net.Adds [p] ts ((newSource old).run net).2 ∧
      List.Forall₂ (fun q x => x.Joins Transition.inputs Transition.outputs p q) old.toList ts :=
  adds_freshPlace_routes (fun _ _ _ => ⟨rfl, rfl, rfl, rfl⟩) _ _ net

theorem newSink_adds (old : OrderedSet PlaceId) (net : Net) :
    ∃ p ts, net.Adds [p] ts ((newSink old).run net).2 ∧
      List.Forall₂ (fun q x => x.Joins Transition.outputs Transition.inputs p q) old.toList ts :=
  adds_freshPlace_routes (fun _ _ _ => ⟨rfl, rfl, rfl, rfl⟩) _ _ net

theorem gathers_of_adds {near far : Transition → OrderedSet PlaceId} {old : OrderedSet PlaceId}
    {grow : Growth PlaceId} (h : ∃ p ts, net.Adds [p] ts (grow.run net).2 ∧
      List.Forall₂ (fun q x => x.Joins near far p q) old.toList ts) :
    ∃ ps ts, net.Adds ps ts ((if 1 < old.size then discard grow else pure ()).run net).2 ∧
      Gathers near far old ps ts := by
  by_cases several : 1 < old.size
  · obtain ⟨p, ts, adds, all⟩ := h
    refine ⟨[p], ts, ?_, ?_⟩
    · rw [if_pos several]
      exact adds
    · rw [Gathers, if_pos several]
      exact ⟨p, rfl, all⟩
  · refine ⟨[], [], ?_, ?_⟩
    · rw [if_neg several]
      exact .refl net
    · rw [Gathers, if_neg several]
      exact ⟨rfl, rfl⟩

end Growth

namespace Net

variable {net : Net}

theorem toWorkflow_eq (net : Net) : net.toWorkflow =
    ((if 1 < net.sinks.size then discard (Growth.newSink net.sinks) else pure ()).run
      ((if 1 < net.sources.size then discard (Growth.newSource net.sources) else pure ()).run
        net).2).2 := by
  by_cases hs : 1 < net.sources.size <;> simp only [toWorkflow, hs, if_true, if_false] <;> rfl

/-- What normalisation does to a net on each side, and how many ends it leaves there. -/
theorem WellFormed.toWorkflow_adds (wf : net.WellFormed) : ∃ front fronts back backs,
    net.Adds (front ++ back) (fronts ++ backs) net.toWorkflow ∧
    Gathers Transition.inputs Transition.outputs net.sources front fronts ∧
    Gathers Transition.outputs Transition.inputs net.sinks back backs ∧
    net.toWorkflow.sources.size = min 1 net.sources.size ∧
    net.toWorkflow.sinks.size = min 1 net.sinks.size := by
  obtain ⟨front, fronts, adds, gathers⟩ :=
    Growth.gathers_of_adds (Growth.newSource_adds net.sources net)
  obtain ⟨back, backs, adds', gathers'⟩ := Growth.gathers_of_adds (Growth.newSink_adds net.sinks
    ((if 1 < net.sources.size then discard (Growth.newSource net.sources) else pure ()).run net).2)
  rw [← toWorkflow_eq net] at adds'
  set net₁ :=
    ((if 1 < net.sources.size then discard (Growth.newSource net.sources) else pure ()).run net).2
  have known : ∀ r, r ∈ net.touched Transition.inputs ∨ r ∈ net.touched Transition.outputs →
      r ∈ net.places.keys := fun r => wf.mem_of_touched
  have known' : ∀ r, r ∈ net₁.touched Transition.outputs ∨ r ∈ net₁.touched Transition.inputs →
      r ∈ net₁.places.keys := fun r h => gathers.known_grown adds (fun _ => Iff.rfl) known h.symm
  have sinks : ∀ r, r ∈ net.sinks ↔ r ∈ net₁.sinks := fun r =>
    (gathers.mem_boundary_far adds (fun _ => Iff.rfl) known).symm
  have sources : ∀ r, r ∈ net.toWorkflow.sources ↔ r ∈ net₁.sources := fun r =>
    gathers'.mem_boundary_far adds' sinks known'
  refine ⟨front, fronts, back, backs, adds.trans adds', gathers, gathers', ?_, ?_⟩
  · rw [OrderedSet.size_congr sources]
    exact gathers.size_boundary_near adds (fun _ => Iff.rfl) known
  · exact gathers'.size_boundary_near adds' sinks known'

theorem toBool_endpoints (wf : net.WellFormed) : net.endpoints.toBool = net.isWorkflow := by
  rw [Bool.eq_iff_iff, isWorkflow_iff wf]
  constructor
  · intro answers
    obtain ⟨⟨source, sink⟩, found⟩ := exists_eq_ok answers
    exact ⟨source, sink, (endpoints_eq_ok wf).1 found⟩
  · rintro ⟨source, sink, ends⟩
    rw [(endpoints_eq_ok wf).2 ends]
    rfl

theorem WellFormed.isWorkflow_toWorkflow_iff (wf : net.WellFormed) :
    net.toWorkflow.isWorkflow = true ↔ 0 < net.sources.size ∧ 0 < net.sinks.size := by
  obtain ⟨_, _, _, _, -, -, -, sources, sinks⟩ := wf.toWorkflow_adds
  rw [isWorkflow_iff (toWorkflow_keepsForm wf), exists_hasEnds_iff]
  omega

theorem toWorkflow_eq_self (hs : net.sources.size ≤ 1) (ht : net.sinks.size ≤ 1) :
    net.toWorkflow = net := by
  rw [toWorkflow, if_neg (Nat.not_lt.2 hs), if_neg (Nat.not_lt.2 ht)]
  rfl

end Net

/-- Normalisation keeps what is there and adds nothing but a place before several sources and one behind
several sinks, each with its silent transitions; it makes a workflow net of exactly the nets that have
a source and a sink, and of its result nothing else. The ends of a net are found exactly when it is a
workflow net. -/
theorem Built.toWorkflow_exact {net : Net} (built : Built (.net net)) :
    (∃ front fronts back backs,
      net.Adds (front ++ back) (fronts ++ backs) net.toWorkflow ∧
      (net.places.keys ++ (front ++ back)).Nodup ∧
      (net.transitions.keys ++ (fronts ++ backs).map (·.id)).Nodup ∧
      Net.Gathers Transition.inputs Transition.outputs net.sources front fronts ∧
      Net.Gathers Transition.outputs Transition.inputs net.sinks back backs) ∧
    (net.toWorkflow.isWorkflow = true ↔ 0 < net.sources.size ∧ 0 < net.sinks.size) ∧
    net.toWorkflow.toWorkflow = net.toWorkflow ∧
    net.endpoints.toBool = net.isWorkflow ∧
    ∀ source sink, net.endpoints = .ok (source, sink) →
      net.sources.toList = [source] ∧ net.sinks.toList = [sink] := by
  have wf : net.WellFormed := built.wellFormed
  obtain ⟨front, fronts, back, backs, adds, gathers, gathers', sources, sinks⟩ := wf.toWorkflow_adds
  refine ⟨⟨front, fronts, back, backs, adds, adds.fresh_places, adds.fresh_transitions, gathers,
    gathers'⟩, wf.isWorkflow_toWorkflow_iff, Net.toWorkflow_eq_self (by omega) (by omega),
    Net.toBool_endpoints wf, fun source sink found => ?_⟩
  have ends := (Net.endpoints_eq_ok wf).1 found
  exact ⟨Net.toList_eq_singleton.2 ends.source, Net.toList_eq_singleton.2 ends.sink⟩

/-- Two ways that do not meet, with names that the new elements would have had. -/
def Net.scattered : Net :=
  .after [.addPlace (.ofId ⟨"a"⟩ 1), .addPlace (.blank ⟨"b"⟩), .addPlace (.blank ⟨"c"⟩),
    .addPlace (.blank ⟨"d"⟩), .addPlace (.blank ⟨"a,b"⟩), .addPlace (.blank ⟨"c,d"⟩),
    .addTransition (.bare ⟨"a"⟩ "first" true), .connect ⟨"a"⟩ ⟨"a"⟩ ⟨"c"⟩,
    .addTransition (.bare ⟨"d"⟩ "second" true), .connect ⟨"b"⟩ ⟨"d"⟩ ⟨"d"⟩,
    .addInputArc ⟨"c,d"⟩ ⟨"d"⟩, .addOutputArc ⟨"d"⟩ ⟨"c,d"⟩]

theorem scattered_toWorkflow_exact : Net.scattered.toWorkflow.isWorkflow = true ∧
    Net.scattered.toWorkflow.toWorkflow = Net.scattered.toWorkflow ∧
    ∃ ts, Net.scattered.Adds [⟨"a,b'"⟩, ⟨"c,d'"⟩] ts Net.scattered.toWorkflow ∧
      ts.map (·.id) = [⟨"a'"⟩, ⟨"b"⟩, ⟨"c"⟩, ⟨"d'"⟩] := by
  have built : Built (.net .scattered) := built_after _
  obtain ⟨⟨_, fronts, _, backs, adds, -⟩, workflow, again, -⟩ := built.toWorkflow_exact
  have places : Net.scattered.toWorkflow.places.keys =
      Net.scattered.places.keys ++ [⟨"a,b'"⟩, ⟨"c,d'"⟩] := by decide +kernel
  have transitions : Net.scattered.toWorkflow.transitions.keys =
      Net.scattered.transitions.keys ++ [⟨"a'"⟩, ⟨"b"⟩, ⟨"c"⟩, ⟨"d'"⟩] := by decide +kernel
  have added := List.append_cancel_left (adds.keys_places.symm.trans places)
  have joined := List.append_cancel_left (adds.keys_transitions.symm.trans transitions)
  exact ⟨workflow.2 (by decide +kernel), again, _, added ▸ adds, joined⟩

end ProcessNet
