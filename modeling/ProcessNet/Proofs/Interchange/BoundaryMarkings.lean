import ProcessNet.Proofs.Interchange.Description
import ProcessNet.Proofs.Net.Normalisation
import ProcessNet.Proofs.Pattern.Completion

/-!
The markings of the boundary of a description. They are read off the flat list of arcs, with no
transition in view, and mark the sources and the sinks of the net that is described: an arc of the
list stands for a place on one side of a transition, and a place with arcs that never stand for one
side is an end. Of a pattern there is one end on each side, so these markings are the initial and the
final one.
-/

namespace ProcessNet

namespace Marking

variable {entries : List (PlaceId × ℕ)} {p : PlaceId} {c : ℕ}

theorem tokens_ofList_of_mem (nodup : (entries.map Prod.fst).Nodup) (h : (p, c) ∈ entries) :
    (ofList entries).tokens p = c := by
  have listed : (ofList entries).counts.get? p = some c := by
    rwa [OrderedMap.get?_eq_some, ofList, OrderedMap.entries_ofList nodup]
  rw [tokens, listed, Option.getD_some]

theorem tokens_ofList_of_not_mem (nodup : (entries.map Prod.fst).Nodup)
    (h : p ∉ entries.map Prod.fst) : (ofList entries).tokens p = 0 := by
  refine tokens_of_not_mem ?_
  rwa [ofList, OrderedMap.keys, OrderedMap.entries_ofList nodup]

end Marking

namespace Description

variable {d : Description} {p : PlaceId}

def Joins (d : Description) (p : PlaceId) (direction : ArcDirection) : Prop :=
  ∃ a ∈ d.arcs, a.place = p ∧ a.direction = direction

theorem exists_arc_iff : (∃ a ∈ d.arcs, a.place = p) ↔
    d.Joins p .placeToTransition ∨ d.Joins p .transitionToPlace := by
  constructor
  · rintro ⟨a, ha, rfl⟩
    rcases h : a.direction with _ | _
    · exact .inl ⟨a, ha, rfl, h⟩
    · exact .inr ⟨a, ha, rfl, h⟩
  · rintro (⟨a, ha, here, -⟩ | ⟨a, ha, here, -⟩)
    · exact ⟨a, ha, here⟩
    · exact ⟨a, ha, here⟩

instance (direction : ArcDirection) : Decidable (d.Joins p direction) :=
  inferInstanceAs (Decidable (∃ a ∈ d.arcs, a.place = p ∧ a.direction = direction))

theorem any_arcs_iff {direction : ArcDirection} :
    (d.arcs.any fun a => a.place = p && a.direction = direction) = true ↔ d.Joins p direction := by
  simp [Joins]

/-- What the boundary marking lists: the places with an arc, and whether one is in the excluded
direction. -/
def boundaryEntries (d : Description) (excluded : ArcDirection) : List (PlaceId × ℕ) :=
  (d.places.filter fun q => d.arcs.any (·.place = q.id)).map fun q =>
    (q.id, if d.arcs.any fun a => a.place = q.id && a.direction = excluded then 0 else 1)

theorem boundaryMarking_eq (d : Description) (excluded : ArcDirection) :
    d.boundaryMarking excluded = .ofList (d.boundaryEntries excluded) := rfl

variable {excluded : ArcDirection}

theorem Consistent.nodup_boundaryEntries (h : d.Consistent) :
    ((d.boundaryEntries excluded).map Prod.fst).Nodup := by
  have ids : (d.boundaryEntries excluded).map Prod.fst =
      (d.places.filter fun q => d.arcs.any (·.place = q.id)).map PlaceDescription.id := by
    rw [boundaryEntries, List.map_map]
    rfl
  exact ids ▸ h.places.sublist (List.filter_sublist.map _)

theorem Consistent.mem_boundaryEntries (h : d.Consistent) {c : ℕ} :
    (p, c) ∈ d.boundaryEntries excluded ↔
      (∃ a ∈ d.arcs, a.place = p) ∧ c = if d.Joins p excluded then 0 else 1 := by
  have counts (q : PlaceId) : (if d.arcs.any fun a => a.place = q && a.direction = excluded then 0
      else 1) = if d.Joins q excluded then 0 else 1 := if_congr any_arcs_iff rfl rfl
  simp only [boundaryEntries, counts]
  rw [List.mem_map]
  constructor
  · rintro ⟨q, hq, entry⟩
    cases entry
    obtain ⟨a, ha, here⟩ := List.any_eq_true.1 (List.mem_filter.1 hq).2
    exact ⟨⟨a, ha, of_decide_eq_true here⟩, rfl⟩
  · rintro ⟨⟨a, ha, rfl⟩, rfl⟩
    obtain ⟨q, hq, id⟩ := List.mem_map.1 (h.ends a ha).1
    have touched : d.arcs.any (·.place = q.id) = true :=
      List.any_eq_true.2 ⟨a, ha, decide_eq_true id.symm⟩
    exact ⟨q, List.mem_filter.2 ⟨hq, touched⟩, by rw [id]⟩

theorem Consistent.tokens_boundaryMarking (h : d.Consistent) {marks : Prop} [Decidable marks]
    (ends : marks ↔ (∃ a ∈ d.arcs, a.place = p) ∧ ¬d.Joins p excluded) :
    (d.boundaryMarking excluded).tokens p = if marks then 1 else 0 := by
  rw [boundaryMarking_eq]
  by_cases touched : ∃ a ∈ d.arcs, a.place = p
  · have listed : (p, if d.Joins p excluded then 0 else 1) ∈ d.boundaryEntries excluded :=
      h.mem_boundaryEntries.2 ⟨touched, rfl⟩
    rw [Marking.tokens_ofList_of_mem h.nodup_boundaryEntries listed]
    by_cases joins : d.Joins p excluded <;> simp [ends, touched, joins]
  · have absent : p ∉ (d.boundaryEntries excluded).map Prod.fst := by
      rintro mem
      obtain ⟨⟨q, c⟩, entry, rfl⟩ := List.mem_map.1 mem
      exact touched (h.mem_boundaryEntries.1 entry).1
    rw [if_neg fun here => touched (ends.1 here).1]
    exact Marking.tokens_ofList_of_not_mem h.nodup_boundaryEntries absent

end Description

theorem Transition.mem_arcs {x : Transition} {p : PlaceId} (direction : ArcDirection) :
    (∃ a ∈ x.arcs, a.place = p ∧ a.direction = direction) ↔
      match direction with
      | .placeToTransition => p ∈ x.inputs
      | .transitionToPlace => p ∈ x.outputs := by
  have places := x.filter_direction direction
  have arcs : (∃ a ∈ x.arcs, a.place = p ∧ a.direction = direction) ↔
      p ∈ (x.arcs.filter (·.direction = direction)).map Arc.place := by
    simp [and_comm, and_assoc, and_left_comm]
  rw [arcs, places]
  cases direction <;> rfl

namespace Net

variable {net : Net} {p : PlaceId}

theorem joins_describe (direction : ArcDirection) : net.describe.Joins p direction ↔
    match direction with
    | .placeToTransition => net.Consumes p
    | .transitionToPlace => net.Produces p := by
  have arcs : net.describe.Joins p direction ↔
      ∃ t x, net.transition? t = some x ∧ ∃ a ∈ x.arcs, a.place = p ∧ a.direction = direction := by
    constructor
    · rintro ⟨a, ha, here⟩
      obtain ⟨x, hx, ha⟩ := List.mem_flatMap.1 ha
      obtain ⟨t, hx⟩ := OrderedMap.mem_values.1 hx
      exact ⟨t, x, hx, a, ha, here⟩
    · rintro ⟨t, x, hx, a, ha, here⟩
      exact ⟨a, List.mem_flatMap.2 ⟨x, OrderedMap.mem_values.2 ⟨t, hx⟩, ha⟩, here⟩
  simp only [arcs, Transition.mem_arcs]
  cases direction <;> rfl

variable (wf : net.WellFormed)

include wf

theorem tokens_initialMarking_describe :
    net.describe.initialMarking.tokens p = if p ∈ net.sources then 1 else 0 := by
  refine wf.consistent_describe.tokens_boundaryMarking ?_
  rw [Description.exists_arc_iff, joins_describe, joins_describe, mem_sources]
  tauto

theorem tokens_finalMarking_describe :
    net.describe.finalMarking.tokens p = if p ∈ net.sinks then 1 else 0 := by
  refine wf.consistent_describe.tokens_boundaryMarking ?_
  rw [Description.exists_arc_iff, joins_describe, joins_describe, mem_sinks]
  tauto

end Net

theorem Pattern.WellFormed.tokens_boundary {P : Pattern} (wf : P.WellFormed) (p : PlaceId) :
    P.initialMarking.tokens p = (if p ∈ P.net.sources then 1 else 0) ∧
      P.finalMarking.tokens p = if p ∈ P.net.sinks then 1 else 0 := by
  rw [initialMarking, finalMarking, tokens_set_zeroMarking, tokens_set_zeroMarking,
    Pi.single_apply, Pi.single_apply]
  exact ⟨if_congr (wf.ends.source p).symm rfl rfl, if_congr (wf.ends.sink p).symm rfl rfl⟩

/-- The boundary markings of a description put one token on every source, or on every sink, of the net
that it describes, and none elsewhere. Of a pattern they give each place the count that the initial and
the final marking give it. -/
theorem boundary_markings_agree :
    (∀ net, Built (.net net) → ∀ p,
      net.describe.initialMarking.tokens p = (if p ∈ net.sources then 1 else 0) ∧
        net.describe.finalMarking.tokens p = if p ∈ net.sinks then 1 else 0) ∧
    ∀ P, Built (.pattern P) → ∀ p,
      P.net.describe.initialMarking.tokens p = P.initialMarking.tokens p ∧
        P.net.describe.finalMarking.tokens p = P.finalMarking.tokens p := by
  have nets : ∀ net : Net, net.WellFormed → ∀ p,
      net.describe.initialMarking.tokens p = (if p ∈ net.sources then 1 else 0) ∧
        net.describe.finalMarking.tokens p = if p ∈ net.sinks then 1 else 0 := fun net wf p =>
    ⟨net.tokens_initialMarking_describe wf, net.tokens_finalMarking_describe wf⟩
  refine ⟨fun net built => nets net built.wellFormed, fun P built p => ?_⟩
  have wf : P.WellFormed := built.wellFormed
  obtain ⟨initial, final⟩ := nets P.net wf.net p
  obtain ⟨source, sink⟩ := wf.tokens_boundary p
  exact ⟨initial.trans source.symm, final.trans sink.symm⟩

theorem scattered_boundary_markings :
    Net.scattered.describe.initialMarking.tokens ⟨"a"⟩ = 1 ∧
    Net.scattered.describe.initialMarking.tokens ⟨"a,b"⟩ = 0 ∧
    Net.scattered.describe.finalMarking.tokens ⟨"c,d"⟩ = 0 ∧
    Net.scattered.describe.finalMarking.tokens ⟨"d"⟩ = 1 ∧
    (Pattern.repetition .task).net.describe.initialMarking.tokens =
      (Pattern.repetition .task).initialMarking.tokens := by
  obtain ⟨nets, patterns⟩ := boundary_markings_agree
  have ends := nets .scattered (built_after _)
  have repeated := patterns (.repetition .task) (.repetition Pattern.built_task)
  refine ⟨(ends ⟨"a"⟩).1.trans (if_pos ?_), (ends ⟨"a,b"⟩).1.trans (if_neg ?_),
    (ends ⟨"c,d"⟩).2.trans (if_neg ?_), (ends ⟨"d"⟩).2.trans (if_pos ?_),
    funext fun p => (repeated p).1⟩ <;> decide +kernel

end ProcessNet
