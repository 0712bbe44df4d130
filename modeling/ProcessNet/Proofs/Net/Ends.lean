import ProcessNet.Proofs.Net.Growth

/-!
Sources and sinks as properties of places. Of a well-formed net the ends are found exactly when one
place only is a source and one only is a sink; that there are at least two places then follows, since
a source and a sink differ. Normalisation keeps nets well-formed.
-/

namespace ProcessNet.Net

variable {net : Net} {p source sink : PlaceId}

def Consumes (net : Net) (p : PlaceId) : Prop := ∃ t x, net.transition? t = some x ∧ p ∈ x.inputs

def Produces (net : Net) (p : PlaceId) : Prop := ∃ t x, net.transition? t = some x ∧ p ∈ x.outputs

theorem exists_move_iff {side : Move PlaceId → PlaceId → ℕ} {arcs : Transition → OrderedSet PlaceId}
    (reads : ∀ x : Transition, 0 < side x.move p ↔ p ∈ arcs x) :
    (∃ t m, net.game t = some m ∧ 0 < side m p) ↔
      ∃ t x, net.transition? t = some x ∧ p ∈ arcs x := by
  constructor
  · rintro ⟨t, m, hm, touches⟩
    obtain ⟨x, hx, rfl⟩ := Option.map_eq_some_iff.1 hm
    exact ⟨t, x, hx, (reads x).1 touches⟩
  · rintro ⟨t, x, hx, hp⟩
    exact ⟨t, x.move, game_eq_some hx, (reads x).2 hp⟩

theorem game_consumes : net.game.Consumes p ↔ net.Consumes p :=
  exists_move_iff fun _ => Transition.take_move_pos

theorem game_produces : net.game.Produces p ↔ net.Produces p :=
  exists_move_iff fun _ => Transition.put_move_pos

theorem mem_collected (arcs : Transition → OrderedSet PlaceId) :
    p ∈ OrderedSet.ofList (net.transitions.values.flatMap fun x => (arcs x).toList) ↔
      ∃ t x, net.transition? t = some x ∧ p ∈ arcs x := by
  rw [OrderedSet.mem_ofList, List.mem_flatMap]
  constructor
  · rintro ⟨x, hx, hp⟩
    obtain ⟨t, ht⟩ := OrderedMap.mem_values.1 hx
    exact ⟨t, x, ht, hp⟩
  · rintro ⟨t, x, hx, hp⟩
    exact ⟨x, OrderedMap.mem_values.2 ⟨t, hx⟩, hp⟩

theorem mem_consumed : p ∈ net.consumed ↔ net.Consumes p := mem_collected Transition.inputs

theorem mem_produced : p ∈ net.produced ↔ net.Produces p := mem_collected Transition.outputs

theorem mem_sources : p ∈ net.sources ↔ net.Consumes p ∧ ¬net.Produces p := by
  rw [sources, OrderedSet.mem_diff, mem_consumed, mem_produced]

theorem mem_sinks : p ∈ net.sinks ↔ net.Produces p ∧ ¬net.Consumes p := by
  rw [sinks, OrderedSet.mem_diff, mem_consumed, mem_produced]

/-- The given places are the only source and the only sink. -/
structure HasEnds (net : Net) (source sink : PlaceId) : Prop where
  source : ∀ p, p ∈ net.sources ↔ p = source
  sink : ∀ p, p ∈ net.sinks ↔ p = sink

theorem HasEnds.ne (ends : net.HasEnds source sink) : source ≠ sink := by
  intro eq
  have consumed := (mem_sources.1 ((ends.source source).2 rfl)).1
  exact (mem_sinks.1 ((ends.sink source).2 eq)).2 consumed

theorem game_hasEnds : net.game.HasEnds source sink ↔ net.HasEnds source sink := by
  constructor
  · rintro ⟨hs, ht⟩
    refine ⟨fun p => ?_, fun p => ?_⟩
    · rw [mem_sources, ← game_consumes, ← game_produces, hs]
    · rw [mem_sinks, ← game_consumes, ← game_produces, ht]
  · rintro ⟨hs, ht⟩
    refine ⟨fun p => ?_, fun p => ?_⟩
    · rw [game_consumes, game_produces, ← mem_sources, hs]
    · rw [game_consumes, game_produces, ← mem_sinks, ht]

theorem WellFormed.consumes_mem (wf : net.WellFormed) (h : net.Consumes p) :
    p ∈ net.places.keys := by
  obtain ⟨t, x, hx, hp⟩ := h
  exact (wf.admits hx).inputs p hp

theorem WellFormed.produces_mem (wf : net.WellFormed) (h : net.Produces p) :
    p ∈ net.places.keys := by
  obtain ⟨t, x, hx, hp⟩ := h
  exact (wf.admits hx).outputs p hp

theorem HasEnds.source_mem (ends : net.HasEnds source sink) (wf : net.WellFormed) :
    source ∈ net.places.keys :=
  wf.consumes_mem (mem_sources.1 ((ends.source source).2 rfl)).1

theorem HasEnds.sink_mem (ends : net.HasEnds source sink) (wf : net.WellFormed) :
    sink ∈ net.places.keys :=
  wf.produces_mem (mem_sinks.1 ((ends.sink sink).2 rfl)).1

theorem toList_eq_singleton {α : Type} {s : OrderedSet α} {a : α} :
    s.toList = [a] ↔ ∀ b, b ∈ s ↔ b = a := by
  constructor
  · intro h b
    rw [OrderedSet.mem_def, h, List.mem_singleton]
  · intro h
    refine List.perm_singleton.1 ((List.perm_ext_iff_of_nodup s.nodup (by simp)).2 fun b => ?_)
    rw [List.mem_singleton]
    exact h b

theorem two_le_size (hs : source ∈ net.places.keys) (ht : sink ∈ net.places.keys)
    (ne : source ≠ sink) : 2 ≤ net.places.size := by
  rw [← OrderedMap.length_keys]
  have nodup : [source, sink].Nodup := by simpa using ne
  have subset : [source, sink] ⊆ net.places.keys := by
    intro p hp
    simp only [List.mem_cons, List.not_mem_nil, or_false] at hp
    rcases hp with rfl | rfl
    · exact hs
    · exact ht
  exact (List.subperm_of_subset nodup subset).length_le

theorem endpoints_eq_ok (wf : net.WellFormed) :
    net.endpoints = .ok (source, sink) ↔ net.HasEnds source sink := by
  constructor
  · intro h
    simp only [endpoints, endpoints?] at h
    split at h
    · next ends heq =>
      split at heq
      · next s t hs ht =>
        split at heq
        · cases heq
          cases h
          exact ⟨toList_eq_singleton.1 hs, toList_eq_singleton.1 ht⟩
        · cases heq
      · cases heq
    · cases h
  · intro ends
    have hs := toList_eq_singleton.2 ends.source
    have ht := toList_eq_singleton.2 ends.sink
    have size := two_le_size (ends.source_mem wf) (ends.sink_mem wf) ends.ne
    simp only [endpoints, endpoints?, hs, ht, size, if_true]

theorem HasEnds.isWorkflow (ends : net.HasEnds source sink) (wf : net.WellFormed) :
    net.isWorkflow = true := by
  have hs := toList_eq_singleton.2 ends.source
  have ht := toList_eq_singleton.2 ends.sink
  have size := two_le_size (ends.source_mem wf) (ends.sink_mem wf) ends.ne
  simp [Net.isWorkflow, OrderedSet.size, hs, ht, size]

theorem exists_hasEnds_iff :
    (∃ source sink, net.HasEnds source sink) ↔ net.sources.size = 1 ∧ net.sinks.size = 1 := by
  constructor
  · rintro ⟨source, sink, ends⟩
    rw [OrderedSet.size, toList_eq_singleton.2 ends.source, OrderedSet.size,
      toList_eq_singleton.2 ends.sink]
    exact ⟨rfl, rfl⟩
  · rintro ⟨one_source, one_sink⟩
    obtain ⟨source, hs⟩ := List.length_eq_one_iff.1 one_source
    obtain ⟨sink, ht⟩ := List.length_eq_one_iff.1 one_sink
    exact ⟨source, sink, toList_eq_singleton.1 hs, toList_eq_singleton.1 ht⟩

theorem isWorkflow_iff (wf : net.WellFormed) :
    net.isWorkflow = true ↔ ∃ source sink, net.HasEnds source sink := by
  constructor
  · intro h
    simp only [isWorkflow, Bool.and_eq_true, beq_iff_eq] at h
    exact exists_hasEnds_iff.2 ⟨h.1.2, h.2⟩
  · rintro ⟨source, sink, ends⟩
    exact ends.isWorkflow wf

theorem toWorkflow_keepsForm : net.KeepsForm net.toWorkflow := by
  intro wf
  have sources : ∀ p ∈ net.sources, p ∈ net.places.keys := fun p hp =>
    wf.consumes_mem (mem_sources.1 hp).1
  have sinks : ∀ p ∈ net.sinks, p ∈ net.places.keys := fun p hp =>
    wf.produces_mem (mem_sinks.1 hp).1
  by_cases hs : 1 < net.sources.size <;> by_cases ht : 1 < net.sinks.size <;>
    simp only [toWorkflow, hs, ht, if_true, if_false]
  · refine Growth.newSink_keepsForm (Growth.newSource_keepsForm wf sources) fun p hp => ?_
    rw [Growth.places_newSource]
    exact keys_insert_subset _ _ _ (sinks p hp)
  · exact Growth.newSource_keepsForm wf sources
  · exact Growth.newSink_keepsForm wf sinks
  · exact wf

end ProcessNet.Net
