import ProcessNet.Proofs.Net.Ends
import ProcessNet.Reduction.Prune

/-!
What the removal of one silent transition does to the net. The transition passes tokens from a place
`p` on to a place `q`, nothing else takes from `p`, and something puts into `p`; so after the removal
`p` has no arcs left and `q` is still fed. Hence sources and sinks stay what they were, and so does
every property by which a net is well-formed.
-/

namespace ProcessNet.Net

/-- The transition qualifies for removal: a silent step from `p` to `q`, the only one that takes from
`p`, where `p` is fed. -/
structure Bypasses (net : Net) (t : TransitionId) (p q : PlaceId) : Prop where
  passes : ∃ x, net.transition? t = some x ∧ x.visible = false ∧ x.guard.isAlways = true ∧
    x.inputs.toList = [p] ∧ x.outputs.toList = [q]
  only : ∀ u y, net.transition? u = some y → p ∈ y.inputs → u = t
  ne : p ≠ q
  fed : net.Produces p

variable {net : Net} {sources : OrderedSet PlaceId} {t u : TransitionId} {p q r : PlaceId}
  {y : Transition}

theorem mem_consumers {x : Transition} :
    x ∈ net.consumers p ↔ (∃ u, net.transition? u = some x) ∧ p ∈ x.inputs := by
  rw [consumers, List.mem_filter, OrderedMap.mem_values, decide_eq_true_eq]
  rfl

theorem bypasses_of_bypass? (wf : net.WellFormed) (known : ∀ r, r ∈ net.sources → r ∈ sources)
    (h : net.bypass? sources t = some (p, q)) : net.Bypasses t p q := by
  obtain ⟨x, hx, h⟩ := Option.bind_eq_some_iff.1 h
  split at h
  · next p' q' hi ho =>
    dsimp only at h
    split at h
    · next cond =>
      cases h
      simp only [Bool.and_eq_true, Bool.not_eq_true', beq_iff_eq, decide_eq_true_eq] at cond
      obtain ⟨⟨⟨⟨silent, unguarded⟩, single⟩, loop⟩, source⟩ := cond
      have input : p ∈ x.inputs := by rw [OrderedSet.mem_def, hi]; exact List.mem_singleton_self p
      have output : q ∈ x.outputs := by rw [OrderedSet.mem_def, ho]; exact List.mem_singleton_self q
      have consumer : x ∈ net.consumers p := mem_consumers.2 ⟨⟨t, hx⟩, input⟩
      obtain ⟨x', hx'⟩ := List.length_eq_one_iff.1 single
      refine ⟨⟨x, hx, silent, unguarded, hi, ho⟩, fun u y hy hp => ?_, ?_, ?_⟩
      · have : y ∈ net.consumers p := mem_consumers.2 ⟨⟨u, hy⟩, hp⟩
        rw [hx', List.mem_singleton] at this consumer
        rw [← wf.transition_id hy, ← wf.transition_id hx, this, consumer]
      · rintro rfl
        have := List.any_eq_false.1 loop x consumer
        exact this (by simpa using output)
      · by_contra unfed
        exact source (known p (mem_sources.2 ⟨⟨t, x, hx, input⟩, unfed⟩))
    · cases h
  · cases h

theorem transition?_bypass : (net.bypass t p q).transition? u =
    if u = t then none else (net.transition? u).map (redirectOutputs p q) := by
  rw [transition?, bypass, OrderedMap.get?_mapValues, OrderedMap.get?_erase]
  split <;> rfl

@[simp] theorem inputs_redirectOutputs : (redirectOutputs p q y).inputs = y.inputs := by
  rw [redirectOutputs]
  split <;> rfl

@[simp] theorem id_redirectOutputs : (redirectOutputs p q y).id = y.id := by
  rw [redirectOutputs]
  split <;> rfl

@[simp] theorem visible_redirectOutputs : (redirectOutputs p q y).visible = y.visible := by
  rw [redirectOutputs]
  split <;> rfl

@[simp] theorem guard_redirectOutputs : (redirectOutputs p q y).guard = y.guard := by
  rw [redirectOutputs]
  split <;> rfl

theorem mem_outputs_redirectOutputs : r ∈ (redirectOutputs p q y).outputs ↔
    r ∈ y.outputs ∧ r ≠ p ∨ r = q ∧ p ∈ y.outputs := by
  rw [redirectOutputs]
  by_cases hp : p ∈ y.outputs
  · rw [if_pos hp, OrderedSet.mem_insert, OrderedSet.mem_erase]
    simp [hp]
  · rw [if_neg hp]
    have : r ∈ y.outputs → r ≠ p := fun hr eq => hp (eq ▸ hr)
    simp only [hp, and_false, or_false]
    exact ⟨fun hr => ⟨hr, this hr⟩, And.left⟩

namespace Bypasses

variable (h : net.Bypasses t p q)

include h

theorem input : ∀ x, net.transition? t = some x → (r ∈ x.inputs ↔ r = p) := by
  obtain ⟨x, hx, -, -, hi, -⟩ := h.passes
  intro x' hx'
  obtain rfl := Option.some.inj (hx.symm.trans hx')
  rw [OrderedSet.mem_def, hi, List.mem_singleton]

theorem output : ∀ x, net.transition? t = some x → (r ∈ x.outputs ↔ r = q) := by
  obtain ⟨x, hx, -, -, -, ho⟩ := h.passes
  intro x' hx'
  obtain rfl := Option.some.inj (hx.symm.trans hx')
  rw [OrderedSet.mem_def, ho, List.mem_singleton]

theorem consumes : net.Consumes p := by
  obtain ⟨x, hx, -⟩ := h.passes
  exact ⟨t, x, hx, (h.input x hx).2 rfl⟩

theorem produces : net.Produces q := by
  obtain ⟨x, hx, -⟩ := h.passes
  exact ⟨t, x, hx, (h.output x hx).2 rfl⟩

theorem feeder : ∃ u y, u ≠ t ∧ net.transition? u = some y ∧ p ∈ y.outputs := by
  obtain ⟨u, y, hy, hp⟩ := h.fed
  refine ⟨u, y, ?_, hy, hp⟩
  rintro rfl
  exact h.ne ((h.output y hy).1 hp)

theorem bypass_consumes : (net.bypass t p q).Consumes r ↔ net.Consumes r ∧ r ≠ p := by
  constructor
  · rintro ⟨u, y, hy, hr⟩
    rw [transition?_bypass] at hy
    split at hy
    · cases hy
    · next hu =>
      obtain ⟨z, hz, rfl⟩ := Option.map_eq_some_iff.1 hy
      rw [inputs_redirectOutputs] at hr
      exact ⟨⟨u, z, hz, hr⟩, fun eq => hu (h.only u z hz (eq ▸ hr))⟩
  · rintro ⟨⟨u, y, hy, hr⟩, ne⟩
    have hu : u ≠ t := by
      rintro rfl
      exact ne ((h.input y hy).1 hr)
    exact ⟨u, redirectOutputs p q y, by rw [transition?_bypass, if_neg hu, hy, Option.map_some],
      by rwa [inputs_redirectOutputs]⟩

theorem bypass_produces : (net.bypass t p q).Produces r ↔ net.Produces r ∧ r ≠ p := by
  constructor
  · rintro ⟨u, y, hy, hr⟩
    rw [transition?_bypass] at hy
    split at hy
    · cases hy
    · obtain ⟨z, hz, rfl⟩ := Option.map_eq_some_iff.1 hy
      rcases mem_outputs_redirectOutputs.1 hr with ⟨hr, ne⟩ | ⟨rfl, -⟩
      · exact ⟨⟨u, z, hz, hr⟩, ne⟩
      · exact ⟨h.produces, h.ne.symm⟩
  · rintro ⟨⟨u, y, hy, hr⟩, ne⟩
    by_cases hu : u = t
    · subst hu
      obtain rfl := (h.output y hy).1 hr
      obtain ⟨v, z, hv, hz, hp⟩ := h.feeder
      exact ⟨v, redirectOutputs p r z, by rw [transition?_bypass, if_neg hv, hz, Option.map_some],
        mem_outputs_redirectOutputs.2 (.inr ⟨rfl, hp⟩)⟩
    · exact ⟨u, redirectOutputs p q y,
        by rw [transition?_bypass, if_neg hu, hy, Option.map_some],
        mem_outputs_redirectOutputs.2 (.inl ⟨hr, ne⟩)⟩

theorem sources_bypass : r ∈ (net.bypass t p q).sources ↔ r ∈ net.sources := by
  rw [mem_sources, mem_sources, h.bypass_consumes, h.bypass_produces]
  have fed := h.fed
  constructor
  · rintro ⟨⟨consumes, ne⟩, unfed⟩
    exact ⟨consumes, fun produces => unfed ⟨produces, ne⟩⟩
  · rintro ⟨consumes, unfed⟩
    exact ⟨⟨consumes, fun eq => unfed (eq ▸ fed)⟩, fun produces => unfed produces.1⟩

theorem sinks_bypass : r ∈ (net.bypass t p q).sinks ↔ r ∈ net.sinks := by
  rw [mem_sinks, mem_sinks, h.bypass_consumes, h.bypass_produces]
  have consumes := h.consumes
  constructor
  · rintro ⟨⟨produces, ne⟩, kept⟩
    exact ⟨produces, fun consumes => kept ⟨consumes, ne⟩⟩
  · rintro ⟨produces, kept⟩
    exact ⟨⟨produces, fun eq => kept (eq ▸ consumes)⟩, fun consumes => kept consumes.1⟩

theorem bypass_wellFormed (wf : net.WellFormed) : (net.bypass t p q).WellFormed where
  place_id := wf.place_id
  transition_id hy := by
    rw [transition?_bypass] at hy
    split at hy
    · cases hy
    · obtain ⟨z, hz, rfl⟩ := Option.map_eq_some_iff.1 hy
      rw [id_redirectOutputs]
      exact wf.transition_id hz
  variable_name := wf.variable_name
  admits hy := by
    rw [transition?_bypass] at hy
    split at hy
    · cases hy
    · obtain ⟨z, hz, rfl⟩ := Option.map_eq_some_iff.1 hy
      have admits := wf.admits hz
      refine ⟨fun r hr => ?_, fun r hr => ?_, fun name hn => ?_⟩
      · rw [inputs_redirectOutputs] at hr
        exact admits.inputs r hr
      · rcases mem_outputs_redirectOutputs.1 hr with ⟨hr, -⟩ | ⟨rfl, -⟩
        · exact admits.outputs r hr
        · exact wf.produces_mem h.produces
      · rw [guard_redirectOutputs] at hn
        exact admits.reads name hn
  valid := wf.valid

end Bypasses

theorem isConnected_iff : net.isConnected p = true ↔ net.Consumes p ∨ net.Produces p := by
  rw [isConnected, List.any_eq_true]
  constructor
  · rintro ⟨y, hy, hp⟩
    obtain ⟨u, hu⟩ := OrderedMap.mem_values.1 hy
    rcases Bool.or_eq_true_iff.1 hp with hp | hp
    · exact .inl ⟨u, y, hu, of_decide_eq_true hp⟩
    · exact .inr ⟨u, y, hu, of_decide_eq_true hp⟩
  · rintro (⟨u, y, hu, hp⟩ | ⟨u, y, hu, hp⟩)
    · exact ⟨y, OrderedMap.mem_values.2 ⟨u, hu⟩, by simp [hp]⟩
    · exact ⟨y, OrderedMap.mem_values.2 ⟨u, hu⟩, by simp [hp]⟩

theorem place?_dropUnconnected :
    net.dropUnconnected.place? p = (net.place? p).filter fun _ => net.isConnected p :=
  OrderedMap.get?_filter _ _ _

theorem mem_keys_dropUnconnected : p ∈ net.dropUnconnected.places.keys ↔
    p ∈ net.places.keys ∧ (net.Consumes p ∨ net.Produces p) := by
  rw [← isConnected_iff, OrderedMap.mem_keys, OrderedMap.mem_keys]
  constructor
  · rintro ⟨x, hx⟩
    have hx : net.dropUnconnected.place? p = some x := hx
    rw [place?_dropUnconnected] at hx
    obtain ⟨hx, connected⟩ := Option.filter_eq_some_iff.1 hx
    exact ⟨⟨x, hx⟩, connected⟩
  · rintro ⟨⟨x, hx⟩, connected⟩
    refine ⟨x, ?_⟩
    have : net.dropUnconnected.place? p = some x := by
      rw [place?_dropUnconnected]
      exact Option.filter_eq_some_iff.2 ⟨hx, connected⟩
    exact this

theorem dropUnconnected_wellFormed (wf : net.WellFormed) : net.dropUnconnected.WellFormed where
  place_id hx := by
    rw [place?_dropUnconnected] at hx
    exact wf.place_id (Option.filter_eq_some_iff.1 hx).1
  transition_id := wf.transition_id
  variable_name := wf.variable_name
  admits {u y} hy := by
    have admits := wf.admits hy
    exact ⟨fun r hr => mem_keys_dropUnconnected.2 ⟨admits.inputs r hr, .inl ⟨u, y, hy, hr⟩⟩,
      fun r hr => mem_keys_dropUnconnected.2 ⟨admits.outputs r hr, .inr ⟨u, y, hy, hr⟩⟩,
      admits.reads⟩
  valid := wf.valid

end ProcessNet.Net
