import ProcessNet.Proofs.Pattern.Built
import ProcessNet.Proofs.Reduction.Reported

/-!
What a reduction leaves as it was, told by its report. Sources and sinks stay the same places, so a
net with one of each keeps its ends. Only silent, unguarded transitions go. The others stay in their
order and lose nothing but the places that were bypassed: where such a transition put a token, it
puts one on the place to which the redirections lead, taken one after the other in the order of the
report.
-/

namespace ProcessNet

/-- Where the redirections lead from a place. -/
def redirect (steps : List Bypass) (p : PlaceId) : PlaceId :=
  steps.foldl (fun r step => if r = step.place then step.redirectedTo else r) p

theorem redirect_append (steps later : List Bypass) (p : PlaceId) :
    redirect (steps ++ later) p = redirect later (redirect steps p) :=
  List.foldl_append

theorem Guard.isAlways_iff {g : Guard} : g.isAlways = true ↔ g = .always := by
  cases g <;> simp [isAlways]

namespace Net

/-- The second net is the first one without what the report lists. -/
structure ReducedBy (net : Net) (report : PruneReport) (net' : Net) : Prop where
  sources : ∀ p, p ∈ net'.sources ↔ p ∈ net.sources
  sinks : ∀ p, p ∈ net'.sinks ↔ p ∈ net.sinks
  vars : net'.vars = net.vars
  listed : report.transitions = report.steps.map (·.transition)
  removed : ∀ t ∈ report.transitions, ∃ x, net.transition? t = some x ∧ x.visible = false ∧
    x.guard = .always
  keys : net'.transitions.keys = net.transitions.keys.filter (· ∉ report.transitions)
  kept : ∀ t y, net'.transition? t = some y → ∃ x, net.transition? t = some x ∧
    y = { x with outputs := y.outputs } ∧
    ∀ q, q ∈ y.outputs ↔ ∃ p ∈ x.outputs, redirect report.steps p = q

variable {net net' net₁ net₂ : Net} {report later : PruneReport} {t : TransitionId} {p q : PlaceId}

namespace ReducedBy

theorem of_transitions (places : List PlaceId) (transitions : net'.transitions = net.transitions)
    (vars : net'.vars = net.vars) : net.ReducedBy ⟨[], [], places⟩ net' where
  sources p := by rw [Net.sources, Net.sources, consumed, consumed, produced, produced, transitions]
  sinks p := by rw [Net.sinks, Net.sinks, consumed, consumed, produced, produced, transitions]
  vars := vars
  listed := rfl
  removed t ht := nomatch ht
  keys := by simp [transitions]
  kept t y hy := by
    refine ⟨y, ?_, rfl, fun q => ?_⟩
    · rwa [transition?, ← transitions]
    · simp [redirect]

theorem refl (net : Net) : net.ReducedBy .none net := of_transitions [] rfl rfl

theorem append (h : net.ReducedBy report net₁) (h' : net₁.ReducedBy later net₂) :
    net.ReducedBy (report.append later) net₂ where
  sources p := (h'.sources p).trans (h.sources p)
  sinks p := (h'.sinks p).trans (h.sinks p)
  vars := h'.vars.trans h.vars
  listed := by simp [PruneReport.append, h.listed, h'.listed]
  removed t ht := by
    rcases List.mem_append.1 ht with ht | ht
    · exact h.removed t ht
    · obtain ⟨y, hy, silent, unguarded⟩ := h'.removed t ht
      obtain ⟨x, hx, same, -⟩ := h.kept t y hy
      rw [same] at silent unguarded
      exact ⟨x, hx, silent, unguarded⟩
  keys := by
    rw [h'.keys, h.keys, List.filter_filter]
    refine List.filter_congr fun t _ => ?_
    simp [PruneReport.append, Bool.and_comm]
  kept t z hz := by
    obtain ⟨y, hy, same', outputs'⟩ := h'.kept t z hz
    obtain ⟨x, hx, same, outputs⟩ := h.kept t y hy
    refine ⟨x, hx, by rw [same', same], fun r => ?_⟩
    rw [outputs']
    constructor
    · rintro ⟨q, hq, rfl⟩
      obtain ⟨p, hp, rfl⟩ := (outputs q).1 hq
      exact ⟨p, hp, redirect_append _ _ p⟩
    · rintro ⟨p, hp, rfl⟩
      exact ⟨redirect report.steps p, (outputs _).2 ⟨p, hp, rfl⟩, (redirect_append _ _ p).symm⟩

end ReducedBy

theorem redirectOutputs_eq {y : Transition} :
    redirectOutputs p q y = { y with outputs := (redirectOutputs p q y).outputs } := by
  rw [redirectOutputs]
  split <;> rfl

theorem Bypasses.reducedBy (h : net.Bypasses t p q) :
    net.ReducedBy (.ofSteps [⟨t, p, q⟩]) (net.bypass t p q) where
  sources _ := h.sources_bypass
  sinks _ := h.sinks_bypass
  vars := rfl
  listed := rfl
  removed u hu := by
    obtain rfl := List.mem_singleton.1 hu
    obtain ⟨x, hx, silent, unguarded, -⟩ := h.passes
    exact ⟨x, hx, silent, Guard.isAlways_iff.1 unguarded⟩
  keys := by
    rw [bypass, OrderedMap.keys_mapValues]
    simp [OrderedMap.erase, OrderedMap.filter, OrderedMap.keys, PruneReport.ofSteps,
      List.filter_map, Function.comp_def]
  kept u z hz := by
    rw [transition?_bypass] at hz
    split at hz
    · cases hz
    · obtain ⟨y, hy, rfl⟩ := Option.map_eq_some_iff.1 hz
      refine ⟨y, hy, redirectOutputs_eq, fun r => ?_⟩
      rw [mem_outputs_redirectOutputs]
      constructor
      · rintro (⟨hr, ne⟩ | ⟨rfl, hp⟩)
        · exact ⟨r, hr, if_neg ne⟩
        · exact ⟨p, hp, if_pos rfl⟩
      · rintro ⟨o, ho, rfl⟩
        by_cases eq : o = p
        · exact .inr ⟨if_pos eq, eq ▸ ho⟩
        · refine .inl ?_
          have stays : redirect (PruneReport.ofSteps [⟨t, p, q⟩]).steps o = o := if_neg eq
          rw [stays]
          exact ⟨ho, eq⟩

theorem Reduces.reducedBy (h : net.Reduces report net') : net.ReducedBy report net' := by
  induction h with
  | refl => exact .refl net
  | @collapse _ net₁ t p q _ bypasses ih =>
    have moved : (net₁.bypass t p q).ReducedBy .none (net₁.collapse t p q) :=
      .of_transitions [] rfl rfl
    have last := bypasses.reducedBy.append moved
    rw [PruneReport.append_none] at last
    exact ih.append last
  | drop _ ih => exact ih.append (.of_transitions _ rfl rfl)

end Net

namespace Run

open Net (ReducedBy)

variable {s s' : Session}

theorem prune_reduced {report : PruneReport} (wf : s.net.WellFormed)
    (h : prune.run s = .ok report s') : s.net.ReducedBy report s'.net :=
  (prune_reduces wf h).reducedBy

theorem pruneUntilStill_reduced {earlier total : PruneReport} (wf : s.net.WellFormed)
    (h : pruneUntilStill earlier s = .ok total s') :
    ∃ report, total = earlier.append report ∧ s.net.ReducedBy report s'.net := by
  obtain ⟨report, s₁, rfl, reduces, last⟩ := pruneUntilStill_eq_ok wf h
  have whole := reduces.trans (prune_reduces (reduces.wellFormed wf) last)
  rw [PruneReport.append_none] at whole
  exact ⟨report, rfl, whole.reducedBy⟩

end Run

theorem Net.ReducedBy.hasEnds_iff {net net' : Net} {report : PruneReport}
    (h : net.ReducedBy report net') (source sink : PlaceId) :
    net'.HasEnds source sink ↔ net.HasEnds source sink := by
  constructor
  · rintro ⟨hs, ht⟩
    exact ⟨fun p => (h.sources p).symm.trans (hs p), fun p => (h.sinks p).symm.trans (ht p)⟩
  · rintro ⟨hs, ht⟩
    exact ⟨fun p => (h.sources p).trans (hs p), fun p => (h.sinks p).trans (ht p)⟩

/-- A reduction that returns, in one pass or until nothing is left to remove, has made of the net
what its report says, and the net is a workflow net afterwards if and only if it was one, with the
same ends. -/
theorem Built.prune_keeps_interface {net : Net} {report : PruneReport} {s : Session}
    (built : Built (.net net)) (exhaustive : Bool)
    (h : (if exhaustive then Run.pruneExhaustively else Run.prune).run (.start net) =
      .ok report s) :
    net.ReducedBy report s.net ∧ s.net.isWorkflow = net.isWorkflow ∧
      ∀ ends, s.net.endpoints = .ok ends ↔ net.endpoints = .ok ends := by
  have wf : net.WellFormed := built.wellFormed
  have wf' : s.net.WellFormed := ((Pattern.passes_prunes exhaustive).ok h wf).wellFormed wf
  have reduced : net.ReducedBy report s.net := by
    cases exhaustive with
    | false => exact Run.prune_reduced (s := .start net) wf h
    | true =>
      obtain ⟨report', rfl, reduced⟩ := Run.pruneUntilStill_reduced (s := .start net) wf h
      exact reduced
  refine ⟨reduced, ?_, fun ends => ?_⟩
  · rw [Bool.eq_iff_iff, Net.isWorkflow_iff wf, Net.isWorkflow_iff wf']
    exact exists₂_congr reduced.hasEnds_iff
  · rw [Net.endpoints_eq_ok wf, Net.endpoints_eq_ok wf']
    exact reduced.hasEnds_iff _ _

/-- Two silent steps in a row, stored against the direction of the flow. -/
def Net.relay : Net :=
  .after [.addPlace (.ofId ⟨"start"⟩ 1), .addPlace (.blank ⟨"near"⟩), .addPlace (.blank ⟨"middle"⟩),
    .addPlace (.blank ⟨"far"⟩), .addPlace (.blank ⟨"end"⟩),
    .addTransition (.bare ⟨"send"⟩ "send" true), .connect ⟨"start"⟩ ⟨"send"⟩ ⟨"near"⟩,
    .addTransition (.silent ⟨"second"⟩), .connect ⟨"middle"⟩ ⟨"second"⟩ ⟨"far"⟩,
    .addTransition (.silent ⟨"first"⟩), .connect ⟨"near"⟩ ⟨"first"⟩ ⟨"middle"⟩,
    .addTransition (.bare ⟨"receive"⟩ "receive" true), .connect ⟨"far"⟩ ⟨"receive"⟩ ⟨"end"⟩]

theorem relay_prune_keeps_interface : ∃ report s,
    Run.pruneExhaustively.run (.start .relay) = .ok report s ∧
    s.net.endpoints = .ok (⟨"start"⟩, ⟨"end"⟩) ∧
    s.net.transitions.keys = [⟨"send"⟩, ⟨"receive"⟩] ∧
    ∃ y, s.net.transition? ⟨"send"⟩ = some y ∧ ⟨"far"⟩ ∈ y.outputs := by
  have steps : (match Run.pruneExhaustively.run (.start .relay) with
      | .ok report _ => report.steps
      | .error _ _ => []) =
        [⟨⟨"second"⟩, ⟨"middle"⟩, ⟨"far"⟩⟩, ⟨⟨"first"⟩, ⟨"near"⟩, ⟨"far"⟩⟩] := by decide +kernel
  rcases run : Run.pruneExhaustively.run (.start .relay) with ⟨report, s⟩ | ⟨e, s⟩ <;>
    rw [run] at steps
  swap
  · cases steps
  dsimp only at steps
  have built : Built (.net .relay) := built_after _
  obtain ⟨reduced, -, ends⟩ := built.prune_keeps_interface true run
  have keys : s.net.transitions.keys = [⟨"send"⟩, ⟨"receive"⟩] := by
    rw [reduced.keys, reduced.listed, steps]
    decide +kernel
  have known : ⟨"send"⟩ ∈ s.net.transitions.keys := keys ▸ List.mem_cons_self
  obtain ⟨y, hy⟩ := OrderedMap.mem_keys.1 known
  obtain ⟨x, hx, -, outputs⟩ := reduced.kept _ y hy
  have feeds : (Net.relay.transition? ⟨"send"⟩).any (⟨"near"⟩ ∈ ·.outputs) = true := by
    decide +kernel
  rw [hx, Option.any_some, decide_eq_true_eq] at feeds
  have found : Net.relay.endpoints? = some (⟨"start"⟩, ⟨"end"⟩) := by decide +kernel
  have first : Net.relay.endpoints = .ok (⟨"start"⟩, ⟨"end"⟩) := by rw [Net.endpoints, found]
  refine ⟨report, s, rfl, (ends _).2 first, keys, y, hy, (outputs _).2 ⟨_, feeds, ?_⟩⟩
  rw [steps]
  rfl

end ProcessNet
