import ProcessNet.Pattern.Prune
import ProcessNet.Proofs.Reduction.Pruned

/-!
What a pattern is meant to be, and that the two ways of making one from a net give it: wrapping a
well-formed net, and reducing the net of a pattern. Wrapping the parts of a pattern again finds what
the pattern remembers, so nothing a pattern holds can have gone stale.
-/

namespace ProcessNet.Pattern

/-- A net with the remembered ends, all of whose visible transitions are named and that has every
transition a name is given to. -/
structure WellFormed (P : Pattern) : Prop where
  net : P.net.WellFormed
  ends : P.net.HasEnds P.source P.sink
  labelled : ∀ t x, P.net.transition? t = some x → x.visible = true → t ∈ P.activities.keys
  known : ∀ t ∈ P.activities.keys, t ∈ P.net.transitions.keys

theorem ofNet_eq (net : Net) (labels : Labels) :
    ofNet net labels = match (normalised net).endpoints with
      | .error e => .error e
      | .ok ends =>
        match (labels.activities net).keys.find? fun t =>
            !(normalised net).transitions.contains t with
        | some unknown => .error (.unknownReference .transition unknown.name)
        | none =>
          match (normalised net).transitions.values.find? fun t =>
              t.visible && !(labels.activities net).contains t.id with
          | some unnamed => .error (.missingActivity unnamed.id)
          | none => .ok ⟨normalised net, labels.activities net, ends.1, ends.2⟩ := by
  rw [ofNet]
  rcases (normalised net).endpoints with e | ⟨source, sink⟩
  · rfl
  · dsimp only [bind, Except.bind]
    rcases (labels.activities net).keys.find? _ with _ | unknown
    · dsimp only
      rcases (normalised net).transitions.values.find? _ with _ | unnamed <;> rfl
    · rfl

theorem ofNet_eq_ok {net : Net} {labels : Labels} {P : Pattern} :
    ofNet net labels = .ok P ↔
      (normalised net).endpoints = .ok (P.source, P.sink) ∧ P.net = normalised net ∧
        P.activities = labels.activities net ∧
        (∀ t ∈ P.activities.keys, t ∈ P.net.transitions.keys) ∧
        ∀ x ∈ P.net.transitions.values, x.visible = true → x.id ∈ P.activities.keys := by
  rw [ofNet_eq]
  obtain ⟨pnet, activities, source, sink⟩ := P
  constructor
  · intro h
    rcases hends : (normalised net).endpoints with e | ends <;> rw [hends] at h
    · cases h
    dsimp only at h
    rcases hunknown : (labels.activities net).keys.find? _ with _ | unknown <;>
      rw [hunknown] at h
    swap
    · cases h
    dsimp only at h
    rcases hunnamed : (normalised net).transitions.values.find? _ with _ | unnamed <;>
      rw [hunnamed] at h
    swap
    · cases h
    cases h
    refine ⟨rfl, rfl, rfl, fun t ht => ?_, fun x hx visible => ?_⟩
    · simpa [OrderedMap.contains] using List.find?_eq_none.1 hunknown t ht
    · simpa [OrderedMap.contains, visible] using List.find?_eq_none.1 hunnamed x hx
  · rintro ⟨hends, rfl, rfl, known, named⟩
    have hunknown : (labels.activities net).keys.find?
        (fun t => !(normalised net).transitions.contains t) = none :=
      List.find?_eq_none.2 fun t ht => by simpa [OrderedMap.contains] using known t ht
    have hunnamed : (normalised net).transitions.values.find?
        (fun t => t.visible && !(labels.activities net).contains t.id) = none := by
      refine List.find?_eq_none.2 fun x hx => ?_
      by_cases visible : x.visible = true
      · simpa [OrderedMap.contains, visible] using named x hx visible
      · simp [visible]
    rw [hends]
    dsimp only
    rw [hunknown]
    dsimp only
    rw [hunnamed]

theorem normalised_wellFormed {net : Net} (wf : net.WellFormed) : (normalised net).WellFormed := by
  rw [normalised]
  split
  · exact wf
  · exact Net.toWorkflow_keepsForm wf

theorem wellFormed_of_ofNet {net : Net} {labels : Labels} {P : Pattern} (wf : net.WellFormed)
    (h : ofNet net labels = .ok P) : P.WellFormed := by
  obtain ⟨ends, pnet, -, known, named⟩ := ofNet_eq_ok.1 h
  have wf := normalised_wellFormed wf
  rw [← pnet] at wf ends
  refine ⟨wf, (Net.endpoints_eq_ok wf).1 ends, fun t x hx visible => ?_, known⟩
  rw [← wf.transition_id hx]
  exact named x (OrderedMap.mem_values.2 ⟨t, hx⟩) visible

theorem WellFormed.ofNet_parts {P : Pattern} (h : P.WellFormed) :
    ofNet P.net (.perTransition P.activities) = .ok P := by
  have normal : normalised P.net = P.net := if_pos (h.ends.isWorkflow h.net)
  refine ofNet_eq_ok.2 ⟨?_, normal.symm, rfl, h.known, fun x hx visible => ?_⟩
  · rw [normal]
    exact (Net.endpoints_eq_ok h.net).2 h.ends
  · obtain ⟨t, ht⟩ := OrderedMap.mem_values.1 hx
    rw [h.net.transition_id ht]
    exact h.labelled t x ht visible

theorem passes_prunes (exhaustive : Bool) :
    Evolves (OnNet fun net net' => net.WellFormed → net.Pruned net')
      (if exhaustive then Run.pruneExhaustively else Run.prune) := by
  split
  · exact Run.pruneExhaustively_prunes
  · exact Run.prune_prunes

theorem prune_eq_ok {P : Pattern} {exhaustive : Bool} {report : PruneReport}
    (done : (P.prune exhaustive).report = .ok report) : ∃ net',
      (P.net.WellFormed → P.net.Pruned net') ∧
        (P.prune exhaustive).pattern = forgetRemoved { P with net := net' } := by
  rw [prune] at done ⊢
  dsimp only at done ⊢
  rcases run : (if exhaustive then Run.pruneExhaustively else Run.prune).run (.start P.net) with
    ⟨r, s⟩ | ⟨fault, s⟩ <;> rw [run] at done
  · exact ⟨s.net, (passes_prunes exhaustive).ok run, rfl⟩
  · cases done

theorem WellFormed.forgetRemoved {P : Pattern} (h : P.WellFormed) {net' : Net}
    (pruned : P.net.Pruned net') : (forgetRemoved { P with net := net' }).WellFormed where
  net := pruned.wellFormed h.net
  ends := pruned.hasEnds h.ends
  labelled t y hy visible := by
    obtain ⟨z, hz, same⟩ := pruned.origin hy
    obtain ⟨name, hname⟩ := OrderedMap.mem_keys.1 (h.labelled t z hz (same ▸ visible))
    exact OrderedMap.mem_keys_filter.2
      ⟨name, hname, OrderedMap.contains_eq_true.2 (OrderedMap.mem_keys_of_get? hy)⟩
  known t ht := by
    obtain ⟨name, -, kept⟩ := OrderedMap.mem_keys_filter.1 ht
    exact OrderedMap.contains_eq_true.1 kept

theorem WellFormed.prune {P : Pattern} (h : P.WellFormed) {exhaustive : Bool}
    {report : PruneReport} (done : (P.prune exhaustive).report = .ok report) :
    (P.prune exhaustive).pattern.WellFormed := by
  obtain ⟨net', pruned, eq⟩ := prune_eq_ok done
  rw [eq]
  exact h.forgetRemoved (pruned h.net)

end ProcessNet.Pattern
