import ProcessNet.Proofs.Net.Normalisation

/-!
Which nets and names make a pattern, and which refusal the others get. The ends are asked of the net as
it was given, and so are the visible transitions, as all that normalisation adds is silent. The names
are looked up in the normalised net: a name for one of the routes that normalisation adds is let
through, though the caller's net has no such transition. Where there is no such name the given net alone
decides.
-/

namespace ProcessNet

/-- There is an end on each side, in whatever number. -/
def Net.TwoEnded (net : Net) : Prop := 0 < net.sources.size ∧ 0 < net.sinks.size

theorem Net.eq_notWorkflowNet {net : Net} {e : NetError} (h : net.endpoints = .error e) :
    e = .notWorkflowNet net.places.size net.sources.size net.sinks.size := by
  rw [endpoints] at h
  split at h
  · cases h
  · exact (Except.error.inj h).symm

def Net.Named (net : Net) (names : Activities) : Prop :=
  ∀ x ∈ net.transitions.values, x.visible = true → x.id ∈ names.keys

namespace Pattern

/-- The outcome of making a pattern from a net and names, where only the transitions of `known` may be
named: a pattern if nothing is wrong, and otherwise the refusal for missing ends before that for an
unknown name before that for a missing one. A refusal blames a name or a transition that is at fault. -/
structure DecidedBy (net : Net) (known : TransitionId → Prop) (names : Activities)
    (outcome : Except NetError Pattern) : Prop where
  accepted : (∃ P, outcome = .ok P) ↔
    net.TwoEnded ∧ (∀ t ∈ names.keys, known t) ∧ net.Named names
  endless : (∃ places sources sinks, outcome = .error (.notWorkflowNet places sources sinks)) ↔
    ¬net.TwoEnded
  unknown : (∃ t, outcome = .error (.unknownReference .transition t)) ↔
    net.TwoEnded ∧ ∃ t ∈ names.keys, ¬known t
  unnamed : (∃ t, outcome = .error (.missingActivity t)) ↔
    net.TwoEnded ∧ (∀ t ∈ names.keys, known t) ∧ ¬net.Named names
  blames_unknown : ∀ name, outcome = .error (.unknownReference .transition name) →
    ∃ t ∈ names.keys, t.name = name ∧ ¬known t
  blames_unnamed : ∀ t, outcome = .error (.missingActivity t) →
    ∃ x ∈ net.transitions.values, x.id = t ∧ x.visible = true ∧ t ∉ names.keys

variable {net : Net} {known known' : TransitionId → Prop} {names : Activities}
  {outcome : Except NetError Pattern}

namespace DecidedBy

theorem of_accepted (ends : net.TwoEnded) (all : ∀ t ∈ names.keys, known t)
    (named : net.Named names) (P : Pattern) : DecidedBy net known names (.ok P) where
  accepted := iff_of_true ⟨P, rfl⟩ ⟨ends, all, named⟩
  endless := iff_of_false (by simp) (not_not.2 ends)
  unknown := iff_of_false (by simp) fun ⟨_, t, ht, unknown⟩ => unknown (all t ht)
  unnamed := iff_of_false (by simp) fun ⟨_, _, unnamed⟩ => unnamed named
  blames_unknown _ h := by cases h
  blames_unnamed _ h := by cases h

theorem of_endless (endless : ¬net.TwoEnded) (places sources sinks : ℕ) :
    DecidedBy net known names (.error (.notWorkflowNet places sources sinks)) where
  accepted := iff_of_false (by simp) fun h => endless h.1
  endless := iff_of_true ⟨places, sources, sinks, rfl⟩ endless
  unknown := iff_of_false (by simp) fun h => endless h.1
  unnamed := iff_of_false (by simp) fun h => endless h.1
  blames_unknown _ h := by cases h
  blames_unnamed _ h := by cases h

theorem of_unknown (ends : net.TwoEnded) {t : TransitionId} (ht : t ∈ names.keys)
    (unknown : ¬known t) :
    DecidedBy net known names (.error (.unknownReference .transition t.name)) where
  accepted := iff_of_false (by simp) fun h => unknown (h.2.1 t ht)
  endless := iff_of_false (by simp) (not_not.2 ends)
  unknown := iff_of_true ⟨t.name, rfl⟩ ⟨ends, t, ht, unknown⟩
  unnamed := iff_of_false (by simp) fun h => unknown (h.2.1 t ht)
  blames_unknown _ h := by
    cases h
    exact ⟨t, ht, rfl, unknown⟩
  blames_unnamed _ h := by cases h

theorem of_unnamed (ends : net.TwoEnded) (all : ∀ t ∈ names.keys, known t) {x : Transition}
    (hx : x ∈ net.transitions.values) (visible : x.visible = true) (unnamed : x.id ∉ names.keys) :
    DecidedBy net known names (.error (.missingActivity x.id)) where
  accepted := iff_of_false (by simp) fun h => unnamed (h.2.2 x hx visible)
  endless := iff_of_false (by simp) (not_not.2 ends)
  unknown := iff_of_false (by simp) fun ⟨_, t, ht, unknown⟩ => unknown (all t ht)
  unnamed := iff_of_true ⟨x.id, rfl⟩ ⟨ends, all, fun named => unnamed (named x hx visible)⟩
  blames_unknown _ h := by cases h
  blames_unnamed _ h := by
    cases h
    exact ⟨x, hx, rfl, visible, unnamed⟩

theorem known_fewer_iff (decided : DecidedBy net known names outcome)
    (fewer : ∀ t, known' t → known t) :
    DecidedBy net known' names outcome ↔
      ¬(net.TwoEnded ∧ (∀ t ∈ names.keys, known t) ∧ ∃ t ∈ names.keys, ¬known' t) := by
  constructor
  · rintro decided' ⟨ends, all, missing⟩
    obtain ⟨-, t, ht, unknown⟩ := decided.unknown.1 (decided'.unknown.2 ⟨ends, missing⟩)
    exact unknown (all t ht)
  · intro same
    have all_iff : net.TwoEnded →
        ((∀ t ∈ names.keys, known' t) ↔ ∀ t ∈ names.keys, known t) := fun ends =>
      ⟨fun all t ht => fewer t (all t ht), fun all t ht => by
        by_contra unknown
        exact same ⟨ends, all, t, ht, unknown⟩⟩
    have missing_iff : net.TwoEnded →
        ((∃ t ∈ names.keys, ¬known' t) ↔ ∃ t ∈ names.keys, ¬known t) := fun ends => by
      simpa using not_congr (all_iff ends)
    exact
      { accepted := decided.accepted.trans (and_congr_right fun ends =>
          and_congr_left' (all_iff ends).symm)
        endless := decided.endless
        unknown := decided.unknown.trans (and_congr_right fun ends => (missing_iff ends).symm)
        unnamed := decided.unnamed.trans (and_congr_right fun ends =>
          and_congr_left' (all_iff ends).symm)
        blames_unknown := fun name h => by
          obtain ⟨t, ht, rfl, unknown⟩ := decided.blames_unknown name h
          exact ⟨t, ht, rfl, mt (fewer t) unknown⟩
        blames_unnamed := decided.blames_unnamed }

end DecidedBy

theorem normalised_eq_toWorkflow (wf : net.WellFormed) : normalised net = net.toWorkflow := by
  rw [normalised]
  split
  case isTrue workflow =>
    obtain ⟨one, one'⟩ := Net.exists_hasEnds_iff.1 ((Net.isWorkflow_iff wf).1 workflow)
    exact (Net.toWorkflow_eq_self one.le one'.le).symm
  case isFalse => rfl

theorem exists_normalised_transitions (wf : net.WellFormed) : ∃ routes : List Transition,
    (∀ x ∈ routes, x.visible = false) ∧
      (normalised net).transitions.keys = net.transitions.keys ++ routes.map (·.id) ∧
      (normalised net).transitions.values = net.transitions.values ++ routes := by
  obtain ⟨_, fronts, _, backs, adds, gathers, gathers', -⟩ := wf.toWorkflow_adds
  rw [normalised_eq_toWorkflow wf]
  refine ⟨fronts ++ backs, fun x hx => ?_, adds.keys_transitions, adds.values_transitions⟩
  rcases List.mem_append.1 hx with hx | hx
  · exact gathers.silent hx
  · exact gathers'.silent hx

theorem mem_keys_normalised (wf : net.WellFormed) {t : TransitionId}
    (h : t ∈ net.transitions.keys) : t ∈ (normalised net).transitions.keys := by
  obtain ⟨routes, -, keys, -⟩ := exists_normalised_transitions wf
  rw [keys]
  exact List.mem_append_left _ h

theorem mem_values_normalised (wf : net.WellFormed) {x : Transition} (visible : x.visible = true) :
    x ∈ (normalised net).transitions.values ↔ x ∈ net.transitions.values := by
  obtain ⟨routes, silent, -, values⟩ := exists_normalised_transitions wf
  have old : x ∉ routes := fun hx => by cases (silent x hx).symm.trans visible
  rw [values, List.mem_append, or_iff_left old]

theorem toBool_endpoints_normalised (wf : net.WellFormed) :
    (normalised net).endpoints.toBool = true ↔ net.TwoEnded := by
  rw [Net.toBool_endpoints (normalised_wellFormed wf), normalised_eq_toWorkflow wf]
  exact wf.isWorkflow_toWorkflow_iff

theorem ofNet_decided (wf : net.WellFormed) (labels : Labels) :
    DecidedBy net (· ∈ (normalised net).transitions.keys) (labels.activities net)
      (ofNet net labels) := by
  have ends := toBool_endpoints_normalised wf
  rw [ofNet_eq]
  rcases found : (normalised net).endpoints with e | ⟨source, sink⟩
  · have endless : ¬net.TwoEnded := by
      rw [← ends, found]
      exact Bool.false_ne_true
    rw [Net.eq_notWorkflowNet found]
    exact .of_endless endless _ _ _
  rw [found] at ends
  have ends : net.TwoEnded := ends.1 rfl
  dsimp only
  rcases searched : (labels.activities net).keys.find? _ with _ | t
  · have all : ∀ t ∈ (labels.activities net).keys, t ∈ (normalised net).transitions.keys :=
      fun t ht => by simpa [OrderedMap.contains] using List.find?_eq_none.1 searched t ht
    dsimp only
    rcases asked : (normalised net).transitions.values.find? _ with _ | x
    · refine .of_accepted ends all (fun x hx visible => ?_) _
      have named := List.find?_eq_none.1 asked x ((mem_values_normalised wf visible).2 hx)
      simpa [OrderedMap.contains, visible] using named
    · have unnamed := List.find?_some asked
      simp only [OrderedMap.contains, Bool.and_eq_true, Bool.not_eq_true',
        decide_eq_false_iff_not] at unnamed
      obtain ⟨visible, unnamed⟩ := unnamed
      have hx := (mem_values_normalised wf visible).1 (List.mem_of_find?_eq_some asked)
      exact .of_unnamed ends all hx visible unnamed
  · have unknown := List.find?_some searched
    simp only [OrderedMap.contains, Bool.not_eq_true', decide_eq_false_iff_not] at unknown
    exact .of_unknown ends (List.mem_of_find?_eq_some searched) unknown

theorem ofNet_uniform_ok_iff (wf : net.WellFormed) (name : String) :
    (∃ P, ofNet net (.uniform name) = .ok P) ↔ net.TwoEnded := by
  have keys : ((Labels.uniform name).activities net).keys = net.transitions.keys :=
    OrderedMap.keys_mapValues _ _
  have all : ∀ t ∈ ((Labels.uniform name).activities net).keys,
      t ∈ (normalised net).transitions.keys := fun t ht => mem_keys_normalised wf (keys ▸ ht)
  have named : net.Named ((Labels.uniform name).activities net) := fun x hx _ => by
    obtain ⟨t, ht⟩ := OrderedMap.mem_values.1 hx
    rw [keys, wf.transition_id ht]
    exact OrderedMap.mem_keys_of_get? ht
  rw [(ofNet_decided wf _).accepted, and_iff_left ⟨all, named⟩]

/-- A net and names for its transitions make a pattern exactly if the net has ends on both sides, its
visible transitions are named, and all that is named is a transition of the normalised net. The
transitions of the net itself decide, unless the ends are there and every name is for a transition of
the normalised net but one is for a route that was added. Nothing is added to a net with at most one end
on each side. -/
theorem ofNet_accepts (built : Built (.net net)) (names : Activities) :
    DecidedBy net (· ∈ (normalised net).transitions.keys) names (ofNet net (.perTransition names)) ∧
    (DecidedBy net (· ∈ net.transitions.keys) names (ofNet net (.perTransition names)) ↔
      ¬(net.TwoEnded ∧ (∀ t ∈ names.keys, t ∈ (normalised net).transitions.keys) ∧
        ∃ t ∈ names.keys, t ∉ net.transitions.keys)) ∧
    (net.sources.size ≤ 1 → net.sinks.size ≤ 1 →
      DecidedBy net (· ∈ net.transitions.keys) names (ofNet net (.perTransition names))) := by
  have wf : net.WellFormed := built.wellFormed
  have decided : DecidedBy net (· ∈ (normalised net).transitions.keys) names
      (ofNet net (.perTransition names)) := ofNet_decided wf (.perTransition names)
  refine ⟨decided, decided.known_fewer_iff fun t => mem_keys_normalised wf, fun hs ht => ?_⟩
  have same : normalised net = net :=
    (normalised_eq_toWorkflow wf).trans (Net.toWorkflow_eq_self hs ht)
  rwa [same] at decided

/-- A task that takes from two starts, so that normalisation puts a place and two routes before it. -/
def twoStarts : Net :=
  .after [.addPlace (.blank ⟨"start"⟩), .addPlace (.blank ⟨"stock"⟩), .addPlace (.blank ⟨"end"⟩),
    .addTransition (.bare ⟨"work"⟩ "work" true), .connect ⟨"start"⟩ ⟨"work"⟩ ⟨"end"⟩,
    .addInputArc ⟨"stock"⟩ ⟨"work"⟩]

theorem twoStarts_accepts :
    DecidedBy twoStarts (· ∈ twoStarts.transitions.keys) (.ofList [(⟨"work"⟩, "work")])
      (ofNet twoStarts (.perTransition (.ofList [(⟨"work"⟩, "work")]))) ∧
    ∃ t, ofNet twoStarts (.perTransition (.ofList [(⟨"rest"⟩, "rest")])) =
      .error (.unknownReference .transition t) := by
  have built : Built (.net twoStarts) := built_after _
  obtain ⟨-, own, -⟩ := ofNet_accepts built (.ofList [(⟨"work"⟩, "work")])
  obtain ⟨decided, -⟩ := ofNet_accepts built (.ofList [(⟨"rest"⟩, "rest")])
  have ends : twoStarts.TwoEnded := by
    rw [Net.TwoEnded]
    decide +kernel
  refine ⟨own.2 ?_, decided.unknown.2 ⟨ends, ⟨"rest"⟩, ?_⟩⟩
  · rintro ⟨-, -, stray⟩
    exact absurd stray (by decide +kernel)
  · decide +kernel

/-- Names for the task and for a transition that only the normalised net has. -/
def straying : Activities := .ofList [(⟨"work"⟩, "work"), (⟨"stock"⟩, "supply")]

theorem straying_accepted :
    Built (.net twoStarts) ∧ (⟨"stock"⟩ : TransitionId) ∈ straying.keys ∧
    (⟨"stock"⟩ : TransitionId) ∉ twoStarts.transitions.keys ∧
    (∃ P, ofNet twoStarts (.perTransition straying) = .ok P) ∧
    ¬DecidedBy twoStarts (· ∈ twoStarts.transitions.keys) straying
      (ofNet twoStarts (.perTransition straying)) := by
  have listed : (⟨"stock"⟩ : TransitionId) ∈ straying.keys := by decide +kernel
  have stray : (⟨"stock"⟩ : TransitionId) ∉ twoStarts.transitions.keys := by decide +kernel
  have answers : (ofNet twoStarts (.perTransition straying)).toBool = true := by decide +kernel
  have accepted := exists_eq_ok answers
  refine ⟨built_after _, listed, stray, accepted, fun decided => ?_⟩
  exact stray ((decided.accepted.1 accepted).2.1 _ listed)

end Pattern

end ProcessNet
