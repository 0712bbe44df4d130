import ProcessNet.Proofs.Pattern.Blueprint
import ProcessNet.Proofs.Pattern.WellFormed
import ProcessNet.Proofs.TokenGame.Refinement

/-!
From the blueprint of a composition to its behaviour. A naming says where each place and each move of
a refined skeleton went; when the blueprint made from it describes a pattern, the net of the pattern
plays the refined game under these names. Form, ends, names of activities and soundness of the result
follow for every skeleton at once, so an operator only has to be shown to be put together by one.
-/

namespace ProcessNet

theorem OrderedMap.injOn_of_keys {ι κ β : Type} {m : OrderedMap κ β} {l : List ι} {f : ι → κ}
    {s : Set ι} (keys : m.keys = l.map f) (listed : ∀ x ∈ s, x ∈ l) : Set.InjOn f s :=
  fun _ hx _ hy eq =>
    List.inj_on_of_nodup_map (keys ▸ m.nodup_keys) (listed _ hx) (listed _ hy) eq

/-- The names that a composition gives to what a skeleton consists of. -/
structure Naming (I S R : Type) where
  rename : I → Renaming
  spot : S → PlaceId
  route : R → TransitionId

namespace Naming

variable {I S R : Type} {k : Skeleton I S R} {operand : I → Pattern} {result : Pattern}

def port (operand : I → Pattern) : Port I S → Site I PlaceId S :=
  Skeleton.site (fun i => (operand i).source) fun i => (operand i).sink

def place (n : Naming I S R) : Site I PlaceId S → PlaceId
  | .inner i p => (n.rename i).place p
  | .spot x => n.spot x

def known (operand : I → Pattern) : Set (Site I PlaceId S)
  | .inner i p => p ∈ (operand i).net.places.keys
  | .spot _ => True

def transition (n : Naming I S R) : Action I TransitionId R → TransitionId
  | .inner i t => (n.rename i).transition t
  | .route r => n.route r

def knownMoves (operand : I → Pattern) : Set (Action I TransitionId R)
  | .inner i t => t ∈ (operand i).net.transitions.keys
  | .route _ => True

def blueprint (n : Naming I S R) (k : Skeleton I S R) (operand : I → Pattern) : Blueprint where
  parts := k.parts.map fun i => (operand i, n.rename i)
  places := k.spots.map n.spot
  routes := k.routes.map fun r => (n.route r, ((k.take r).map (port operand)).map n.place,
    ((k.put r).map (port operand)).map n.place)

/-- The result is put together from the operands as the skeleton says. -/
structure Assembles (n : Naming I S R) (k : Skeleton I S R) (operand : I → Pattern)
    (result : Pattern) : Prop where
  describes : (n.blueprint k operand).Describes ⟨result.net, result.activities⟩
  source : result.source = n.place (port operand k.source)
  sink : result.sink = n.place (port operand k.sink)

namespace Assembles

variable {n : Naming I S R} (h : n.Assembles k operand result) {p : PlaceId} {t : TransitionId}
  {name : String} {x : Place} {y : Transition} {z : Variable}

include h

theorem place?_eq_some : result.net.place? p = some x ↔
    (∃ i q w, (operand i).net.place? q = some w ∧ p = n.place (.inner i q) ∧
      x = { w with id := p }) ∨ ∃ s, p = n.spot s ∧ x = .blank p := by
  rw [Net.place?, OrderedMap.get?_eq_some, h.describes.places]
  simp only [List.mem_append, List.mem_flatMap, List.mem_map, blueprint, Renaming.placeEntries,
    Net.place?, OrderedMap.get?_eq_some]
  constructor
  · rintro (⟨_, ⟨i, -, rfl⟩, ⟨q, w⟩, hw, eq⟩ | ⟨_, ⟨s, -, rfl⟩, eq⟩)
    · cases eq
      exact .inl ⟨i, q, w, hw, rfl, rfl⟩
    · cases eq
      exact .inr ⟨s, rfl, rfl⟩
  · rintro (⟨i, q, w, hw, rfl, rfl⟩ | ⟨s, rfl, rfl⟩)
    · exact .inl ⟨_, ⟨i, k.parts_all i, rfl⟩, ⟨q, w⟩, hw, rfl⟩
    · exact .inr ⟨_, ⟨s, k.spots_all s, rfl⟩, rfl⟩

theorem transition?_eq_some : result.net.transition? t = some y ↔
    (∃ i u w, (operand i).net.transition? u = some w ∧ t = n.transition (.inner i u) ∧
      y = (n.rename i).copy t w) ∨
      ∃ r, t = n.route r ∧ y = .routing t (((k.take r).map (port operand)).map n.place)
        (((k.put r).map (port operand)).map n.place) := by
  rw [Net.transition?, OrderedMap.get?_eq_some, h.describes.transitions]
  simp only [List.mem_append, List.mem_flatMap, List.mem_map, blueprint,
    Renaming.transitionEntries, Net.transition?, OrderedMap.get?_eq_some]
  constructor
  · rintro (⟨_, ⟨i, -, rfl⟩, ⟨u, w⟩, hw, eq⟩ | ⟨_, ⟨r, -, rfl⟩, eq⟩)
    · cases eq
      exact .inl ⟨i, u, w, hw, rfl, rfl⟩
    · cases eq
      exact .inr ⟨r, rfl, rfl⟩
  · rintro (⟨i, u, w, hw, rfl, rfl⟩ | ⟨r, rfl, rfl⟩)
    · exact .inl ⟨_, ⟨i, k.parts_all i, rfl⟩, ⟨u, w⟩, hw, rfl⟩
    · exact .inr ⟨_, ⟨r, k.routes_all r, rfl⟩, rfl⟩

theorem namedVariable?_eq_some : result.net.namedVariable? name = some z ↔
    ∃ i v w, (operand i).net.namedVariable? v = some w ∧
      name = (n.rename i).variableName v ∧ z = { w with name := name } := by
  rw [Net.namedVariable?, OrderedMap.get?_eq_some, h.describes.vars]
  simp only [List.mem_flatMap, List.mem_map, blueprint, Renaming.variableEntries,
    Net.namedVariable?, OrderedMap.get?_eq_some]
  constructor
  · rintro ⟨_, ⟨i, -, rfl⟩, ⟨v, w⟩, hw, eq⟩
    cases eq
    exact ⟨i, v, w, hw, rfl, rfl⟩
  · rintro ⟨i, v, w, hw, rfl, rfl⟩
    exact ⟨_, ⟨i, k.parts_all i, rfl⟩, ⟨v, w⟩, hw, rfl⟩

theorem activity?_eq_some : result.activity? t = some name ↔
    ∃ i u w, (operand i).net.transition? u = some w ∧ (operand i).activity? u = some name ∧
      t = n.transition (.inner i u) := by
  rw [Pattern.activity?, OrderedMap.get?_eq_some, h.describes.activities]
  simp only [List.mem_flatMap, List.mem_map, blueprint, Renaming.activityEntries,
    Option.mem_toList, Option.map_eq_some_iff, Net.transition?, OrderedMap.get?_eq_some]
  constructor
  · rintro ⟨_, ⟨i, -, rfl⟩, ⟨u, w⟩, hw, _, ha, eq⟩
    cases eq
    exact ⟨i, u, w, hw, ha, rfl⟩
  · rintro ⟨i, u, w, hw, ha, rfl⟩
    exact ⟨_, ⟨i, k.parts_all i, rfl⟩, ⟨u, w⟩, hw, name, ha, rfl⟩

theorem mem_activities : t ∈ result.activities.keys ↔
    ∃ i u, u ∈ (operand i).net.transitions.keys ∧ u ∈ (operand i).activities.keys ∧
      t = n.transition (.inner i u) := by
  simp only [OrderedMap.mem_keys]
  constructor
  · rintro ⟨name, named⟩
    obtain ⟨i, u, w, hw, ha, rfl⟩ := h.activity?_eq_some.1 named
    exact ⟨i, u, ⟨w, hw⟩, ⟨name, ha⟩, rfl⟩
  · rintro ⟨i, u, ⟨w, hw⟩, ⟨name, ha⟩, rfl⟩
    exact ⟨name, h.activity?_eq_some.2 ⟨i, u, w, hw, ha, rfl⟩⟩

theorem mem_keys_places : p ∈ result.net.places.keys ↔ ∃ y ∈ known operand, n.place y = p := by
  rw [OrderedMap.mem_keys]
  constructor
  · rintro ⟨x, hx⟩
    rcases h.place?_eq_some.1 hx with ⟨i, q, w, hw, rfl, -⟩ | ⟨s, rfl, -⟩
    · exact ⟨.inner i q, OrderedMap.mem_keys_of_get? hw, rfl⟩
    · exact ⟨.spot s, trivial, rfl⟩
  · rintro ⟨y, hy, rfl⟩
    cases y with
    | inner i q =>
      obtain ⟨w, hw⟩ := OrderedMap.mem_keys.1 hy
      exact ⟨_, h.place?_eq_some.2 (.inl ⟨i, q, w, hw, rfl, rfl⟩)⟩
    | spot s => exact ⟨_, h.place?_eq_some.2 (.inr ⟨s, rfl, rfl⟩)⟩

theorem injOn_place : Set.InjOn n.place (known operand) := by
  let sites : List (Site I PlaceId S) :=
    k.parts.flatMap (fun i => (operand i).net.places.keys.map (.inner i)) ++ k.spots.map .spot
  have keys : result.net.places.keys = sites.map n.place := by
    rw [OrderedMap.keys, h.describes.places]
    simp only [sites, blueprint, Renaming.placeEntries, OrderedMap.keys, List.map_append,
      List.map_flatMap, List.flatMap_map, List.map_map]
    rfl
  refine OrderedMap.injOn_of_keys keys fun y hy => ?_
  cases y with
  | inner i p =>
    refine List.mem_append_left _ (List.mem_flatMap.2 ⟨i, k.parts_all i, ?_⟩)
    exact List.mem_map_of_mem hy
  | spot s => exact List.mem_append_right _ (List.mem_map_of_mem (k.spots_all s))

theorem mem_keys_transitions : t ∈ result.net.transitions.keys ↔
    ∃ y ∈ knownMoves operand, n.transition y = t := by
  rw [OrderedMap.mem_keys]
  constructor
  · rintro ⟨x, hx⟩
    rcases h.transition?_eq_some.1 hx with ⟨i, u, w, hw, rfl, -⟩ | ⟨r, rfl, -⟩
    · exact ⟨.inner i u, OrderedMap.mem_keys_of_get? hw, rfl⟩
    · exact ⟨.route r, trivial, rfl⟩
  · rintro ⟨y, hy, rfl⟩
    cases y with
    | inner i u =>
      obtain ⟨w, hw⟩ := OrderedMap.mem_keys.1 hy
      exact ⟨_, h.transition?_eq_some.2 (.inl ⟨i, u, w, hw, rfl, rfl⟩)⟩
    | route r => exact ⟨_, h.transition?_eq_some.2 (.inr ⟨r, rfl, rfl⟩)⟩

theorem injOn_transition : Set.InjOn n.transition (knownMoves operand) := by
  let moves : List (Action I TransitionId R) :=
    k.parts.flatMap (fun i => (operand i).net.transitions.keys.map (.inner i)) ++
      k.routes.map .route
  have keys : result.net.transitions.keys = moves.map n.transition := by
    rw [OrderedMap.keys, h.describes.transitions]
    simp only [moves, blueprint, Renaming.transitionEntries, OrderedMap.keys, List.map_append,
      List.map_flatMap, List.flatMap_map, List.map_map]
    rfl
  refine OrderedMap.injOn_of_keys keys fun y hy => ?_
  cases y with
  | inner i t =>
    refine List.mem_append_left _ (List.mem_flatMap.2 ⟨i, k.parts_all i, ?_⟩)
    exact List.mem_map_of_mem hy
  | route r => exact List.mem_append_right _ (List.mem_map_of_mem (k.routes_all r))

variable [DecidableEq I] [DecidableEq S] (wf : ∀ i, (operand i).WellFormed)

omit h [DecidableEq I] [DecidableEq S] in
theorem exists_mem_map_inner (n : Naming I S R) (i : I) (l : List PlaceId) (q : PlaceId) :
    (∃ y ∈ l.map (Site.inner i), n.place y = q) ↔ ∃ p ∈ l, (n.rename i).place p = q := by
  constructor
  · rintro ⟨_, hy, rfl⟩
    obtain ⟨p, hp, rfl⟩ := List.mem_map.1 hy
    exact ⟨p, hp, rfl⟩
  · rintro ⟨p, hp, rfl⟩
    exact ⟨_, List.mem_map_of_mem hp, rfl⟩

include wf

omit h [DecidableEq I] [DecidableEq S] in
theorem port_known (x : Port I S) : port operand x ∈ known operand := by
  cases x with
  | entry i => exact (wf i).ends.source_mem (wf i).net
  | exit i => exact (wf i).ends.sink_mem (wf i).net
  | spot s => trivial

omit [DecidableEq S] in
theorem carried_inner {i : I} {u : TransitionId} {w : Transition}
    (hw : (operand i).net.transition? u = some w) (t : TransitionId) :
    (w.move.within i : Move (Site I PlaceId S)).Carried n.place (known operand)
      ((n.rename i).copy t w).move := by
  classical
  have admits := (wf i).net.admits hw
  have within := Move.within_ofLists (S := S) i w.inputs.toList w.outputs.toList
  refine within ▸ Move.ofLists_carried h.injOn_place ?_ ?_ ?_ ?_
  · rintro _ hy
    obtain ⟨p, hp, rfl⟩ := List.mem_map.1 hy
    exact admits.inputs p hp
  · rintro _ hy
    obtain ⟨p, hp, rfl⟩ := List.mem_map.1 hy
    exact admits.outputs p hp
  · exact fun q => OrderedSet.mem_map.trans (exists_mem_map_inner n i _ q).symm
  · exact fun q => OrderedSet.mem_map.trans (exists_mem_map_inner n i _ q).symm

theorem carried_route (t : TransitionId) (inputs outputs : List (Port I S)) :
    (Move.ofLists (inputs.map (port operand)) (outputs.map (port operand))).Carried n.place
      (known operand) (Transition.routing t ((inputs.map (port operand)).map n.place)
        ((outputs.map (port operand)).map n.place)).move := by
  have ports : ∀ (xs : List (Port I S)), ∀ y ∈ xs.map (port operand), y ∈ known operand := by
    rintro xs _ hy
    obtain ⟨x, -, rfl⟩ := List.mem_map.1 hy
    exact port_known wf x
  refine Move.ofLists_carried h.injOn_place (ports inputs) (ports outputs) ?_ ?_
  · exact fun q => OrderedSet.mem_insertAll_empty.trans List.mem_map
  · exact fun q => OrderedSet.mem_insertAll_empty.trans List.mem_map

theorem copies : (k.refine (fun i => (operand i).net.game) (fun i => (operand i).source)
    fun i => (operand i).sink).Copies result.net.game n.place n.transition (known operand) := by
  refine ⟨h.injOn_place, fun a m ha => ?_, fun t m ht => ?_⟩
  · cases a with
    | inner i u =>
      obtain ⟨_, hm, rfl⟩ := Option.map_eq_some_iff.1 ha
      obtain ⟨w, hw, rfl⟩ := Option.map_eq_some_iff.1 hm
      have found := h.transition?_eq_some.2 (.inl ⟨i, u, w, hw, rfl, rfl⟩)
      exact ⟨_, Net.game_eq_some found, h.carried_inner wf hw _⟩
    | route r =>
      obtain rfl := Option.some.inj ha
      have found := h.transition?_eq_some.2 (.inr ⟨r, rfl, rfl⟩)
      exact ⟨_, Net.game_eq_some found, h.carried_route wf _ _ _⟩
  · obtain ⟨y, hy, rfl⟩ := Option.map_eq_some_iff.1 ht
    rcases h.transition?_eq_some.1 hy with ⟨i, u, w, hw, rfl, rfl⟩ | ⟨r, rfl, rfl⟩
    · refine ⟨.inner i u, w.move.within i, rfl, ?_, h.carried_inner wf hw _⟩
      rw [Skeleton.refine, Net.game_eq_some hw, Option.map_some]
    · exact ⟨.route r, _, rfl, rfl, h.carried_route wf _ _ _⟩

theorem hasEnds (ends : k.game.HasEnds k.source k.sink) :
    result.net.HasEnds result.source result.sink := by
  have inside := fun i => Net.game_hasEnds.2 (wf i).ends
  have refined := Skeleton.refine_hasEnds inside ends
  rw [← Net.game_hasEnds, h.source, h.sink]
  exact (h.copies wf).hasEnds (port_known wf _) (port_known wf _) refined

theorem sound (operands : ∀ i, (operand i).net.game.Sound (operand i).source (operand i).sink)
    (skeleton : k.game.Sound k.source k.sink) (framed : k.Framed) :
    result.net.game.Sound result.source result.sink := by
  have inside : ∀ i, Skeleton.Operand (operand i).net.game (operand i).source (operand i).sink :=
    fun i => ⟨operands i, Net.game_hasEnds.2 (wf i).ends⟩
  have refined := Skeleton.refine_sound skeleton framed inside
  rw [h.source, h.sink]
  exact (h.copies wf).sound (port_known wf _) (port_known wf _) refined

omit [DecidableEq I] [DecidableEq S] in
theorem net_wellFormed : result.net.WellFormed where
  place_id hx := by
    rcases h.place?_eq_some.1 hx with ⟨i, q, w, -, rfl, rfl⟩ | ⟨s, rfl, rfl⟩ <;> rfl
  transition_id hy := by
    rcases h.transition?_eq_some.1 hy with ⟨i, u, w, -, rfl, rfl⟩ | ⟨r, rfl, rfl⟩ <;> rfl
  variable_name hz := by
    obtain ⟨i, v, w, -, rfl, rfl⟩ := h.namedVariable?_eq_some.1 hz
    rfl
  admits hy := by
    rcases h.transition?_eq_some.1 hy with ⟨i, u, w, hw, rfl, rfl⟩ | ⟨r, rfl, rfl⟩
    · have admits := (wf i).net.admits hw
      refine ⟨fun q hq => ?_, fun q hq => ?_, fun name hn => ?_⟩
      · obtain ⟨p, hp, rfl⟩ := OrderedSet.mem_map.1 hq
        exact h.mem_keys_places.2 ⟨.inner i p, admits.inputs p hp, rfl⟩
      · obtain ⟨p, hp, rfl⟩ := OrderedSet.mem_map.1 hq
        exact h.mem_keys_places.2 ⟨.inner i p, admits.outputs p hp, rfl⟩
      · rw [Renaming.copy, Guard.reads_rename] at hn
        obtain ⟨v, hv, rfl⟩ := List.mem_map.1 hn
        obtain ⟨z, hz⟩ := OrderedMap.mem_keys.1 (admits.reads v hv)
        exact OrderedMap.mem_keys.2 ⟨_, h.namedVariable?_eq_some.2 ⟨i, v, z, hz, rfl, rfl⟩⟩
    · refine ⟨fun q hq => ?_, fun q hq => ?_, fun name hn => nomatch hn⟩
      · obtain ⟨y, hy, rfl⟩ := List.mem_map.1 (OrderedSet.mem_insertAll_empty.1 hq)
        obtain ⟨x, -, rfl⟩ := List.mem_map.1 hy
        exact h.mem_keys_places.2 ⟨_, port_known wf x, rfl⟩
      · obtain ⟨y, hy, rfl⟩ := List.mem_map.1 (OrderedSet.mem_insertAll_empty.1 hq)
        obtain ⟨x, -, rfl⟩ := List.mem_map.1 hy
        exact h.mem_keys_places.2 ⟨_, port_known wf x, rfl⟩
  valid hz hv := by
    obtain ⟨i, v, w, hw, rfl, rfl⟩ := h.namedVariable?_eq_some.1 hz
    exact Variable.validate_eq_ok.2 (Variable.validate_eq_ok.1 ((wf i).net.valid hw hv) :)

theorem wellFormed (ends : k.game.HasEnds k.source k.sink) : result.WellFormed where
  net := h.net_wellFormed wf
  ends := h.hasEnds wf ends
  labelled t y hy visible := by
    rcases h.transition?_eq_some.1 hy with ⟨i, u, w, hw, rfl, rfl⟩ | ⟨r, rfl, rfl⟩
    · have named := (wf i).labelled u w hw visible
      exact h.mem_activities.2 ⟨i, u, (wf i).known u named, named, rfl⟩
    · cases visible
  known t ht := by
    obtain ⟨i, u, hu, -, rfl⟩ := h.mem_activities.1 ht
    obtain ⟨w, hw⟩ := OrderedMap.mem_keys.1 hu
    exact OrderedMap.mem_keys_of_get? (h.transition?_eq_some.2 (.inl ⟨i, u, w, hw, rfl, rfl⟩))

end Assembles

end Naming

end ProcessNet
