import ProcessNet.Proofs.Pattern.Absorption
import ProcessNet.Proofs.Pattern.Isomorphism

/-!
The outline of a composition. What a skeleton puts together from patterns has, under the names that
were given on the way, the elements of the joined outlines and no others; tokens, arcs, guards and
names of activities are those of the operands, and what is added is empty, silent and unguarded. So
the outline of the result is the outlines of the operands, joined.
-/

namespace ProcessNet.Naming

variable {I S R : Type} {k : Skeleton I S R} {operand : I → Pattern} {result : Pattern}
  {n : Naming I S R}

abbrev joined (k : Skeleton I S R) (wf : ∀ i, (operand i).WellFormed) : Outline :=
  k.glue fun i => (wf i).outline

section Elements

variable (n : Naming I S R) (k : Skeleton I S R) (wf : ∀ i, (operand i).WellFormed)

def site : (joined k wf).Place → Site I PlaceId S :=
  Sum.elim (fun p => .inner p.1 p.2) .spot

def action : (joined k wf).Transition → Action I TransitionId R :=
  Sum.elim (fun t => .inner t.1 t.2) .route

def varName (v : (joined k wf).Variable) : String := (n.rename v.1).variableName v.2

theorem site_injective : Function.Injective (site k wf) := by
  rintro (⟨i, p, hp⟩ | s) (⟨j, q, hq⟩ | s') eq <;> cases eq <;> rfl

theorem action_injective : Function.Injective (action k wf) := by
  rintro (⟨i, t, ht⟩ | r) (⟨j, u, hu⟩ | r') eq <;> cases eq <;> rfl

theorem mem_known {y : Site I PlaceId S} : y ∈ known operand ↔ ∃ x, site k wf x = y := by
  constructor
  · intro hy
    cases y with
    | inner i p => exact ⟨.inl ⟨i, p, hy⟩, rfl⟩
    | spot s => exact ⟨.inr s, rfl⟩
  · rintro ⟨p | s, rfl⟩
    · exact p.2.2
    · trivial

theorem mem_knownMoves {y : Action I TransitionId R} :
    y ∈ knownMoves operand ↔ ∃ x, action k wf x = y := by
  constructor
  · intro hy
    cases y with
    | inner i t => exact ⟨.inl ⟨i, t, hy⟩, rfl⟩
    | route r => exact ⟨.inr r, rfl⟩
  · rintro ⟨t | r, rfl⟩
    · exact t.2.2
    · trivial

theorem site_joint (y : Port I S) : site k wf (Skeleton.joint _ y) = port operand y := by
  cases y <;> rfl

end Elements

namespace Assembles

variable (h : n.Assembles k operand result) (wf : ∀ i, (operand i).WellFormed)

include h

noncomputable def placeEquiv : (joined k wf).Place ≃ {p // p ∈ result.net.places.keys} :=
  namesEquiv (fun x => n.place (site k wf x))
    (fun x y eq => site_injective k wf
      (h.injOn_place ((mem_known k wf).2 ⟨x, rfl⟩) ((mem_known k wf).2 ⟨y, rfl⟩) eq))
    fun p => by
      rw [h.mem_keys_places]
      simp only [mem_known k wf, exists_exists_eq_and]

noncomputable def transitionEquiv :
    (joined k wf).Transition ≃ {t // t ∈ result.net.transitions.keys} :=
  namesEquiv (fun x => n.transition (action k wf x))
    (fun x y eq => action_injective k wf
      (h.injOn_transition ((mem_knownMoves k wf).2 ⟨x, rfl⟩) ((mem_knownMoves k wf).2 ⟨y, rfl⟩) eq))
    fun t => by
      rw [h.mem_keys_transitions]
      simp only [mem_knownMoves k wf, exists_exists_eq_and]

theorem varName_injective : Function.Injective (n.varName k wf) := by
  rintro ⟨i, v, hv⟩ ⟨j, w, hw⟩ eq
  have entries := h.describes.vars
  simp only [blueprint, List.flatMap_map, Renaming.variableEntries] at entries
  obtain ⟨rfl, rfl⟩ := OrderedMap.eq_of_entries (f := fun i => (n.rename i).variableName) entries
    (k.parts_all i) (k.parts_all j) hv hw eq
  rfl

theorem mem_keys_vars (name : String) :
    name ∈ result.net.vars.keys ↔ ∃ v, n.varName k wf v = name := by
  rw [OrderedMap.mem_keys]
  constructor
  · rintro ⟨z, hz⟩
    obtain ⟨i, v, w, hw, rfl, -⟩ := h.namedVariable?_eq_some.1 hz
    exact ⟨⟨i, v, OrderedMap.mem_keys_of_get? hw⟩, rfl⟩
  · rintro ⟨⟨i, v, hv⟩, rfl⟩
    obtain ⟨w, hw⟩ := OrderedMap.mem_keys.1 hv
    exact ⟨_, h.namedVariable?_eq_some.2 ⟨i, v, w, hw, rfl, rfl⟩⟩

noncomputable def varEquiv : (joined k wf).Variable ≃ {v // v ∈ result.net.vars.keys} :=
  namesEquiv (n.varName k wf) (h.varName_injective wf) (h.mem_keys_vars wf)

theorem valueAt_inner (i : I) (p : {p // p ∈ (operand i).net.places.keys}) :
    result.net.places.valueAt (h.placeEquiv wf (.inl ⟨i, p⟩)) =
      { (operand i).net.places.valueAt p with id := n.place (.inner i p) } :=
  OrderedMap.valueAt_eq (h.place?_eq_some.2
    (.inl ⟨i, p, _, OrderedMap.get?_valueAt _ p, rfl, rfl⟩))

theorem valueAt_spot (s : S) :
    result.net.places.valueAt (h.placeEquiv wf (.inr s)) = .blank (n.spot s) :=
  OrderedMap.valueAt_eq (h.place?_eq_some.2 (.inr ⟨s, rfl, rfl⟩))

theorem valueAt_var (i : I) (v : {v // v ∈ (operand i).net.vars.keys}) :
    result.net.vars.valueAt (h.varEquiv wf ⟨i, v⟩) =
      { (operand i).net.vars.valueAt v with name := (n.rename i).variableName v } :=
  OrderedMap.valueAt_eq (h.namedVariable?_eq_some.2
    ⟨i, v, _, OrderedMap.get?_valueAt _ v, rfl, rfl⟩)

theorem valueAt_copy (i : I) (t : {t // t ∈ (operand i).net.transitions.keys}) :
    result.net.transitions.valueAt (h.transitionEquiv wf (.inl ⟨i, t⟩)) =
      (n.rename i).copy (n.transition (.inner i t)) ((operand i).net.transitions.valueAt t) :=
  OrderedMap.valueAt_eq (h.transition?_eq_some.2
    (.inl ⟨i, t, _, OrderedMap.get?_valueAt _ t, rfl, rfl⟩))

theorem valueAt_routing (r : R) :
    result.net.transitions.valueAt (h.transitionEquiv wf (.inr r)) =
      .routing (n.route r) (((k.take r).map (port operand)).map n.place)
        (((k.put r).map (port operand)).map n.place) :=
  OrderedMap.valueAt_eq (h.transition?_eq_some.2 (.inr ⟨r, rfl, rfl⟩))

theorem activity?_copy (i : I) (t : {t // t ∈ (operand i).net.transitions.keys}) :
    result.activity? (n.transition (.inner i t)) = (operand i).activity? t := by
  refine Option.ext fun name => h.activity?_eq_some.trans ⟨?_, fun named => ?_⟩
  · rintro ⟨j, u, w, hw, named, eq⟩
    have hu : Action.inner (R := R) j u ∈ knownMoves operand := OrderedMap.mem_keys_of_get? hw
    cases h.injOn_transition (show Action.inner i t.1 ∈ knownMoves operand from t.2) hu eq
    exact named
  · exact ⟨i, t, _, OrderedMap.get?_valueAt _ t, named, rfl⟩

theorem activity?_routing (r : R) : result.activity? (n.transition (.route r)) = none := by
  refine Option.eq_none_iff_forall_ne_some.2 fun name named => ?_
  obtain ⟨j, u, w, hw, -, eq⟩ := h.activity?_eq_some.1 named
  have hu : Action.inner (R := R) j u ∈ knownMoves operand := OrderedMap.mem_keys_of_get? hw
  cases h.injOn_transition (show Action.route r ∈ knownMoves operand from trivial) hu eq

theorem within_copy (i : I) {x : OrderedSet PlaceId}
    (known : ∀ p ∈ x, p ∈ (operand i).net.places.keys) :
    result.net.within (x.map (n.rename i).place) =
      h.placeEquiv wf '' (Skeleton.inner _ i '' (operand i).net.within x) := by
  ext q
  constructor
  · intro hq
    obtain ⟨p, hp, eq⟩ := OrderedSet.mem_map.1 hq
    exact ⟨_, ⟨⟨p, known p hp⟩, hp, rfl⟩, Subtype.ext eq⟩
  · rintro ⟨_, ⟨p, hp, rfl⟩, rfl⟩
    exact OrderedSet.mem_map.2 ⟨p, hp, rfl⟩

theorem within_routing (ys : List (Port I S)) :
    result.net.within ((∅ : OrderedSet PlaceId).insertAll ((ys.map (port operand)).map n.place)) =
      h.placeEquiv wf '' (Skeleton.joint _ '' {y | y ∈ ys}) := by
  ext q
  refine OrderedSet.mem_insertAll_empty.trans ?_
  rw [List.map_map, List.mem_map]
  constructor
  · rintro ⟨y, hy, eq⟩
    exact ⟨_, ⟨y, hy, rfl⟩, Subtype.ext ((congrArg n.place (site_joint k wf y)).trans eq)⟩
  · rintro ⟨_, ⟨y, hy, rfl⟩, rfl⟩
    exact ⟨y, hy, (congrArg n.place (site_joint k wf y)).symm⟩

variable (hr : result.WellFormed)

noncomputable def outlineIso : (joined k wf).Iso hr.outline where
  place := h.placeEquiv wf
  transition := h.transitionEquiv wf
  var := h.varEquiv wf
  source := Subtype.ext (h.source.trans (congrArg n.place (site_joint k wf _).symm))
  sink := Subtype.ext (h.sink.trans (congrArg n.place (site_joint k wf _).symm))
  tokens := by
    rintro (⟨i, p⟩ | s)
    · exact (congrArg Place.tokens (h.valueAt_inner wf i p) :)
    · exact (congrArg Place.tokens (h.valueAt_spot wf s) :)
  visible := by
    rintro (⟨i, t⟩ | r)
    · exact (congrArg Transition.visible (h.valueAt_copy wf i t) :)
    · exact (congrArg Transition.visible (h.valueAt_routing wf r) :)
  activity := by
    rintro (⟨i, t⟩ | r)
    · exact h.activity?_copy i t
    · exact h.activity?_routing r
  guard := by
    rintro (⟨i, t⟩ | r) names
    · refine (congrArg (fun x : Transition => x.guard.rename _) (h.valueAt_copy wf i t)).trans ?_
      have reads := ((wf i).net.admits (OrderedMap.get?_valueAt _ t)).reads
      refine (Guard.rename_rename _ _ _).trans (Guard.rename_congr _ fun v hv => ?_)
      have hv := reads v hv
      exact (extend_coe names (h.varEquiv wf ⟨i, v, hv⟩)).trans
        (extend_coe (fun v => names (h.varEquiv wf ⟨i, v⟩)) ⟨v, hv⟩).symm
    · exact (congrArg (fun x : Transition => x.guard.rename _) (h.valueAt_routing wf r) :)
  inputs := by
    rintro (⟨i, t⟩ | r)
    · have admits := (wf i).net.admits (OrderedMap.get?_valueAt _ t)
      exact (congrArg (fun x : Transition => result.net.within x.inputs)
        (h.valueAt_copy wf i t)).trans (h.within_copy wf i admits.inputs)
    · exact (congrArg (fun x : Transition => result.net.within x.inputs)
        (h.valueAt_routing wf r)).trans (h.within_routing wf (k.take r))
  outputs := by
    rintro (⟨i, t⟩ | r)
    · have admits := (wf i).net.admits (OrderedMap.get?_valueAt _ t)
      exact (congrArg (fun x : Transition => result.net.within x.outputs)
        (h.valueAt_copy wf i t)).trans (h.within_copy wf i admits.outputs)
    · exact (congrArg (fun x : Transition => result.net.within x.outputs)
        (h.valueAt_routing wf r)).trans (h.within_routing wf (k.put r))
  declared := by
    rintro ⟨i, v⟩
    funext name
    exact (congrArg (fun z : Variable => { z with name := name }) (h.valueAt_var wf i v) :)

end Assembles

end ProcessNet.Naming
