import ProcessNet.Net.Workflow
import ProcessNet.Proofs.Net.WellFormed

/-!
Additions to a net with names that are made fresh. A fresh name is not taken, so an addition appends
one entry and changes none; what is added refers only to places that are there, so additions keep
nets well-formed.
-/

namespace ProcessNet

namespace Net

def freshPlaceId (net : Net) (base : String) : PlaceId :=
  ⟨Name.fresh (net.places.keys.map PlaceId.name) base⟩

def freshTransitionId (net : Net) (base : String) : TransitionId :=
  ⟨Name.fresh (net.transitions.keys.map TransitionId.name) base⟩

theorem freshPlaceId_not_mem (net : Net) (base : String) :
    net.freshPlaceId base ∉ net.places.keys := fun h =>
  Name.fresh_not_mem _ _ (List.mem_map_of_mem (f := PlaceId.name) h)

theorem freshTransitionId_not_mem (net : Net) (base : String) :
    net.freshTransitionId base ∉ net.transitions.keys := fun h =>
  Name.fresh_not_mem _ _ (List.mem_map_of_mem (f := TransitionId.name) h)

end Net

def Transition.routing (id : TransitionId) (inputs outputs : List PlaceId) : Transition :=
  { Transition.silent id with
    inputs := (∅ : OrderedSet PlaceId).insertAll inputs
    outputs := (∅ : OrderedSet PlaceId).insertAll outputs }

theorem OrderedSet.mem_insertAll_empty {α : Type} [DecidableEq α] {as : List α} {a : α} :
    a ∈ (∅ : OrderedSet α).insertAll as ↔ a ∈ as :=
  OrderedSet.mem_ofList

namespace Growth

theorem run_freshPlace (base : String) (net : Net) :
    (freshPlace base).run net = (net.freshPlaceId base, { net with
      places := net.places.insert (net.freshPlaceId base) (.blank (net.freshPlaceId base)) }) :=
  rfl

theorem modify_insert {κ β : Type} [DecidableEq κ] (m : OrderedMap κ β) {k : κ} (v : β)
    (f : β → β) (absent : k ∉ m.keys) : (m.insert k v).modify k f = m.insert k (f v) := by
  refine OrderedMap.ext ?_
  rw [OrderedMap.entries_insert_of_not_mem absent]
  simp only [OrderedMap.modify, OrderedMap.mapValues, OrderedMap.entries_insert_of_not_mem absent,
    List.map_append, List.map_cons, List.map_nil, if_true]
  congr 1
  refine (List.map_congr_left fun e he => ?_).trans (List.map_id _)
  have : e.1 ≠ k := fun eq => absent (eq ▸ List.mem_map_of_mem he)
  simp [this]

theorem run_route (base : String) (inputs outputs : List PlaceId) (net : Net) :
    (route base inputs outputs).run net = (net.freshTransitionId base, { net with
      transitions := net.transitions.insert (net.freshTransitionId base)
        (.routing (net.freshTransitionId base) inputs outputs) }) := by
  refine Prod.ext rfl ?_
  have := modify_insert net.transitions (.silent (net.freshTransitionId base))
    (fun x => { x with
      inputs := x.inputs.insertAll inputs, outputs := x.outputs.insertAll outputs })
    (net.freshTransitionId_not_mem base)
  exact congrArg (fun m => { net with transitions := m }) this

variable {net : Net}

theorem freshPlace_keepsForm (wf : net.WellFormed) (base : String) :
    ((freshPlace base).run net).2.WellFormed :=
  wf.insertPlace (.blank (net.freshPlaceId base))

theorem mem_freshPlace (base : String) :
    ((freshPlace base).run net).1 ∈ ((freshPlace base).run net).2.places.keys := by
  rw [run_freshPlace, OrderedMap.keys_insert, if_neg (net.freshPlaceId_not_mem base)]
  exact List.mem_append_right _ List.mem_cons_self

theorem route_keepsForm (wf : net.WellFormed) (base : String) {inputs outputs : List PlaceId}
    (hi : ∀ p ∈ inputs, p ∈ net.places.keys) (ho : ∀ p ∈ outputs, p ∈ net.places.keys) :
    ((route base inputs outputs).run net).2.WellFormed := by
  rw [run_route]
  have known : net.Admits (.routing (net.freshTransitionId base) inputs outputs) := by
    refine ⟨fun p hp => hi p (OrderedSet.mem_insertAll_empty.1 hp),
      fun p hp => ho p (OrderedSet.mem_insertAll_empty.1 hp), fun name hn => ?_⟩
    cases hn
  exact wf.insertTransition known

theorem forM_route_keepsForm {base : PlaceId → String} {inputs outputs : PlaceId → List PlaceId}
    (ps : List PlaceId) (wf : net.WellFormed)
    (hi : ∀ p ∈ ps, ∀ q ∈ inputs p, q ∈ net.places.keys)
    (ho : ∀ p ∈ ps, ∀ q ∈ outputs p, q ∈ net.places.keys) :
    ((ps.forM fun p => discard (route (base p) (inputs p) (outputs p))).run net).2.WellFormed := by
  induction ps generalizing net with
  | nil => exact wf
  | cons p rest ih =>
    have step := route_keepsForm wf (base p) (hi p List.mem_cons_self) (ho p List.mem_cons_self)
    exact ih step (fun q hq => hi q (List.mem_cons_of_mem p hq))
      fun q hq => ho q (List.mem_cons_of_mem p hq)

theorem places_forM_route {base : PlaceId → String} {inputs outputs : PlaceId → List PlaceId}
    (ps : List PlaceId) :
    ((ps.forM fun p => discard (route (base p) (inputs p) (outputs p))).run net).2.places =
      net.places := by
  induction ps generalizing net with
  | nil => rfl
  | cons p rest ih => exact ih

theorem places_newSource (old : OrderedSet PlaceId) :
    ((newSource old).run net).2.places =
      net.places.insert (net.freshPlaceId (joined old.toList))
        (.blank (net.freshPlaceId (joined old.toList))) :=
  places_forM_route old.toList

theorem newSource_keepsForm (wf : net.WellFormed) {old : OrderedSet PlaceId}
    (known : ∀ p ∈ old, p ∈ net.places.keys) : ((newSource old).run net).2.WellFormed := by
  have grown := Net.keys_insert_subset net.places (net.freshPlaceId (joined old.toList))
    (.blank (net.freshPlaceId (joined old.toList)))
  refine forM_route_keepsForm old.toList (freshPlace_keepsForm wf (joined old.toList))
    (fun p _ q hq => ?_) fun p hp q hq => ?_
  · rw [List.mem_singleton.1 hq]
    exact mem_freshPlace (joined old.toList)
  · rw [List.mem_singleton.1 hq]
    exact grown (known p hp)

theorem newSink_keepsForm (wf : net.WellFormed) {old : OrderedSet PlaceId}
    (known : ∀ p ∈ old, p ∈ net.places.keys) : ((newSink old).run net).2.WellFormed := by
  have grown := Net.keys_insert_subset net.places (net.freshPlaceId (joined old.toList))
    (.blank (net.freshPlaceId (joined old.toList)))
  refine forM_route_keepsForm old.toList (freshPlace_keepsForm wf (joined old.toList))
    (fun p hp q hq => ?_) fun p _ q hq => ?_
  · rw [List.mem_singleton.1 hq]
    exact grown (known p hp)
  · rw [List.mem_singleton.1 hq]
    exact mem_freshPlace (joined old.toList)

end Growth

end ProcessNet
