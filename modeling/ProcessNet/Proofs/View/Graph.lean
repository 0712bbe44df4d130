import ProcessNet.Interchange.Description
import ProcessNet.View.Graph
import ProcessNet.Proofs.Pattern.Built

/-!
The graph of a net against its description. Both go through the transitions, inputs before outputs, but
the graph refers to nodes by position and leaves out what it has no position for. Every arc of a net
that is built ends at a place of it, so nothing is left out and the edges are the arcs, one by one and
in their order.
-/

namespace ProcessNet

theorem forall₂_filterMap {α β γ : Type} {R : β → γ → Prop} {f : α → Option β} {g : α → γ}
    {as : List α} (h : ∀ a ∈ as, ∃ b, f a = some b ∧ R b (g a)) :
    List.Forall₂ R (as.filterMap f) (as.map g) := by
  induction as with
  | nil => exact .nil
  | cons a rest ih =>
    obtain ⟨b, hb, related⟩ := h a List.mem_cons_self
    rw [List.filterMap_cons_some hb, List.map_cons]
    exact .cons related (ih fun c hc => h c (List.mem_cons_of_mem a hc))

theorem forall₂_flatMap_zipIdx {α β γ : Type} {R : β → γ → Prop} {f : α × ℕ → List β}
    {g : α → List γ} {xs : List α} {n : ℕ}
    (h : ∀ x i, xs[i]? = some x → List.Forall₂ R (f (x, n + i)) (g x)) :
    List.Forall₂ R ((xs.zipIdx n).flatMap f) (xs.flatMap g) := by
  induction xs generalizing n with
  | nil => exact .nil
  | cons x rest ih =>
    rw [List.zipIdx_cons, List.flatMap_cons, List.flatMap_cons]
    apply List.rel_append
    · exact h x 0 rfl
    · apply ih
      intro y i hy
      have later := h y (i + 1) hy
      rwa [← Nat.add_assoc, Nat.add_right_comm] at later

namespace Graph

variable {g : Graph} {places : List PlaceId} {p : PlaceId} {x : Transition} {i : ℕ}

def PlaceAt (g : Graph) (i : ℕ) (p : PlaceId) : Prop :=
  ∃ label tokens, g.nodes[i]? = some (.place p label tokens)

def TransitionAt (g : Graph) (i : ℕ) (t : TransitionId) : Prop :=
  ∃ label visible, g.nodes[i]? = some (.transition t label visible)

/-- The edge goes between the nodes of the place and the transition, as the tokens do. -/
def Draws (g : Graph) (edge : ℕ × ℕ) (a : Arc) : Prop :=
  match a.direction with
  | .placeToTransition => g.PlaceAt edge.1 a.place ∧ g.TransitionAt edge.2 a.transition
  | .transitionToPlace => g.TransitionAt edge.1 a.transition ∧ g.PlaceAt edge.2 a.place

theorem exists_position (known : p ∈ places) :
    ∃ i, (places.zipIdx.find? (·.1 = p)).map Prod.snd = some i ∧ places[i]? = some p := by
  cases found : places.zipIdx.find? (·.1 = p) with
  | none =>
    obtain ⟨i, hi⟩ := List.mem_iff_getElem?.1 known
    have listed : (p, i) ∈ places.zipIdx := List.mem_zipIdx_iff_getElem?.2 hi
    have missed := List.find?_eq_none.1 found (p, i) listed
    simp at missed
  | some e =>
    have here : e.1 = p := by simpa using List.find?_some found
    have listed := List.mem_zipIdx_iff_getElem?.1 (List.mem_of_find?_eq_some found)
    exact ⟨e.2, rfl, here ▸ listed⟩

theorem transitionEdges_draw (inputs : ∀ p ∈ x.inputs, p ∈ places)
    (outputs : ∀ p ∈ x.outputs, p ∈ places) (nodes : ∀ i p, places[i]? = some p → g.PlaceAt i p)
    (here : g.TransitionAt i x.id) :
    List.Forall₂ g.Draws (transitionEdges places x i) x.arcs := by
  unfold transitionEdges Transition.arcs
  apply List.rel_append
  · apply forall₂_filterMap
    intro p hp
    obtain ⟨j, found, at_j⟩ := exists_position (inputs p hp)
    exact ⟨(j, i), congrArg (Option.map (·, i)) found, nodes j p at_j, here⟩
  · apply forall₂_filterMap
    intro p hp
    obtain ⟨j, found, at_j⟩ := exists_position (outputs p hp)
    exact ⟨(i, j), congrArg (Option.map (i, ·)) found, here, nodes j p at_j⟩

end Graph

namespace Net

variable {net : Net} {i j : ℕ} {p : PlaceId} {t : TransitionId}

theorem placeAt_graph : net.graph.PlaceAt i p ↔ (net.places.values.map Place.id)[i]? = some p := by
  unfold Graph.PlaceAt graph
  by_cases before : i < net.places.values.length
  · rw [List.getElem?_append_left (by simpa using before), List.getElem?_map, List.getElem?_map]
    cases net.places.values[i]? <;> simp
  · rw [List.getElem?_append_right (by simpa using before), List.getElem?_map, List.getElem?_map,
      List.length_map, List.getElem?_eq_none (Nat.le_of_not_lt before)]
    cases net.transitions.values[i - net.places.values.length]? <;> simp

theorem transitionAt_graph : net.graph.TransitionAt i t ↔ net.places.values.length ≤ i ∧
    (net.transitions.values.map Transition.id)[i - net.places.values.length]? = some t := by
  unfold Graph.TransitionAt graph
  by_cases before : i < net.places.values.length
  · rw [List.getElem?_append_left (by simpa using before), List.getElem?_map]
    have places : ¬net.places.values.length ≤ i := Nat.not_le.2 before
    cases net.places.values[i]? <;> simp [places]
  · have behind := Nat.le_of_not_lt before
    rw [List.getElem?_append_right (by simpa using before), List.getElem?_map, List.getElem?_map,
      List.length_map]
    cases net.transitions.values[i - net.places.values.length]? <;> simp [behind]

theorem WellFormed.graph_draws (wf : net.WellFormed) :
    List.Forall₂ net.graph.Draws net.graph.edges net.describe.arcs := by
  apply forall₂_flatMap_zipIdx
  intro x i hx
  obtain ⟨t, ht⟩ := OrderedMap.mem_values.1 (List.mem_of_getElem? hx)
  have ids := wf.place_ids
  apply Graph.transitionEdges_draw
  · intro p hp
    rw [ids]
    exact (wf.admits ht).inputs p hp
  · intro p hp
    rw [ids]
    exact (wf.admits ht).outputs p hp
  · intro j p hj
    exact placeAt_graph.2 hj
  · refine transitionAt_graph.2 ⟨Nat.le_add_right _ i, ?_⟩
    rw [Nat.add_sub_cancel_left, List.getElem?_map, hx, Option.map_some]

theorem WellFormed.node_unique (wf : net.WellFormed) :
    (∀ p i j, net.graph.PlaceAt i p → net.graph.PlaceAt j p → i = j) ∧
      ∀ t i j, net.graph.TransitionAt i t → net.graph.TransitionAt j t → i = j := by
  have places : (net.places.values.map Place.id).Nodup := wf.place_ids ▸ net.places.nodup_keys
  have transitions : (net.transitions.values.map Transition.id).Nodup :=
    wf.transition_ids ▸ net.transitions.nodup_keys
  have once {α : Type} {l : List α} (nodup : l.Nodup) {a : α} {i j : ℕ} (hi : l[i]? = some a)
      (hj : l[j]? = some a) : i = j := by
    obtain ⟨bound, -⟩ := List.getElem?_eq_some_iff.1 hi
    exact (List.getElem?_inj bound nodup).1 (hi.trans hj.symm)
  constructor
  · intro p i j hi hj
    exact once places (placeAt_graph.1 hi) (placeAt_graph.1 hj)
  · intro t i j hi hj
    obtain ⟨behind_i, hi⟩ := transitionAt_graph.1 hi
    obtain ⟨behind_j, hj⟩ := transitionAt_graph.1 hj
    have same := once transitions hi hj
    omega

end Net

/-- The graph of a net that is built has a node for every place and then one for every transition, in
their orders and with what they show, and its edges are the arcs of the description one by one, each
between the node of its place and the node of its transition and directed as the arc is. -/
theorem Built.graph_enumerates {net : Net} (built : Built (.net net)) :
    net.graph.nodes = net.places.values.map (fun p => .place p.id p.label p.tokens) ++
      net.transitions.values.map (fun t => .transition t.id t.label t.visible) ∧
    (∀ p i j, net.graph.PlaceAt i p → net.graph.PlaceAt j p → i = j) ∧
    (∀ t i j, net.graph.TransitionAt i t → net.graph.TransitionAt j t → i = j) ∧
    net.graph.edges.length = net.describe.arcs.length ∧
    List.Forall₂ net.graph.Draws net.graph.edges net.describe.arcs ∧
    ∀ e ∈ net.graph.edges, ∃ p t, net.graph.PlaceAt e.1 p ∧ net.graph.TransitionAt e.2 t ∨
      net.graph.TransitionAt e.1 t ∧ net.graph.PlaceAt e.2 p := by
  have wf : net.WellFormed := built.wellFormed
  have draws := wf.graph_draws
  obtain ⟨place_once, transition_once⟩ := wf.node_unique
  refine ⟨rfl, place_once, transition_once, draws.length_eq, draws, fun e he => ?_⟩
  obtain ⟨k, hk, rfl⟩ := List.mem_iff_getElem.1 he
  have drawn := draws.get hk (draws.length_eq ▸ hk)
  unfold Graph.Draws at drawn
  split at drawn
  · exact ⟨_, _, .inl drawn⟩
  · exact ⟨_, _, .inr drawn⟩

def Net.looped : Net :=
  (endState (Work.prune.run.run (.start (Pattern.sequence .task (.repetition .task)).net))).net

theorem looped_graph_enumerates :
    Net.looped.graph.edges = [(0, 4), (4, 1), (1, 5), (5, 2), (2, 6), (6, 3), (2, 7), (7, 1)] ∧
      Net.looped.describe.arcs.length = 8 ∧
      List.Forall₂ Net.looped.graph.Draws Net.looped.graph.edges Net.looped.describe.arcs := by
  have composed : Built (.net (Pattern.sequence .task (.repetition .task)).net) :=
    .netOf (.sequence Pattern.built_task (.repetition Pattern.built_task))
  obtain ⟨-, -, -, count, draws, -⟩ := (composed.work .prune).graph_enumerates
  have edges : Net.looped.graph.edges =
      [(0, 4), (4, 1), (1, 5), (5, 2), (2, 6), (6, 3), (2, 7), (7, 1)] := by decide +kernel
  exact ⟨edges, count.symm.trans (congrArg List.length edges), draws⟩

end ProcessNet
