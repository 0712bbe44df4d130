import ProcessNet.Pattern.Algebra
import ProcessNet.Proofs.Net.Growth

/-!
What a composition consists of. A blueprint lists the operands with the renamings of their copies,
the places that were added and the silent transitions that were added; a composition answers to it
when its entries are those of the copies and of the additions, one after the other and nothing else.
Since the keys of a net are free of repetitions, this alone says that the copies are disjoint and the
renamings injective. Absorbing an operand appends one part, and adding a place or a transition
appends one element.
-/

namespace ProcessNet

namespace Renaming

def placeEntries (r : Renaming) (net : Net) : List (PlaceId × Place) :=
  net.places.entries.map fun e => (r.place e.1, { e.2 with id := r.place e.1 })

def variableEntries (r : Renaming) (net : Net) : List (String × Variable) :=
  net.vars.entries.map fun e => (r.variableName e.1, { e.2 with name := r.variableName e.1 })

def transitionEntries (r : Renaming) (net : Net) : List (TransitionId × Transition) :=
  net.transitions.entries.map fun e => (r.transition e.1, r.copy (r.transition e.1) e.2)

def activityEntries (r : Renaming) (operand : Pattern) : List (TransitionId × String) :=
  operand.net.transitions.entries.flatMap fun e =>
    ((operand.activity? e.1).map fun name => (r.transition e.1, name)).toList

end Renaming

structure Blueprint where
  parts : List (Pattern × Renaming)
  places : List PlaceId
  routes : List (TransitionId × List PlaceId × List PlaceId)

/-- The composition has the entries that the blueprint lists and no others. -/
structure Blueprint.Describes (b : Blueprint) (c : Composition) : Prop where
  places : c.net.places.entries =
    b.parts.flatMap (fun q => q.2.placeEntries q.1.net) ++ b.places.map fun p => (p, .blank p)
  transitions : c.net.transitions.entries =
    b.parts.flatMap (fun q => q.2.transitionEntries q.1.net) ++
      b.routes.map fun r => (r.1, .routing r.1 r.2.1 r.2.2)
  vars : c.net.vars.entries = b.parts.flatMap fun q => q.2.variableEntries q.1.net
  activities : c.activities.entries = b.parts.flatMap fun q => q.2.activityEntries q.1

namespace Blueprint

def ofParts (parts : List (Pattern × Renaming)) : Blueprint := ⟨parts, [], []⟩

def withPlace (b : Blueprint) (p : PlaceId) : Blueprint := { b with places := b.places ++ [p] }

def withRoute (b : Blueprint) (t : TransitionId) (inputs outputs : List PlaceId) : Blueprint :=
  { b with routes := b.routes ++ [(t, inputs, outputs)] }

theorem describes_empty : (ofParts []).Describes ⟨∅, ∅⟩ := ⟨rfl, rfl, rfl, rfl⟩

end Blueprint

section Renaming

variable {σ ι X E : Type} [DecidableEq ι]

theorem run_foldlM {β X : Type} (f : β → X → StateM σ β) (xs : List X) (b : β) (s : σ) :
    (xs.foldlM f b).run s = xs.foldl (fun a x => (f a.1 x).run a.2) (b, s) := by
  induction xs generalizing b s with
  | nil => rfl
  | cons x rest ih =>
    rw [List.foldlM_cons, List.foldl_cons]
    exact ih _ _

theorem foldl_renames (key : X → ι) (add : σ → X → ι × σ) (valid : σ → Prop)
    (keep : ∀ s x, valid s → valid (add s x).2) (view : σ → List E) (image : ι → X → List E)
    (grow : ∀ s x, valid s → view (add s x).2 = view s ++ image (add s x).1 x)
    (xs : List X) (nodup : (xs.map key).Nodup) (m : OrderedMap ι ι) (s : σ) (hs : valid s) :
    let r := xs.foldl (fun a x => (a.1.insert (key x) (add a.2 x).1, (add a.2 x).2)) (m, s)
    valid r.2 ∧ (∀ k ∉ xs.map key, r.1.get? k = m.get? k) ∧
      view r.2 = view s ++ xs.flatMap fun x => image ((r.1.get? (key x)).getD (key x)) x := by
  induction xs generalizing m s with
  | nil => simpa using hs
  | cons x rest ih =>
    obtain ⟨absent, nodup⟩ := List.nodup_cons.1 nodup
    obtain ⟨last, others, shown⟩ := ih nodup (m.insert (key x) (add s x).1) (add s x).2
      (keep s x hs)
    refine ⟨last, fun k hk => ?_, ?_⟩
    · rw [List.map_cons, List.mem_cons, not_or] at hk
      rw [List.foldl_cons, others k hk.2, OrderedMap.get?_insert, if_neg hk.1]
    · rw [List.flatMap_cons, List.foldl_cons, shown, grow s x hs, List.append_assoc]
      have found := others (key x) absent
      rw [OrderedMap.get?_insert, if_pos rfl] at found
      rw [found, Option.getD_some]

end Renaming

theorem flatMap_values {κ β γ : Type} (m : OrderedMap κ β) {key : β → κ}
    (h : ∀ e ∈ m.entries, key e.2 = e.1) (f : κ → β → List γ) :
    m.values.flatMap (fun v => f (key v) v) = m.entries.flatMap fun e => f e.1 e.2 := by
  rw [OrderedMap.values, List.flatMap_map]
  exact List.flatMap_congr fun e he => by rw [h e he]

theorem map_key_values {κ β : Type} (m : OrderedMap κ β) {key : β → κ}
    (h : ∀ e ∈ m.entries, key e.2 = e.1) : m.values.map key = m.keys := by
  rw [OrderedMap.values, OrderedMap.keys, List.map_map]
  exact List.map_congr_left h

theorem Net.WellFormed.place_ids {net : Net} (wf : net.WellFormed) :
    net.places.values.map Place.id = net.places.keys :=
  map_key_values _ fun _ he => wf.place_id (OrderedMap.get?_eq_some.2 he)

theorem Net.WellFormed.transition_ids {net : Net} (wf : net.WellFormed) :
    net.transitions.values.map Transition.id = net.transitions.keys :=
  map_key_values _ fun _ he => wf.transition_id (OrderedMap.get?_eq_some.2 he)

theorem Net.WellFormed.variable_names {net : Net} (wf : net.WellFormed) :
    net.vars.values.map Variable.name = net.vars.keys :=
  map_key_values _ fun _ he => wf.variable_name (OrderedMap.get?_eq_some.2 he)

namespace Growth

def addCopy (net : Net) (p : Place) : PlaceId × Net :=
  let id := net.freshPlaceId p.id.name
  (id, { net with places := net.places.insert id { p with id := id } })

theorem run_copyPlaces (ps : List Place) (net : Net) :
    (copyPlaces ps).run net =
      ps.foldl (fun a p => (a.1.insert p.id (addCopy a.2 p).1, (addCopy a.2 p).2)) (∅, net) := by
  rw [copyPlaces, run_foldlM]
  rfl

theorem run_copyVariables (xs : List Variable) (net : Net) :
    (copyVariables xs).run net =
      xs.foldl (fun a x => (a.1.insert x.name ((freshVariable x).run a.2).1,
        ((freshVariable x).run a.2).2)) (∅, net) := by
  rw [copyVariables, run_foldlM]
  rfl

variable {operand : Net} (wf : operand.WellFormed) (net : Net)

include wf

theorem copyPlaces_grows :
    let r := (copyPlaces operand.places.values).run net
    (r.2.transitions = net.transitions ∧ r.2.vars = net.vars) ∧
      r.2.places.entries = net.places.entries ++ operand.places.entries.map fun e =>
        ((r.1.get? e.1).getD e.1, { e.2 with id := (r.1.get? e.1).getD e.1 }) := by
  have ids : ∀ e ∈ operand.places.entries, e.2.id = e.1 := fun e he =>
    wf.place_id (OrderedMap.get?_eq_some.2 he)
  have nodup : (operand.places.values.map Place.id).Nodup :=
    wf.place_ids ▸ operand.places.nodup_keys
  obtain ⟨kept, -, shown⟩ := foldl_renames Place.id addCopy
    (fun n => n.transitions = net.transitions ∧ n.vars = net.vars) (fun _ _ h => h)
    (fun n => n.places.entries) (fun id p => [(id, { p with id := id })])
    (fun s p _ => OrderedMap.entries_insert_of_not_mem (s.freshPlaceId_not_mem _))
    operand.places.values nodup ∅ net ⟨rfl, rfl⟩
  rw [run_copyPlaces]
  intro r
  refine ⟨kept, shown.trans (congrArg _ ?_)⟩
  rw [List.map_eq_flatMap]
  exact flatMap_values operand.places ids fun k p =>
    [((r.1.get? k).getD k, { p with id := (r.1.get? k).getD k })]

theorem copyVariables_grows :
    let r := (copyVariables operand.vars.values).run net
    (r.2.places = net.places ∧ r.2.transitions = net.transitions) ∧
      r.2.vars.entries = net.vars.entries ++ operand.vars.entries.map fun e =>
        ((r.1.get? e.1).getD e.1, { e.2 with name := (r.1.get? e.1).getD e.1 }) := by
  have names : ∀ e ∈ operand.vars.entries, e.2.name = e.1 := fun e he =>
    wf.variable_name (OrderedMap.get?_eq_some.2 he)
  have nodup : (operand.vars.values.map Variable.name).Nodup :=
    wf.variable_names ▸ operand.vars.nodup_keys
  obtain ⟨kept, -, shown⟩ := foldl_renames Variable.name (fun n x => (freshVariable x).run n)
    (fun n => n.places = net.places ∧ n.transitions = net.transitions) (fun _ _ h => h)
    (fun n => n.vars.entries) (fun name x => [(name, { x with name := name })])
    (fun s x _ => OrderedMap.entries_insert_of_not_mem (Name.fresh_not_mem _ _))
    operand.vars.values nodup ∅ net ⟨rfl, rfl⟩
  rw [run_copyVariables]
  intro r
  refine ⟨kept, shown.trans (congrArg _ ?_)⟩
  rw [List.map_eq_flatMap]
  exact flatMap_values operand.vars names fun k x =>
    [((r.1.get? k).getD k, { x with name := (r.1.get? k).getD k })]

end Growth

namespace Compose

def addCopy (operand : Pattern) (r : Renaming) (c : Composition) (x : Transition) :
    TransitionId × Composition :=
  let id := c.net.freshTransitionId x.id.name
  let activities := match operand.activity? x.id with
    | some name => c.activities.insert id name
    | none => c.activities
  (id, ⟨{ c.net with transitions := c.net.transitions.insert id (r.copy id x) }, activities⟩)

theorem run_foldlM_copyTransition (operand : Pattern) (r : Renaming) (xs : List Transition)
    (m : OrderedMap TransitionId TransitionId) (c : Composition) :
    (xs.foldlM (copyTransition operand) { r with transitions := m }).run c =
      let a := xs.foldl (fun a x => (a.1.insert x.id (addCopy operand r a.2 x).1,
        (addCopy operand r a.2 x).2)) (m, c)
      ({ r with transitions := a.1 }, a.2) := by
  induction xs generalizing m c with
  | nil => rfl
  | cons x rest ih =>
    have step : (copyTransition operand { r with transitions := m } x).run c =
        ({ r with transitions := m.insert x.id (addCopy operand r c x).1 },
          (addCopy operand r c x).2) := by
      rw [copyTransition, addCopy]
      rcases operand.activity? x.id with _ | name <;> rfl
    rw [List.foldlM_cons, StateT.run_bind, step, List.foldl_cons]
    exact ih _ _

/-- Every activity name belongs to a transition, so that new transitions have none yet. -/
def NamesKnown (c : Composition) : Prop := ∀ t ∈ c.activities.keys, t ∈ c.net.transitions.keys

theorem addCopy_namesKnown {operand : Pattern} {r : Renaming} {c : Composition} {x : Transition}
    (h : NamesKnown c) : NamesKnown (addCopy operand r c x).2 := by
  have grown := Net.keys_insert_subset c.net.transitions (c.net.freshTransitionId x.id.name)
    (r.copy (c.net.freshTransitionId x.id.name) x)
  intro t ht
  simp only [addCopy] at ht ⊢
  rcases hn : operand.activity? x.id with _ | name <;> rw [hn] at ht
  · exact grown (h t ht)
  · obtain ⟨a, ha⟩ := OrderedMap.mem_keys.1 ht
    rw [OrderedMap.get?_insert] at ha
    split at ha
    · next eq =>
      rw [eq]
      exact OrderedMap.mem_keys.2 ⟨_, by rw [OrderedMap.get?_insert, if_pos rfl]⟩
    · exact grown (h t (OrderedMap.mem_keys_of_get? ha))

theorem activities_addCopy {operand : Pattern} {r : Renaming} {c : Composition} {x : Transition}
    (h : NamesKnown c) : (addCopy operand r c x).2.activities.entries = c.activities.entries ++
      ((operand.activity? x.id).map fun name => ((addCopy operand r c x).1, name)).toList := by
  have absent : c.net.freshTransitionId x.id.name ∉ c.activities.keys := fun mem =>
    c.net.freshTransitionId_not_mem _ (h _ mem)
  simp only [addCopy]
  rcases operand.activity? x.id with _ | name
  · simp
  · exact OrderedMap.entries_insert_of_not_mem absent

theorem copyTransitions_grows {operand : Pattern} (wf : operand.net.WellFormed) (r : Renaming)
    {c : Composition} (known : NamesKnown c) :
    let a := (operand.net.transitions.values.foldlM (copyTransition operand)
      { r with transitions := ∅ }).run c
    a.1.places = r.places ∧ a.1.vars = r.vars ∧
      (a.2.net.places = c.net.places ∧ a.2.net.vars = c.net.vars) ∧
      a.2.net.transitions.entries =
        c.net.transitions.entries ++ a.1.transitionEntries operand.net ∧
      a.2.activities.entries = c.activities.entries ++ a.1.activityEntries operand := by
  have ids : ∀ e ∈ operand.net.transitions.entries, e.2.id = e.1 := fun e he =>
    wf.transition_id (OrderedMap.get?_eq_some.2 he)
  have nodup : (operand.net.transitions.values.map Transition.id).Nodup :=
    wf.transition_ids ▸ operand.net.transitions.nodup_keys
  obtain ⟨⟨places, vars, -⟩, -, shown⟩ := foldl_renames Transition.id (addCopy operand r)
    (fun d => d.net.places = c.net.places ∧ d.net.vars = c.net.vars ∧ NamesKnown d)
    (fun _ _ h => ⟨h.1, h.2.1, addCopy_namesKnown h.2.2⟩)
    (fun d => d.net.transitions.entries) (fun id x => [(id, r.copy id x)])
    (fun d x _ => OrderedMap.entries_insert_of_not_mem (d.net.freshTransitionId_not_mem _))
    operand.net.transitions.values nodup ∅ c ⟨rfl, rfl, known⟩
  obtain ⟨-, -, named⟩ := foldl_renames Transition.id (addCopy operand r)
    NamesKnown (fun _ _ h => addCopy_namesKnown h) (fun d => d.activities.entries)
    (fun id x => ((operand.activity? x.id).map fun name => (id, name)).toList)
    (fun _ _ h => activities_addCopy h) operand.net.transitions.values nodup ∅ c known
  rw [run_foldlM_copyTransition]
  intro a
  refine ⟨rfl, rfl, ⟨places, vars⟩, shown.trans (congrArg _ ?_), named.trans (congrArg _ ?_)⟩
  · rw [Renaming.transitionEntries, List.map_eq_flatMap]
    exact flatMap_values operand.net.transitions ids fun t x =>
      [(a.1.transition t, a.1.copy (a.1.transition t) x)]
  · exact flatMap_values operand.net.transitions ids fun t _ =>
      ((operand.activity? t).map fun name => (a.1.transition t, name)).toList

end Compose

theorem Blueprint.Describes.unique {b : Blueprint} {c d : Composition} (hc : b.Describes c)
    (hd : b.Describes d) : c = d := by
  obtain ⟨⟨places, transitions, vars⟩, activities⟩ := c
  obtain ⟨⟨places', transitions', vars'⟩, activities'⟩ := d
  obtain rfl : places = places' := OrderedMap.ext (hc.places.trans hd.places.symm)
  obtain rfl : transitions = transitions' :=
    OrderedMap.ext (hc.transitions.trans hd.transitions.symm)
  obtain rfl : vars = vars' := OrderedMap.ext (hc.vars.trans hd.vars.symm)
  obtain rfl : activities = activities' := OrderedMap.ext (hc.activities.trans hd.activities.symm)
  rfl

theorem Blueprint.Describes.namesKnown {parts : List (Pattern × Renaming)} {c : Composition}
    (h : (Blueprint.ofParts parts).Describes c) : Compose.NamesKnown c := by
  intro t ht
  rw [OrderedMap.keys, h.activities] at ht
  rw [OrderedMap.keys, h.transitions]
  simp only [List.mem_map, List.mem_flatMap, Prod.exists, exists_and_right, exists_eq_right,
    Renaming.activityEntries, Option.mem_toList, Option.map_eq_some_iff, Prod.mk.injEq] at ht
  obtain ⟨name, A, r, mem, k, ⟨x, hx⟩, _, -, rfl, -⟩ := ht
  refine List.mem_map.2 ⟨_, List.mem_append_left _ (List.mem_flatMap.2 ⟨(A, r), mem,
    List.mem_map.2 ⟨(k, x), hx, rfl⟩⟩), rfl⟩

namespace Compose

/-- Absorbing a well-formed operand appends a copy of it. -/
theorem absorb_describes {operand : Pattern} (wf : operand.net.WellFormed)
    {parts : List (Pattern × Renaming)} {c : Composition}
    (h : (Blueprint.ofParts parts).Describes c) :
    let a := (absorb operand).run c
    (Blueprint.ofParts (parts ++ [(operand, a.1)])).Describes a.2 := by
  let p := (Growth.copyPlaces operand.net.places.values).run c.net
  let v := (Growth.copyVariables operand.net.vars.values).run p.2
  obtain ⟨⟨pt, pv⟩, places⟩ := Growth.copyPlaces_grows wf c.net
  obtain ⟨⟨vp, vt⟩, vars⟩ := Growth.copyVariables_grows wf p.2
  have known : NamesKnown { c with net := v.2 } := by
    intro t ht
    have := h.namesKnown t ht
    rwa [← pt, ← vt] at this
  obtain ⟨rp, rv, ⟨tp, tv⟩, transitions, activities⟩ :=
    copyTransitions_grows wf ⟨p.1, v.1, ∅⟩ known
  have run : (absorb operand).run c = (operand.net.transitions.values.foldlM
      (copyTransition operand) ⟨p.1, v.1, ∅⟩).run { c with net := v.2 } := rfl
  intro a
  have ha : a = (operand.net.transitions.values.foldlM
      (copyTransition operand) ⟨p.1, v.1, ∅⟩).run { c with net := v.2 } := run
  rw [← ha] at rp rv tp tv transitions activities
  have hp : a.2.net.places.entries = c.net.places.entries ++ a.1.placeEntries operand.net := by
    rw [tp]
    refine (congrArg OrderedMap.entries vp).trans (places.trans ?_)
    simp only [Renaming.placeEntries, Renaming.place, rp]
    rfl
  have hv : a.2.net.vars.entries = c.net.vars.entries ++ a.1.variableEntries operand.net := by
    rw [tv]
    refine vars.trans ?_
    simp only [Renaming.variableEntries, Renaming.variableName, rv]
    exact congrArg (· ++ _) (congrArg OrderedMap.entries pv)
  have ht : a.2.net.transitions.entries =
      c.net.transitions.entries ++ a.1.transitionEntries operand.net := by
    rw [transitions]
    exact congrArg (· ++ _) (congrArg OrderedMap.entries (vt.trans pt))
  have parts_only := h.places
  have routes_none := h.transitions
  simp only [Blueprint.ofParts, List.map_nil, List.append_nil] at parts_only routes_none
  refine ⟨?_, ?_, ?_, ?_⟩ <;> simp only [Blueprint.ofParts, List.flatMap_append,
    List.flatMap_singleton, List.map_nil, List.append_nil]
  · rw [hp, parts_only]
  · rw [ht, routes_none]
  · rw [hv, h.vars]
    rfl
  · rw [activities, h.activities]
    rfl

/-- From a composition that answers to a blueprint the work leads to one that answers to another, which
is related to the answer. -/
def Yields {α : Type} (work : Compose α) (b : Blueprint) (post : α → Blueprint → Prop) : Prop :=
  ∀ c, b.Describes c → ∃ b', post (work.run c).1 b' ∧ b'.Describes (work.run c).2

variable {α β : Type} {b : Blueprint}

theorem Yields.bind {work : Compose α} {next : α → Compose β} {mid : α → Blueprint → Prop}
    {post : β → Blueprint → Prop} (first : Yields work b mid)
    (rest : ∀ a b', mid a b' → Yields (next a) b' post) : Yields (work >>= next) b post := by
  intro c h
  obtain ⟨b', hm, h'⟩ := first c h
  exact rest _ b' hm _ h'

theorem Yields.pure {post : α → Blueprint → Prop} {a : α} (h : post a b) :
    Yields (pure a : Compose α) b post :=
  fun _ described => ⟨b, h, described⟩

theorem Yields.mono {work : Compose α} {post post' : α → Blueprint → Prop}
    (imp : ∀ a b', post a b' → post' a b') (h : Yields work b post) : Yields work b post' := by
  intro c described
  obtain ⟨b', hp, h'⟩ := h c described
  exact ⟨b', imp _ _ hp, h'⟩

theorem yields_absorbEnds_run {operand : Pattern} (wf : operand.net.WellFormed)
    {parts : List (Pattern × Renaming)} {c : Composition} (h : (Blueprint.ofParts parts).Describes c) :
    Yields (absorbEnds operand) (.ofParts parts) fun ends b' =>
      ends = (((absorb operand).run c).1.place operand.source,
        ((absorb operand).run c).1.place operand.sink) ∧
        b' = .ofParts (parts ++ [(operand, ((absorb operand).run c).1)]) := by
  intro d hd
  obtain rfl := h.unique hd
  exact ⟨_, ⟨rfl, rfl⟩, absorb_describes wf h⟩

theorem yields_absorbEnds {operand : Pattern} (wf : operand.net.WellFormed)
    (parts : List (Pattern × Renaming)) :
    Yields (absorbEnds operand) (.ofParts parts) fun ends b' => ∃ r : Renaming,
      ends = (r.place operand.source, r.place operand.sink) ∧
        b' = .ofParts (parts ++ [(operand, r)]) :=
  fun c h => ⟨_, ⟨((absorb operand).run c).1, rfl, rfl⟩, absorb_describes wf h⟩

theorem yields_place (base : String) :
    Yields (place base) b fun p b' => b' = b.withPlace p := by
  intro c h
  refine ⟨_, rfl, ?_, h.transitions, h.vars, h.activities⟩
  have grown := OrderedMap.entries_insert_of_not_mem (c.net.freshPlaceId_not_mem base)
    (v := Place.blank (c.net.freshPlaceId base))
  refine grown.trans ?_
  rw [h.places, List.append_assoc]
  simp only [Blueprint.withPlace, List.map_append]
  rfl

theorem yields_route (base : String) (inputs outputs : List PlaceId) :
    Yields (route base inputs outputs) b fun _ b' =>
      ∃ t, b' = b.withRoute t inputs outputs := by
  intro c h
  have run := Growth.run_route base inputs outputs c.net
  refine ⟨_, ⟨c.net.freshTransitionId base, rfl⟩, ?_⟩
  have grown := OrderedMap.entries_insert_of_not_mem (c.net.freshTransitionId_not_mem base)
    (v := Transition.routing (c.net.freshTransitionId base) inputs outputs)
  have net : ((route base inputs outputs).run c).2.net =
      ((Growth.route base inputs outputs).run c.net).2 := rfl
  refine ⟨?_, ?_, ?_, h.activities⟩
  · rw [net, run]
    exact h.places
  · rw [net, run]
    refine grown.trans ?_
    rw [h.transitions, List.append_assoc]
    simp only [Blueprint.withRoute, List.map_append]
    rfl
  · rw [net, run]
    exact h.vars

theorem yields_forM_route (base : PlaceId → String) (inputs outputs : PlaceId → List PlaceId)
    (ps : List PlaceId) : Yields (ps.forM fun p => route (base p) (inputs p) (outputs p)) b
      fun _ b' => ∃ ts : List TransitionId, ts.length = ps.length ∧ b' = { b with
        routes := b.routes ++ (ts.zip ps).map fun e => (e.1, inputs e.2, outputs e.2) } := by
  induction ps generalizing b with
  | nil => exact .pure ⟨[], rfl, by simp⟩
  | cons p rest ih =>
    refine (yields_route _ _ _).bind ?_
    rintro _ _ ⟨t, rfl⟩
    refine ih.mono ?_
    rintro _ _ ⟨ts, length, rfl⟩
    refine ⟨t :: ts, congrArg (· + 1) length, ?_⟩
    simp [Blueprint.withRoute]

theorem grow_bind (work : Growth α) (next : α → Growth β) :
    grow (work >>= next) = grow work >>= fun a => grow (next a) := rfl

theorem grow_forM_route (base : PlaceId → String) (inputs outputs : PlaceId → List PlaceId)
    (ps : List PlaceId) :
    grow (ps.forM fun p => discard (Growth.route (base p) (inputs p) (outputs p))) =
      ps.forM fun p => route (base p) (inputs p) (outputs p) := by
  induction ps with
  | nil => rfl
  | cons p rest ih =>
    refine (grow_bind _ _).trans ?_
    exact congrArg (route (base p) (inputs p) (outputs p) >>= ·) (funext fun _ => ih)

theorem yields_newSink {ends : List PlaceId} (nodup : ends.Nodup) :
    Yields (grow (Growth.newSink (.ofList ends))) b fun sink b' => ∃ ts : List TransitionId,
      ts.length = ends.length ∧ b' = { b.withPlace sink with
        routes := b.routes ++ (ts.zip ends).map fun e => (e.1, [e.2], [sink]) } := by
  have parts : grow (Growth.newSink (.ofList ends)) = place (Growth.joined ends) >>= fun sink =>
      (ends.forM fun p => route p.name [p] [sink]) >>= fun _ => Pure.pure sink := by
    rw [Growth.newSink, OrderedSet.toList_ofList nodup, grow_bind]
    refine congrArg (place (Growth.joined ends) >>= ·) (funext fun sink => ?_)
    rw [grow_bind, grow_forM_route PlaceId.name (fun p => [p]) fun _ => [sink]]
    rfl
  rw [parts]
  refine (yields_place _).bind ?_
  rintro sink _ rfl
  refine (yields_forM_route _ _ _ ends).bind ?_
  rintro _ _ ⟨ts, length, rfl⟩
  exact .pure ⟨ts, length, rfl⟩

theorem yields_mapM_absorbEnds {operands : List Pattern}
    (wf : ∀ operand ∈ operands, operand.net.WellFormed) (parts : List (Pattern × Renaming)) :
    Yields (operands.mapM absorbEnds) (.ofParts parts) fun ends b' => ∃ rs : List Renaming,
      rs.length = operands.length ∧
        ends = (operands.zip rs).map (fun q => (q.2.place q.1.source, q.2.place q.1.sink)) ∧
        b' = .ofParts (parts ++ operands.zip rs) := by
  induction operands generalizing parts with
  | nil => exact .pure ⟨[], rfl, rfl, by simp⟩
  | cons operand rest ih =>
    rw [List.mapM_cons]
    refine (yields_absorbEnds (wf operand List.mem_cons_self) parts).bind ?_
    rintro _ _ ⟨r, rfl, rfl⟩
    refine (ih (fun o ho => wf o (List.mem_cons_of_mem operand ho)) _).bind ?_
    rintro _ _ ⟨rs, length, rfl, rfl⟩
    exact .pure ⟨r :: rs, congrArg (· + 1) length, rfl, by simp⟩

theorem Yields.of_describes {work : Compose α} {post : α → Blueprint → Prop}
    (h : ∀ c, b.Describes c → Yields work b post) : Yields work b post :=
  fun c described => h c described c described

theorem finish_describes {work : Compose (PlaceId × PlaceId)}
    {post : PlaceId × PlaceId → Blueprint → Prop} (h : Yields work (.ofParts []) post) :
    ∃ b, post ((finish work).source, (finish work).sink) b ∧
      b.Describes ⟨(finish work).net, (finish work).activities⟩ :=
  h ⟨∅, ∅⟩ Blueprint.describes_empty

end Compose

end ProcessNet
