import ProcessNet.Interchange.DirectlyFollows
import ProcessNet.Proofs.Interchange.Description

/-!
Nets founded on directly-follows pairs. Every place has a position among the activities: between the two
of a pair, before one that follows none, or behind one that none follows. The places are put in one by
one, each under a name that is not taken and with the arcs of its position, and the net after each of
them is the net of a description: the activities, and the places so far with their arcs. From the last of
these descriptions the net is known, whatever names the places have got.
-/

namespace ProcessNet

section Lists

variable {α β : Type}

theorem forM_flatMap {m : Type → Type} [Monad m] [LawfulMonad m] (f : α → List β) (g : β → m Unit)
    (l : List α) : (l.flatMap f).forM g = l.forM fun a => (f a).forM g := by
  induction l with
  | nil => rfl
  | cons a rest ih =>
    simp only [List.forM_eq_forM] at ih ⊢
    rw [List.flatMap_cons, List.forM_append, List.forM_cons, ih]

variable [DecidableEq α] [DecidableEq β]

theorem OrderedSet.ofList_flatMap_toList (f : α → List β) (l : List α) :
    ofList ((ofList l).toList.flatMap f) = ofList (l.flatMap f) := by
  refine OrderedSet.ext ?_
  rw [toList_ofList_eq, toList_ofList_eq, toList_ofList_eq]
  induction l using List.reverseRecOn with
  | nil => rfl
  | append_singleton l a ih =>
    rw [List.eraseDups_append, List.flatMap_append, List.flatMap_append, List.eraseDups_append,
      List.eraseDups_append, ih, List.flatMap_singleton]
    congr 1
    by_cases known : a ∈ l
    · have nothing : (f a).filter (fun b => !decide (∃ c ∈ l, b ∈ f c)) = [] :=
        List.filter_eq_nil_iff.2 fun b hb => by simpa using ⟨a, known, hb⟩
      simp [List.removeAll, known, nothing]
    · simp [List.removeAll, known, List.eraseDups_cons]

omit [DecidableEq β] in
theorem filter_eq_some {o : Option α} {l : List α} (nodup : l.Nodup) (h : ∀ a ∈ o, a ∈ l) :
    l.filter (fun a => o = some a) = o.toList := by
  rcases o with _ | b
  · simp
  · have once := List.count_eq_one_of_mem nodup (h b rfl)
    have same : l.filter (fun a => some b = some a) = l.filter (· == b) :=
      List.filter_congr fun a _ => by simp [beq_eq_decide, eq_comm]
    rw [same, List.filter_beq, once]
    rfl

end Lists

theorem OrderedMap.ofList_concat {κ β : Type} [DecidableEq κ] (es : List (κ × β)) (k : κ) (v : β) :
    ofList (es ++ [(k, v)]) = (ofList es).insert k v := by
  rw [ofList, List.foldl_append]
  rfl

theorem existsUnique_comm_of_matching {α β : Type} {R : α → β → Prop}
    (right : ∀ a b b', R a b → R a b' → b = b') (left : ∀ a a' b, R a b → R a' b → a = a') :
    (∃! b, ∃ a, R a b) ↔ ∃! a, ∃ b, R a b := by
  constructor
  · rintro ⟨b, ⟨a, h⟩, only⟩
    exact ⟨a, ⟨b, h⟩, fun a' ⟨b', h'⟩ => left a' a b (only b' ⟨a', h'⟩ ▸ h') h⟩
  · rintro ⟨a, ⟨b, h⟩, only⟩
    exact ⟨b, ⟨a, h⟩, fun b' ⟨a', h'⟩ => right a b' b (only a' ⟨b', h'⟩ ▸ h') h⟩

theorem Net.exists_joined_iff {net : Net} {p : PlaceId} (side : Transition → OrderedSet PlaceId) :
    (∃ x, x ∈ net.transitions.values.filter (p ∈ side ·)) ↔
      ∃ t x, net.transition? t = some x ∧ p ∈ side x := by
  simp only [List.mem_filter, OrderedMap.mem_values, decide_eq_true_eq]
  constructor
  · rintro ⟨x, ⟨t, hx⟩, hp⟩
    exact ⟨t, x, hx, hp⟩
  · rintro ⟨t, x, hx, hp⟩
    exact ⟨x, ⟨t, hx⟩, hp⟩

/-- The pairs of labels of which a place has the first before it and the second behind it. -/
def Net.follows (net : Net) : List (String × String) :=
  net.places.keys.flatMap fun p =>
    (net.producers p).flatMap fun x => (net.consumers p).map fun y => (x.label, y.label)

/-- Where a place stands: between two activities, before one that follows none, or behind one that none
follows. -/
inductive Position
  | between (a b : String)
  | before (a : String)
  | behind (a : String)
deriving DecidableEq

namespace Position

def producer? : Position → Option String
  | between a _ => some a
  | before _ => none
  | behind a => some a

def consumer? : Position → Option String
  | between _ b => some b
  | before a => some a
  | behind _ => none

def pair? : Position → Option (String × String)
  | between a b => some (a, b)
  | before _ => none
  | behind _ => none

def wanted : Position → String
  | between a b => a ++ "->" ++ b
  | before a => ">" ++ a
  | behind a => a ++ ">"

def arcs (position : Position) (p : PlaceId) : List Arc :=
  (position.producer?.map fun a => ⟨p, ⟨a⟩, .transitionToPlace⟩).toList ++
    (position.consumer?.map fun b => ⟨p, ⟨b⟩, .placeToTransition⟩).toList

theorem forall_mem_arcs {position : Position} {p : PlaceId} {P : Arc → Prop} :
    (∀ a ∈ position.arcs p, P a) ↔
      (∀ a ∈ position.producer?, P ⟨p, ⟨a⟩, .transitionToPlace⟩) ∧
        ∀ b ∈ position.consumer?, P ⟨p, ⟨b⟩, .placeToTransition⟩ := by
  cases position <;> simp [arcs, producer?, consumer?]

variable (position : Position) (p : PlaceId) (a : String)

theorem consumer_arcs : (((position.arcs p).filter (·.transition = ⟨a⟩)).filter
    (·.direction = .placeToTransition)).map Arc.place =
      if position.consumer? = some a then [p] else [] := by
  cases position <;> simp [arcs, producer?, consumer?, List.filter_cons] <;> split_ifs <;> simp

theorem producer_arcs : (((position.arcs p).filter (·.transition = ⟨a⟩)).filter
    (·.direction = .transitionToPlace)).map Arc.place =
      if position.producer? = some a then [p] else [] := by
  cases position <;> simp [arcs, producer?, consumer?, List.filter_cons] <;> split_ifs <;> simp

def Among (position : Position) (activities : List String) : Prop :=
  (∀ a ∈ position.producer?, a ∈ activities) ∧ ∀ b ∈ position.consumer?, b ∈ activities

def found (position : Position) : Edit Unit := do
  let p ← Edit.grow (Growth.freshPlace position.wanted)
  (position.arcs p).forM Edit.addArc

theorem found_between (a b : String) : (between a b).found = Edit.addFollows (a, b) := by
  simp [found, Edit.addFollows, arcs, producer?, consumer?, wanted, Edit.addArc]

theorem found_before (a : String) : (before a).found =
    (do Edit.addInputArc (← Edit.grow (Growth.freshPlace (">" ++ a))) ⟨a⟩) := by
  simp [found, arcs, producer?, consumer?, wanted, Edit.addArc]

theorem found_behind (a : String) : (behind a).found =
    (do Edit.addOutputArc ⟨a⟩ (← Edit.grow (Growth.freshPlace (a ++ ">")))) := by
  simp [found, arcs, producer?, consumer?, wanted, Edit.addArc]

end Position

namespace DirectlyFollows

def distinct (pairs : List (String × String)) : List (String × String) :=
  (OrderedSet.ofList pairs).toList

def activities (pairs : List (String × String)) : List String :=
  (OrderedSet.ofList (pairs.flatMap fun pair => [pair.1, pair.2])).toList

/-- The positions that an activity needs at the boundary. -/
def boundary (pairs : List (String × String)) (a : String) : List Position :=
  (if a ∈ pairs.map Prod.snd then [] else [.before a]) ++
    if a ∈ pairs.map Prod.fst then [] else [.behind a]

/-- Where the places stand: between the activities of each distinct pair, then at the boundary. -/
def positions (pairs : List (String × String)) : List Position :=
  ((distinct pairs).map fun pair => .between pair.1 pair.2) ++
    (activities pairs).flatMap (boundary pairs)

variable {pairs : List (String × String)}

theorem nodup_activities (pairs : List (String × String)) : (activities pairs).Nodup :=
  (OrderedSet.ofList _).nodup

theorem mem_distinct {pair : String × String} : pair ∈ distinct pairs ↔ pair ∈ pairs :=
  OrderedSet.mem_ofList

theorem forM_boundary (a : String) :
    (boundary pairs a).forM Position.found = Edit.addBoundary (distinct pairs) a := by
  have second : (distinct pairs).any (·.2 = a) = decide (a ∈ pairs.map Prod.snd) := by
    simp [List.any_eq, mem_distinct]
  have first : (distinct pairs).any (·.1 = a) = decide (a ∈ pairs.map Prod.fst) := by
    simp [List.any_eq, mem_distinct]
  rw [boundary, Edit.addBoundary, second, first]
  by_cases hs : a ∈ pairs.map Prod.snd <;> by_cases hf : a ∈ pairs.map Prod.fst <;>
    simp only [hs, hf, if_true, if_false, decide_true, decide_false, List.nil_append] <;>
    simp [Position.found_before, Position.found_behind]

theorem forM_positions (pairs : List (String × String)) :
    (positions pairs).forM Position.found = (do
      (distinct pairs).forM Edit.addFollows
      (activities pairs).forM (Edit.addBoundary (distinct pairs))) := by
  have between : ((distinct pairs).map fun pair => Position.between pair.1 pair.2).forM
      Position.found = (distinct pairs).forM Edit.addFollows := by
    simp only [List.forM_eq_forM, List.forM_map, Position.found_between]
  have boundary : ((activities pairs).flatMap (boundary pairs)).forM Position.found =
      (activities pairs).forM (Edit.addBoundary (distinct pairs)) := by
    simp only [forM_flatMap, forM_boundary]
  rw [← between, ← boundary, positions]
  simp only [List.forM_eq_forM, List.forM_append]

theorem ofDirectlyFollows_eq (pairs : List (String × String)) :
    Net.ofDirectlyFollows pairs = Edit.build (do
      (activities pairs).forM Edit.addActivity
      (positions pairs).forM Position.found) := by
  have all : (OrderedSet.ofList ((distinct pairs).flatMap fun p => [p.1, p.2])).toList =
      activities pairs := by
    rw [distinct, OrderedSet.ofList_flatMap_toList, activities]
  rw [forM_positions, ← all]
  rfl

def founding (activities : List String) (sites : List (Position × PlaceId)) : Description where
  places := sites.map fun e => ⟨e.2, 0⟩
  transitions := activities.map fun a => ⟨⟨a⟩, some a⟩
  arcs := sites.flatMap fun e => e.1.arcs e.2

variable {acts : List String} {sites : List (Position × PlaceId)} {position : Position}

theorem consistent_founding_iff : (founding acts sites).Consistent ↔
    (sites.map Prod.snd).Nodup ∧ acts.Nodup ∧ ∀ e ∈ sites, e.1.Among acts := by
  have places : (founding acts sites).places.map PlaceDescription.id = sites.map Prod.snd := by
    simp [founding, Function.comp_def]
  have transitions : (founding acts sites).transitions.map TransitionDescription.id =
      acts.map TransitionId.mk := by
    simp [founding, Function.comp_def]
  have distinct : (acts.map TransitionId.mk).Nodup ↔ acts.Nodup :=
    List.nodup_map_iff fun _ _ eq => TransitionId.mk.inj eq
  have ends (e : Position × PlaceId) (he : e ∈ sites) :
      (∀ a ∈ e.1.arcs e.2, a.place ∈ sites.map Prod.snd ∧ a.transition ∈ acts.map TransitionId.mk) ↔
        e.1.Among acts := by
    have here : e.2 ∈ sites.map Prod.snd := List.mem_map_of_mem he
    have known (a : String) : (⟨a⟩ : TransitionId) ∈ acts.map TransitionId.mk ↔ a ∈ acts := by simp
    simp only [Position.forall_mem_arcs, here, known, true_and, Position.Among]
  constructor
  · rintro ⟨hp, ht, he⟩
    rw [places] at hp
    rw [transitions] at ht
    rw [places, transitions] at he
    exact ⟨hp, distinct.1 ht, fun e mem => (ends e mem).1 fun a ha =>
      he a (List.mem_flatMap.2 ⟨e, mem, ha⟩)⟩
  · rintro ⟨hp, ht, he⟩
    refine ⟨places ▸ hp, transitions ▸ distinct.2 ht, fun a ha => ?_⟩
    obtain ⟨e, mem, ha⟩ := List.mem_flatMap.1 ha
    rw [places, transitions]
    exact (ends e mem).2 (he e mem) a ha

theorem run_grow {α : Type} (work : Growth α) (net : Net) :
    (Edit.grow work).run net = .ok (work.run net).1 (work.run net).2 := rfl

theorem net_founding_concat {p : PlaceId} : (founding acts (sites ++ [(position, p)])).net = {
    places := (founding acts sites).net.places.insert p (.blank p)
    transitions := (founding acts sites).net.transitions.mapValues fun t x =>
      x.withArcs ((position.arcs p).filter (·.transition = t))
    vars := ∅ } := by
  have arcs : (founding acts (sites ++ [(position, p)])).arcs =
      (founding acts sites).arcs ++ position.arcs p := by
    simp [founding]
  have places : (founding acts (sites ++ [(position, p)])).net.places =
      (founding acts sites).net.places.insert p (.blank p) := by
    simp only [founding, Description.net, List.map_append, List.map_cons, List.map_nil]
    exact OrderedMap.ofList_concat _ _ _
  have transitions : (founding acts (sites ++ [(position, p)])).net.transitions =
      (founding acts sites).net.transitions.mapValues fun t x =>
        x.withArcs ((position.arcs p).filter (·.transition = t)) := by
    refine OrderedMap.ext ?_
    simp only [Description.net, OrderedMap.mapValues, List.map_map, arcs, List.filter_append,
      ← Transition.withArcs_withArcs]
    rfl
  exact congrArg₂ (fun ps ts => (⟨ps, ts, ∅⟩ : Net)) places transitions

theorem run_found (consistent : (founding acts sites).Consistent) (known : position.Among acts) :
    ∃ p, (founding acts (sites ++ [(position, p)])).Consistent ∧
      position.found.run (founding acts sites).net =
        .ok () (founding acts (sites ++ [(position, p)])).net := by
  obtain ⟨nodup, distinct, among⟩ := consistent_founding_iff.1 consistent
  have keys : (founding acts sites).net.places.keys = sites.map Prod.snd := by
    rw [OrderedMap.keys, consistent.entries_places]
    simp [founding, Function.comp_def]
  have keys' : (founding acts sites).net.transitions.keys = acts.map TransitionId.mk := by
    rw [OrderedMap.keys, consistent.entries_transitions]
    simp [founding, Function.comp_def]
  set net := (founding acts sites).net
  set p := net.freshPlaceId position.wanted
  have fresh : p ∉ net.places.keys := net.freshPlaceId_not_mem position.wanted
  refine ⟨p, consistent_founding_iff.2 ⟨?_, distinct, fun e he => ?_⟩, ?_⟩
  · rw [List.map_append, List.map_singleton, ← List.concat_eq_append]
    exact nodup.concat (keys ▸ fresh)
  · rcases List.mem_append.1 he with old | new
    · exact among e old
    · exact List.mem_singleton.1 new ▸ known
  · rw [Position.found, EStateM.run_bind, run_grow, net_founding_concat]
    have here : p ∈ ((Growth.freshPlace position.wanted).run net).2.places.keys :=
      Growth.mem_freshPlace position.wanted
    have listed (a : String) (ha : a ∈ acts) : ⟨a⟩ ∈ net.transitions.keys :=
      keys' ▸ List.mem_map_of_mem ha
    refine (Edit.run_forM_addArc_eq_ok _ _ _).2 ⟨Position.forall_mem_arcs.2 ⟨?_, ?_⟩, rfl⟩
    · exact fun a ha => ⟨here, listed a (known.1 a ha)⟩
    · exact fun b hb => ⟨here, listed b (known.2 b hb)⟩

theorem run_forM_found (positions : List Position) (known : ∀ q ∈ positions, q.Among acts)
    (consistent : (founding acts sites).Consistent) :
    ∃ more, more.map Prod.fst = positions ∧ (founding acts (sites ++ more)).Consistent ∧
      (positions.forM Position.found).run (founding acts sites).net =
        .ok () (founding acts (sites ++ more)).net := by
  induction positions generalizing sites with
  | nil => exact ⟨[], rfl, by rwa [List.append_nil], by rw [List.append_nil]; rfl⟩
  | cons position rest ih =>
    obtain ⟨here, later⟩ := List.forall_mem_cons.1 known
    obtain ⟨p, consistent, run⟩ := run_found consistent here
    obtain ⟨more, placed, consistent, runs⟩ := ih later consistent
    rw [List.append_assoc, List.singleton_append] at consistent runs
    refine ⟨(position, p) :: more, by rw [List.map_cons, placed], consistent, ?_⟩
    rw [List.forM_eq_forM] at runs ⊢
    rw [List.forM_cons, Edit.run_seq_eq_ok]
    exact ⟨_, run, runs⟩

theorem run_forM_addActivity (nodup : acts.Nodup) :
    (acts.forM Edit.addActivity).run ∅ = .ok () (founding acts []).net := by
  have consistent : (founding acts []).Consistent :=
    consistent_founding_iff.2 ⟨List.nodup_nil, nodup, fun _ he => by cases he⟩
  have run := (Edit.run_addDescription_eq_ok _ _).2 ⟨consistent, rfl⟩
  have edits : Edit.addDescription (founding acts []) = acts.forM Edit.addActivity := by
    simp only [Edit.addDescription, founding, List.map_nil, List.flatMap_nil, List.forM_eq_forM,
      List.forM_nil, List.forM_map, pure_bind, bind_pure_unit]
    rfl
  rwa [edits] at run

theorem mem_activities {a : String} :
    a ∈ activities pairs ↔ a ∈ pairs.map Prod.fst ∨ a ∈ pairs.map Prod.snd := by
  rw [activities, ← OrderedSet.mem_def, OrderedSet.mem_ofList]
  simp only [List.mem_flatMap, List.mem_map, List.mem_cons, List.not_mem_nil, or_false]
  constructor
  · rintro ⟨pair, h, rfl | rfl⟩
    · exact .inl ⟨pair, h, rfl⟩
    · exact .inr ⟨pair, h, rfl⟩
  · rintro (⟨pair, h, rfl⟩ | ⟨pair, h, rfl⟩)
    · exact ⟨pair, h, .inl rfl⟩
    · exact ⟨pair, h, .inr rfl⟩

theorem mem_boundary {a : String} : position ∈ boundary pairs a ↔
    (a ∉ pairs.map Prod.snd ∧ position = .before a) ∨
      (a ∉ pairs.map Prod.fst ∧ position = .behind a) := by
  rw [boundary, List.mem_append]
  split <;> split <;> simp [*]

theorem mem_positions : position ∈ positions pairs ↔ match position with
    | .between a b => (a, b) ∈ pairs
    | .before a => a ∈ activities pairs ∧ a ∉ pairs.map Prod.snd
    | .behind a => a ∈ activities pairs ∧ a ∉ pairs.map Prod.fst := by
  simp only [positions, List.mem_append, List.mem_map, List.mem_flatMap, mem_distinct,
    mem_boundary]
  cases position <;> simp

theorem among_activities (h : position ∈ positions pairs) : position.Among (activities pairs) := by
  have stands := mem_positions.1 h
  cases position with
  | between a b =>
    have first : a ∈ activities pairs := mem_activities.2 (.inl (List.mem_map_of_mem stands))
    have second : b ∈ activities pairs := mem_activities.2 (.inr (List.mem_map_of_mem stands))
    simpa [Position.Among, Position.producer?, Position.consumer?] using ⟨first, second⟩
  | before a => simpa [Position.Among, Position.producer?, Position.consumer?] using stands.1
  | behind a => simpa [Position.Among, Position.producer?, Position.consumer?] using stands.1

theorem nodup_positions (pairs : List (String × String)) : (positions pairs).Nodup := by
  have between : ((distinct pairs).map fun pair => Position.between pair.1 pair.2).Nodup := by
    refine List.Nodup.map (fun a b eq => ?_) (OrderedSet.ofList pairs).nodup
    obtain ⟨first, second⟩ := Position.between.inj eq
    exact Prod.ext first second
  have boundary : ((activities pairs).flatMap (boundary pairs)).Nodup := by
    refine List.nodup_flatMap.2 ⟨fun a _ => ?_, (nodup_activities pairs).imp fun ne => ?_⟩
    · rw [boundary]
      split <;> split <;> simp
    · intro position here there
      rcases mem_boundary.1 here with ⟨-, rfl⟩ | ⟨-, rfl⟩ <;>
        rcases mem_boundary.1 there with ⟨-, eq⟩ | ⟨-, eq⟩ <;> cases eq <;> exact ne rfl
  refine List.nodup_append.2 ⟨between, boundary, ?_⟩
  rintro _ inner _ outer rfl
  obtain ⟨pair, -, rfl⟩ := List.mem_map.1 inner
  obtain ⟨a, -, outer⟩ := List.mem_flatMap.1 outer
  rcases mem_boundary.1 outer with ⟨-, eq⟩ | ⟨-, eq⟩ <;> cases eq

theorem exists_founding (pairs : List (String × String)) :
    ∃ sites, sites.map Prod.fst = positions pairs ∧
      (founding (activities pairs) sites).Consistent ∧
      Net.ofDirectlyFollows pairs = .ok (founding (activities pairs) sites).net := by
  have nodup := nodup_activities pairs
  have consistent : (founding (activities pairs) []).Consistent :=
    consistent_founding_iff.2 ⟨List.nodup_nil, nodup, fun _ he => by cases he⟩
  obtain ⟨sites, placed, consistent, runs⟩ :=
    run_forM_found (positions pairs) (fun _ => among_activities) consistent
  rw [List.nil_append] at consistent runs
  refine ⟨sites, placed, consistent, ?_⟩
  rw [ofDirectlyFollows_eq, Edit.build_eq_ok, Edit.run_seq_eq_ok]
  exact ⟨_, run_forM_addActivity nodup, runs⟩

/-- The transition of an activity, joined to the places at its positions. -/
def activity (sites : List (Position × PlaceId)) (a : String) : Transition :=
  { Transition.bare ⟨a⟩ a true with
    inputs := .ofList ((sites.filter fun e => e.1.consumer? = some a).map Prod.snd)
    outputs := .ofList ((sites.filter fun e => e.1.producer? = some a).map Prod.snd) }

theorem transition_withArcs (a : String) :
    (TransitionDescription.transition ⟨⟨a⟩, some a⟩).withArcs
      ((founding acts sites).arcs.filter (·.transition = ⟨a⟩)) = activity sites a := by
  have joined (direction : ArcDirection) (near : Position → Option String)
      (reads : ∀ position p, (((Position.arcs position p).filter (·.transition = ⟨a⟩)).filter
        (·.direction = direction)).map Arc.place = if near position = some a then [p] else []) :
      (((founding acts sites).arcs.filter (·.transition = ⟨a⟩)).filter
        (·.direction = direction)).map Arc.place =
      (sites.filter fun e => near e.1 = some a).map Prod.snd := by
    rw [founding, List.filter_flatMap, List.filter_flatMap, List.map_flatMap]
    simp only [reads]
    induction sites with
    | nil => rfl
    | cons e rest ih =>
      rw [List.flatMap_cons, ih, List.filter_cons]
      split <;> simp [*]
  rw [Transition.withArcs,
    joined .placeToTransition Position.consumer? fun position p => position.consumer_arcs p a,
    joined .transitionToPlace Position.producer? fun position p => position.producer_arcs p a]
  rfl

/-- A net that has one visible transition for each activity and one unmarked place for each position,
with the arcs that belong to these, and nothing else. -/
structure FoundedOn (pairs : List (String × String)) (net : Net) (sites : List (Position × PlaceId)) :
    Prop where
  positions : sites.map Prod.fst = positions pairs
  places : net.places.entries = sites.map fun e => (e.2, .blank e.2)
  transitions : net.transitions.entries =
    (activities pairs).map fun a => (⟨a⟩, activity sites a)
  vars : net.vars = ∅

theorem exists_foundedOn (pairs : List (String × String)) :
    ∃ net sites, Net.ofDirectlyFollows pairs = .ok net ∧ FoundedOn pairs net sites := by
  obtain ⟨sites, positions, consistent, founds⟩ := exists_founding pairs
  refine ⟨_, sites, founds, positions, ?_, ?_, rfl⟩
  · rw [consistent.entries_places, founding, List.map_map]
    rfl
  · rw [consistent.entries_transitions, founding, List.map_map]
    exact List.map_congr_left fun a _ => congrArg _ (transition_withArcs a)

namespace FoundedOn

variable {net : Net} (founded : FoundedOn pairs net sites) {p : PlaceId}

include founded

theorem keys_places : net.places.keys = sites.map Prod.snd := by
  rw [OrderedMap.keys, founded.places, List.map_map]
  rfl

theorem nodup_places : (sites.map Prod.snd).Nodup := founded.keys_places ▸ net.places.nodup_keys

theorem nodup_sites : (sites.map Prod.fst).Nodup := founded.positions ▸ nodup_positions pairs

theorem among {e : Position × PlaceId} (he : e ∈ sites) : e.1.Among (activities pairs) :=
  among_activities (founded.positions ▸ List.mem_map_of_mem he)

theorem joined_iff {near : Position → Option String} {e : Position × PlaceId} (he : e ∈ sites)
    (a : String) : e.2 ∈ OrderedSet.ofList ((sites.filter fun e => near e.1 = some a).map Prod.snd) ↔
      near e.1 = some a := by
  rw [OrderedSet.mem_ofList, List.mem_map]
  constructor
  · rintro ⟨e', he', same⟩
    obtain ⟨he', here⟩ := List.mem_filter.1 he'
    obtain rfl := List.inj_on_of_nodup_map founded.nodup_places he' he same
    exact of_decide_eq_true here
  · exact fun here => ⟨e, List.mem_filter.2 ⟨he, decide_eq_true here⟩, rfl⟩

theorem values_transitions : net.transitions.values = (activities pairs).map (activity sites) := by
  rw [OrderedMap.values, founded.transitions, List.map_map]
  rfl

theorem filter_joined {near : Position → Option String} {side : Transition → OrderedSet PlaceId}
    (reads : ∀ a, side (activity sites a) =
      .ofList ((sites.filter fun e => near e.1 = some a).map Prod.snd))
    {e : Position × PlaceId} (he : e ∈ sites) (known : ∀ a ∈ near e.1, a ∈ activities pairs) :
    net.transitions.values.filter (e.2 ∈ side ·) = ((near e.1).map (activity sites)).toList := by
  have joined (a : String) : e.2 ∈ side (activity sites a) ↔ near e.1 = some a := by
    rw [reads, founded.joined_iff he]
  rw [founded.values_transitions, List.filter_map]
  simp only [Function.comp_def, joined]
  rw [filter_eq_some (nodup_activities pairs) known, Option.toList_map]

theorem producers_eq {e : Position × PlaceId} (he : e ∈ sites) :
    net.producers e.2 = (e.1.producer?.map (activity sites)).toList :=
  founded.filter_joined (fun _ => rfl) he (founded.among he).1

theorem consumers_eq {e : Position × PlaceId} (he : e ∈ sites) :
    net.consumers e.2 = (e.1.consumer?.map (activity sites)).toList :=
  founded.filter_joined (fun _ => rfl) he (founded.among he).2

theorem produces_iff {e : Position × PlaceId} (he : e ∈ sites) :
    net.Produces e.2 ↔ e.1.producer? ≠ none := by
  have producers : (∃ x, x ∈ net.producers e.2) ↔ net.Produces e.2 :=
    Net.exists_joined_iff Transition.outputs
  rw [← producers, founded.producers_eq he]
  simp [Option.eq_none_iff_forall_ne_some]

theorem consumes_iff {e : Position × PlaceId} (he : e ∈ sites) :
    net.Consumes e.2 ↔ e.1.consumer? ≠ none := by
  have consumers : (∃ x, x ∈ net.consumers e.2) ↔ net.Consumes e.2 :=
    Net.exists_joined_iff Transition.inputs
  rw [← consumers, founded.consumers_eq he]
  simp [Option.eq_none_iff_forall_ne_some]

theorem mem_outer_iff {near far : Position → Option String} {Near Far : PlaceId → Prop}
    {kind : String → Position} (near_iff : ∀ {e}, e ∈ sites → (Near e.2 ↔ near e.1 ≠ none))
    (far_iff : ∀ {e}, e ∈ sites → (Far e.2 ↔ far e.1 ≠ none))
    (known : ∀ {p}, Near p → p ∈ net.places.keys)
    (outer : ∀ position, near position ≠ none ∧ far position = none ↔ ∃ a, position = kind a) :
    Near p ∧ ¬Far p ↔ ∃ a, (kind a, p) ∈ sites := by
  constructor
  · rintro ⟨joined, free⟩
    have known := known joined
    rw [founded.keys_places] at known
    obtain ⟨⟨position, p⟩, he, rfl⟩ := List.mem_map.1 known
    obtain ⟨a, rfl⟩ := (outer position).1
      ⟨(near_iff he).1 joined, not_not.1 (mt (far_iff he).2 free)⟩
    exact ⟨a, he⟩
  · rintro ⟨a, he⟩
    obtain ⟨joined, free⟩ := (outer (kind a)).2 ⟨a, rfl⟩
    exact ⟨(near_iff he).2 joined, fun far => (far_iff he).1 far free⟩

theorem mem_sources (wf : net.WellFormed) : p ∈ net.sources ↔ ∃ a, (.before a, p) ∈ sites := by
  rw [Net.mem_sources]
  refine founded.mem_outer_iff founded.consumes_iff founded.produces_iff wf.consumes_mem
    fun position => ?_
  cases position <;> simp [Position.producer?, Position.consumer?]

theorem mem_sinks (wf : net.WellFormed) : p ∈ net.sinks ↔ ∃ a, (.behind a, p) ∈ sites := by
  rw [Net.mem_sinks]
  refine founded.mem_outer_iff founded.produces_iff founded.consumes_iff wf.produces_mem
    fun position => ?_
  cases position <;> simp [Position.producer?, Position.consumer?]

theorem existsUnique_place_iff {kind : String → Position} (inj : Function.Injective kind) :
    (∃! p, ∃ a, (kind a, p) ∈ sites) ↔ ∃! a, kind a ∈ DirectlyFollows.positions pairs := by
  have placed (a : String) : kind a ∈ DirectlyFollows.positions pairs ↔ ∃ p, (kind a, p) ∈ sites := by
    simp [← founded.positions]
  simp only [placed]
  refine existsUnique_comm_of_matching (fun a p q hp hq => ?_) fun a b p ha hb => ?_
  · exact congrArg Prod.snd (List.inj_on_of_nodup_map founded.nodup_sites hp hq rfl)
  · exact inj (congrArg Prod.fst (List.inj_on_of_nodup_map founded.nodup_places ha hb rfl))

theorem isWorkflow_iff (wf : net.WellFormed) : net.isWorkflow = true ↔
    (∃! a, a ∈ activities pairs ∧ a ∉ pairs.map Prod.snd) ∧
      ∃! a, a ∈ activities pairs ∧ a ∉ pairs.map Prod.fst := by
  have sources := founded.existsUnique_place_iff fun _ _ eq => Position.before.inj eq
  have sinks := founded.existsUnique_place_iff fun _ _ eq => Position.behind.inj eq
  simp only [mem_positions] at sources sinks
  rw [← sources, ← sinks, Net.isWorkflow_iff wf]
  simp only [← founded.mem_sources wf, ← founded.mem_sinks wf]
  constructor
  · rintro ⟨source, sink, ends⟩
    exact ⟨⟨source, (ends.source source).2 rfl, fun p => (ends.source p).1⟩,
      ⟨sink, (ends.sink sink).2 rfl, fun p => (ends.sink p).1⟩⟩
  · rintro ⟨⟨source, hs, onlySource⟩, ⟨sink, ht, onlySink⟩⟩
    exact ⟨source, sink, fun p => ⟨onlySource p, fun eq => eq ▸ hs⟩,
      fun p => ⟨onlySink p, fun eq => eq ▸ ht⟩⟩

theorem follows_eq : net.follows = distinct pairs := by
  have read (e : Position × PlaceId) (he : e ∈ sites) :
      ((net.producers e.2).flatMap fun x => (net.consumers e.2).map fun y => (x.label, y.label)) =
        e.1.pair?.toList := by
    rw [founded.producers_eq he, founded.consumers_eq he]
    cases e.1 <;> rfl
  have inner : ((distinct pairs).flatMap fun pair =>
      (Position.between pair.1 pair.2).pair?.toList) = distinct pairs := by
    simp [Position.pair?]
  have outer : ((activities pairs).flatMap fun a =>
      (boundary pairs a).flatMap fun q => q.pair?.toList) = [] := by
    refine List.flatMap_eq_nil_iff.2 fun a _ => List.flatMap_eq_nil_iff.2 fun q hq => ?_
    rcases mem_boundary.1 hq with ⟨-, rfl⟩ | ⟨-, rfl⟩ <;> rfl
  calc
    net.follows = sites.flatMap fun e => e.1.pair?.toList := by
      rw [Net.follows, founded.keys_places, List.flatMap_map]
      exact List.flatMap_congr read
    _ = (DirectlyFollows.positions pairs).flatMap fun q => q.pair?.toList := by
      rw [← founded.positions, List.flatMap_map]
    _ = distinct pairs := by
      rw [DirectlyFollows.positions, List.flatMap_append, List.flatMap_map, List.flatMap_assoc,
        inner, outer, List.append_nil]

end FoundedOn

end DirectlyFollows

open DirectlyFollows

/-- Any pairs found a net. It has a visible transition for each activity and an unmarked place for each
distinct pair, for each activity that follows none and for each that none follows, and nothing else. A
place is put into and taken from by the activities of its position only, so the pairs can be read off
the net; and it is a workflow net just when one activity only follows none and one only is followed by
none. -/
theorem ofDirectlyFollows_faithful (pairs : List (String × String)) :
    ∃ net sites, Net.ofDirectlyFollows pairs = .ok net ∧ FoundedOn pairs net sites ∧
      (sites.map Prod.fst).Nodup ∧ (sites.map Prod.snd).Nodup ∧
      (∀ e ∈ sites, net.producers e.2 = (e.1.producer?.map (activity sites)).toList ∧
        net.consumers e.2 = (e.1.consumer?.map (activity sites)).toList) ∧
      net.follows = distinct pairs ∧
      (net.isWorkflow = true ↔
        (∃! a, a ∈ activities pairs ∧ a ∉ pairs.map Prod.snd) ∧
          ∃! a, a ∈ activities pairs ∧ a ∉ pairs.map Prod.fst) := by
  obtain ⟨net, sites, founds, founded⟩ := exists_foundedOn pairs
  have wf : net.WellFormed := (Built.ofDirectlyFollows founds).wellFormed
  exact ⟨net, sites, founds, founded, founded.nodup_sites, founded.nodup_places,
    fun e he => ⟨founded.producers_eq he, founded.consumers_eq he⟩, founded.follows_eq,
    founded.isWorkflow_iff wf⟩

/-- Two places want one name, and a task that follows itself needs none at the boundary. -/
example : (Net.ofDirectlyFollows [("a", "b->c"), ("a->b", "c"), ("d", "d")]).toOption.map
    (·.places.keys.map PlaceId.name) =
      some ["a->b->c", "a->b->c'", "d->d", ">a", "b->c>", ">a->b", "c>"] := by
  decide +kernel

end ProcessNet
