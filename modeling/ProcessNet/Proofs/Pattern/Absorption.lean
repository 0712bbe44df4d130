import ProcessNet.Proofs.Data.Guard
import ProcessNet.Proofs.Pattern.Built

/-!
What absorbing does to the operands. The entries of a composition are those of the copies, one after
the other, and an ordered map repeats no key; so no two elements of whatever operands have gone to one
name, and all of a copy but its names is as it was. A name that is free stays as it is, so the first
operand keeps all of its own. A guard reads under the new names what it read before, and a change to
the variables of another copy is none that it could see.
-/

namespace ProcessNet

theorem OrderedSet.toList_map {α β : Type} [DecidableEq β] {f : α → β} {s : OrderedSet α}
    (inj : ∀ a ∈ s, ∀ b ∈ s, f a = f b → a = b) : (s.map f).toList = s.toList.map f :=
  OrderedSet.toList_ofList (s.nodup.map_on inj)

theorem OrderedMap.eq_of_entries {ι κ κ' β β' : Type} {m : OrderedMap κ' β'} {l : List ι}
    {parts : ι → OrderedMap κ β} {f : ι → κ → κ'} {g : ι → κ × β → β'}
    (entries : m.entries = l.flatMap fun i => (parts i).entries.map fun e => (f i e.1, g i e))
    {i j : ι} {a b : κ} (hi : i ∈ l) (hj : j ∈ l) (ha : a ∈ (parts i).keys)
    (hb : b ∈ (parts j).keys) (eq : f i a = f j b) : i = j ∧ a = b := by
  let pairs : List (ι × κ) := l.flatMap fun i => (parts i).keys.map (Prod.mk i)
  have keys : m.keys = pairs.map fun s => f s.1 s.2 := by
    rw [OrderedMap.keys, entries]
    simp only [pairs, OrderedMap.keys, List.map_flatMap, List.map_map]
    rfl
  have mem : ∀ {i a}, i ∈ l → a ∈ (parts i).keys → (i, a) ∈ pairs := fun hi ha =>
    List.mem_flatMap.2 ⟨_, hi, List.mem_map_of_mem ha⟩
  have nodup : (pairs.map fun s => f s.1 s.2).Nodup := keys ▸ m.nodup_keys
  exact Prod.mk.inj (List.inj_on_of_nodup_map nodup (mem hi ha) (mem hj hb) eq)

namespace Blueprint.Describes

variable {b : Blueprint} {c : Composition} (h : b.Describes c) {P : Pattern} {r : Renaming}
  (part : (P, r) ∈ b.parts) {t : TransitionId} {x : Transition} {name : String}

include h part

theorem transition?_copy (hx : P.net.transition? t = some x) :
    c.net.transition? (r.transition t) = some (r.copy (r.transition t) x) := by
  rw [Net.transition?, OrderedMap.get?_eq_some, h.transitions]
  refine List.mem_append_left _ (List.mem_flatMap.2 ⟨_, part, ?_⟩)
  exact List.mem_map_of_mem (f := fun e => (r.transition e.1, r.copy (r.transition e.1) e.2))
    (OrderedMap.get?_eq_some.1 hx)

theorem namedVariable?_copy {z : Variable} (hz : P.net.namedVariable? name = some z) :
    c.net.namedVariable? (r.variableName name) = some { z with name := r.variableName name } := by
  rw [Net.namedVariable?, OrderedMap.get?_eq_some, h.vars]
  refine List.mem_flatMap.2 ⟨_, part, ?_⟩
  exact List.mem_map_of_mem
    (f := fun e => (r.variableName e.1, { e.2 with name := r.variableName e.1 }))
    (OrderedMap.get?_eq_some.1 hz)

theorem read_copy (hn : name ∈ P.net.vars.keys) : c.net.vars.read (r.variableName name) =
    (P.net.vars.read name).mapError (.renameVariable r.variableName) := by
  obtain ⟨z, hz⟩ := OrderedMap.mem_keys.1 hn
  have copied : c.net.vars.get? (r.variableName name) = _ := h.namedVariable?_copy part hz
  apply Guard.read_rename
  rw [copied, hz]
  rfl

theorem accepts_copy (wf : P.net.WellFormed) (hx : P.net.transition? t = some x) :
    (r.copy (r.transition t) x).accepts c.net.vars =
      (x.accepts P.net.vars).mapError (.renameVariable r.variableName) :=
  Guard.accepts_rename x.guard fun name hn => h.read_copy part ((wf.admits hx).reads name hn)

end Blueprint.Describes

theorem foldl_keeps {σ ι X : Type} [DecidableEq ι] (key : X → ι) (add : σ → X → ι × σ)
    (taken : σ → List ι) (fresh : ∀ s x, key x ∉ taken s → (add s x).1 = key x)
    (grow : ∀ s x, ∀ k ∈ taken (add s x).2, k ∈ taken s ∨ k = (add s x).1) {xs : List X}
    (nodup : (xs.map key).Nodup) {m : OrderedMap ι ι} (kept : ∀ k, (m.get? k).getD k = k) {s : σ}
    (free : ∀ k ∈ xs.map key, k ∉ taken s) (k : ι) :
    ((xs.foldl (fun a x => (a.1.insert (key x) (add a.2 x).1, (add a.2 x).2)) (m, s)).1.get?
      k).getD k = k := by
  induction xs generalizing m s with
  | nil => exact kept k
  | cons x rest ih =>
    obtain ⟨absent, nodup⟩ := List.nodup_cons.1 nodup
    have same := fresh s x (free _ List.mem_cons_self)
    refine ih nodup (fun l => ?_) fun l hl mem => ?_
    · rw [same, OrderedMap.get?_insert]
      split
      · next eq => exact eq.symm
      · exact kept l
    · rcases grow s x l mem with earlier | eq
      · exact free l (List.mem_cons_of_mem _ hl) earlier
      · exact absent (same ▸ eq ▸ hl)

namespace Net

variable {net : Net}

theorem freshPlaceId_of_free {p : PlaceId} (free : p ∉ net.places.keys) :
    net.freshPlaceId p.name = p := by
  rw [freshPlaceId, Name.fresh_of_not_mem fun mem => ?_]
  obtain ⟨⟨name⟩, hq, rfl⟩ := List.mem_map.1 mem
  exact free hq

theorem freshTransitionId_of_free {t : TransitionId} (free : t ∉ net.transitions.keys) :
    net.freshTransitionId t.name = t := by
  rw [freshTransitionId, Name.fresh_of_not_mem fun mem => ?_]
  obtain ⟨⟨name⟩, hu, rfl⟩ := List.mem_map.1 mem
  exact free hu

end Net

theorem mem_keys_insert {κ β : Type} [DecidableEq κ] {m : OrderedMap κ β} {k l : κ} {v : β}
    (h : l ∈ (m.insert k v).keys) : l ∈ m.keys ∨ l = k := by
  rw [OrderedMap.keys_insert] at h
  split at h
  · exact .inl h
  · exact (List.mem_append.1 h).imp_right List.eq_of_mem_singleton

structure Renaming.Keeps (r : Renaming) : Prop where
  place : ∀ p, r.place p = p
  transition : ∀ t, r.transition t = t
  variableName : ∀ name, r.variableName name = name

namespace Growth

variable {operand net : Net} (wf : operand.WellFormed)

include wf

theorem copyPlaces_keeps (free : ∀ p ∈ operand.places.keys, p ∉ net.places.keys) (p : PlaceId) :
    (((copyPlaces operand.places.values).run net).1.get? p).getD p = p := by
  rw [run_copyPlaces]
  exact foldl_keeps Place.id addCopy (fun n => n.places.keys)
    (fun _ _ => Net.freshPlaceId_of_free) (fun _ _ _ => mem_keys_insert)
    (wf.place_ids ▸ operand.places.nodup_keys) (fun _ => rfl) (wf.place_ids ▸ free) p

theorem copyVariables_keeps (free : ∀ v ∈ operand.vars.keys, v ∉ net.vars.keys) (name : String) :
    (((copyVariables operand.vars.values).run net).1.get? name).getD name = name := by
  rw [run_copyVariables]
  exact foldl_keeps Variable.name (fun n x => (freshVariable x).run n) (fun n => n.vars.keys)
    (fun _ _ => Name.fresh_of_not_mem) (fun _ _ _ => mem_keys_insert)
    (wf.variable_names ▸ operand.vars.nodup_keys) (fun _ => rfl) (wf.variable_names ▸ free) name

end Growth

namespace Compose

theorem copyTransitions_keeps {operand : Pattern} (wf : operand.net.WellFormed) (r : Renaming)
    {c : Composition} (free : ∀ t ∈ operand.net.transitions.keys, t ∉ c.net.transitions.keys) :
    let r' := ((operand.net.transitions.values.foldlM (copyTransition operand)
      { r with transitions := ∅ }).run c).1
    r'.places = r.places ∧ r'.vars = r.vars ∧ ∀ t, r'.transition t = t := by
  rw [run_foldlM_copyTransition]
  refine ⟨rfl, rfl, fun t => ?_⟩
  exact foldl_keeps Transition.id (addCopy operand r) (fun d => d.net.transitions.keys)
    (fun _ _ => Net.freshTransitionId_of_free) (fun _ _ _ => mem_keys_insert)
    (wf.transition_ids ▸ operand.net.transitions.nodup_keys) (fun _ => rfl)
    (wf.transition_ids ▸ free) t

theorem absorb_keeps {operand : Pattern} (wf : operand.net.WellFormed) {c : Composition}
    (places : ∀ p ∈ operand.net.places.keys, p ∉ c.net.places.keys)
    (transitions : ∀ t ∈ operand.net.transitions.keys, t ∉ c.net.transitions.keys)
    (vars : ∀ name ∈ operand.net.vars.keys, name ∉ c.net.vars.keys) :
    ((absorb operand).run c).1.Keeps := by
  let p := (Growth.copyPlaces operand.net.places.values).run c.net
  let v := (Growth.copyVariables operand.net.vars.values).run p.2
  obtain ⟨⟨pt, pv⟩, -⟩ := Growth.copyPlaces_grows wf c.net
  obtain ⟨⟨-, vt⟩, -⟩ := Growth.copyVariables_grows wf p.2
  have vars' : ∀ name ∈ operand.net.vars.keys, name ∉ p.2.vars.keys := by
    rw [pv]
    exact vars
  have transitions' : ∀ t ∈ operand.net.transitions.keys, t ∉ v.2.transitions.keys := by
    rw [vt, pt]
    exact transitions
  have run : (absorb operand).run c = (operand.net.transitions.values.foldlM
      (copyTransition operand) ⟨p.1, v.1, ∅⟩).run { c with net := v.2 } := rfl
  obtain ⟨rp, rv, kept⟩ :=
    copyTransitions_keeps (c := { c with net := v.2 }) wf ⟨p.1, v.1, ∅⟩ transitions'
  rw [run]
  refine ⟨fun q => ?_, kept, fun name => ?_⟩
  · rw [Renaming.place, rp]
    exact Growth.copyPlaces_keeps wf places q
  · rw [Renaming.variableName, rv]
    exact Growth.copyVariables_keeps wf vars' name

def absorbAll (operands : List Pattern) : List Renaming × Composition :=
  (operands.mapM absorb).run ⟨∅, ∅⟩

theorem run_mapM_absorb (operand : Pattern) (rest : List Pattern) (c : Composition) :
    ((operand :: rest).mapM absorb).run c =
      (((absorb operand).run c).1 :: ((rest.mapM absorb).run ((absorb operand).run c).2).1,
        ((rest.mapM absorb).run ((absorb operand).run c).2).2) := by
  rw [List.mapM_cons]
  rfl

theorem mapM_absorb_describes {operands : List Pattern}
    (wf : ∀ operand ∈ operands, operand.net.WellFormed) {parts : List (Pattern × Renaming)}
    {c : Composition} (h : (Blueprint.ofParts parts).Describes c) :
    let a := (operands.mapM absorb).run c
    a.1.length = operands.length ∧
      (Blueprint.ofParts (parts ++ operands.zip a.1)).Describes a.2 := by
  induction operands generalizing parts c with
  | nil =>
    rw [List.mapM_nil]
    exact ⟨rfl, by rwa [List.zip_nil_left, List.append_nil]⟩
  | cons operand rest ih =>
    have first := absorb_describes (wf operand List.mem_cons_self) h
    obtain ⟨length, described⟩ := ih (fun o ho => wf o (List.mem_cons_of_mem operand ho)) first
    rw [run_mapM_absorb]
    refine ⟨congrArg (· + 1) length, ?_⟩
    rwa [List.zip_cons_cons, List.append_cons]

theorem absorbAll_append (earlier later : List Pattern) : absorbAll (earlier ++ later) =
    ((absorbAll earlier).1 ++ ((later.mapM absorb).run (absorbAll earlier).2).1,
      ((later.mapM absorb).run (absorbAll earlier).2).2) := by
  rw [absorbAll, List.mapM_append]
  rfl

end Compose

namespace Composition

/-- What the first composition has is what the other has first. -/
structure Extends (c d : Composition) : Prop where
  places : c.net.places.entries <+: d.net.places.entries
  transitions : c.net.transitions.entries <+: d.net.transitions.entries
  vars : c.net.vars.entries <+: d.net.vars.entries
  activities : c.activities.entries <+: d.activities.entries

/-- Copies of the operands in their order, each element under a name of its own, and nothing else. -/
structure Copies (operands : List Pattern) (r : Fin operands.length → Renaming)
    (c : Composition) : Prop where
  places : c.net.places.entries =
    (List.finRange operands.length).flatMap fun i => (r i).placeEntries (operands.get i).net
  transitions : c.net.transitions.entries =
    (List.finRange operands.length).flatMap fun i => (r i).transitionEntries (operands.get i).net
  vars : c.net.vars.entries =
    (List.finRange operands.length).flatMap fun i => (r i).variableEntries (operands.get i).net
  activities : c.activities.entries =
    (List.finRange operands.length).flatMap fun i => (r i).activityEntries (operands.get i)
  place_inj : ∀ i j p q, p ∈ (operands.get i).net.places.keys →
    q ∈ (operands.get j).net.places.keys →
      (r i).place p = (r j).place q → i = j ∧ p = q
  transition_inj : ∀ i j t u, t ∈ (operands.get i).net.transitions.keys →
    u ∈ (operands.get j).net.transitions.keys →
      (r i).transition t = (r j).transition u → i = j ∧ t = u
  variable_inj : ∀ i j v w, v ∈ (operands.get i).net.vars.keys →
    w ∈ (operands.get j).net.vars.keys →
      (r i).variableName v = (r j).variableName w → i = j ∧ v = w

theorem Copies.activity?_copy {operands : List Pattern} {r : Fin operands.length → Renaming}
    {c : Composition} (h : c.Copies operands r) {i : Fin operands.length} {t : TransitionId}
    {x : Transition} (hx : (operands.get i).net.transition? t = some x) :
    c.activities.get? ((r i).transition t) = (operands.get i).activity? t := by
  have shown : ∀ name, c.activities.get? ((r i).transition t) = some name ↔
      (operands.get i).activity? t = some name := by
    intro name
    rw [OrderedMap.get?_eq_some, h.activities]
    simp only [Renaming.activityEntries, List.mem_flatMap, List.mem_finRange, true_and,
      Option.mem_toList, Option.map_eq_some_iff, Prod.mk.injEq, Prod.exists]
    constructor
    · rintro ⟨j, u, y, hy, name', named, same, rfl⟩
      have hu := OrderedMap.mem_keys_of_get? (OrderedMap.get?_eq_some.2 hy)
      obtain ⟨rfl, rfl⟩ :=
        h.transition_inj j i u t hu (OrderedMap.mem_keys_of_get? hx) same
      exact named
    · exact fun named => ⟨i, t, x, OrderedMap.get?_eq_some.1 hx, name, named, rfl, rfl⟩
  exact Option.ext shown

end Composition

namespace Blueprint.Describes

variable {operands : List Pattern} {r : Fin operands.length → Renaming} {c d : Composition}

theorem copies (h : (ofParts ((List.finRange operands.length).map fun i =>
    (operands.get i, r i))).Describes c) : c.Copies operands r := by
  have places := h.places
  have transitions := h.transitions
  have vars := h.vars
  have activities := h.activities
  simp only [ofParts, List.flatMap_map, List.map_nil, List.append_nil] at places transitions
  simp only [ofParts, List.flatMap_map] at vars activities
  have all : ∀ i, i ∈ List.finRange operands.length := List.mem_finRange
  exact ⟨places, transitions, vars, activities,
    fun i j _ _ => OrderedMap.eq_of_entries places (all i) (all j),
    fun i j _ _ => OrderedMap.eq_of_entries transitions (all i) (all j),
    fun i j _ _ => OrderedMap.eq_of_entries vars (all i) (all j)⟩

theorem extends_ofParts {parts more : List (Pattern × Renaming)}
    (h : (ofParts parts).Describes c) (h' : (ofParts (parts ++ more)).Describes d) :
    c.Extends d := by
  have first : ∀ {E : Type} (f : Pattern × Renaming → List E),
      parts.flatMap f <+: (parts ++ more).flatMap f := fun f => by
    rw [List.flatMap_append]
    exact List.prefix_append _ _
  constructor
  · rw [h.places, h'.places]
    simpa only [ofParts, List.map_nil, List.append_nil] using first _
  · rw [h.transitions, h'.transitions]
    simpa only [ofParts, List.map_nil, List.append_nil] using first _
  · rw [h.vars, h'.vars]
    exact first _
  · rw [h.activities, h'.activities]
    exact first _

end Blueprint.Describes

namespace Compose

variable {operands : List Pattern} (wf : ∀ operand ∈ operands, operand.net.WellFormed)

include wf

theorem absorbAll_describes : ∃ r : Fin operands.length → Renaming,
    (absorbAll operands).1 = List.ofFn r ∧
      (Blueprint.ofParts ((List.finRange operands.length).map fun i =>
        (operands.get i, r i))).Describes (absorbAll operands).2 := by
  obtain ⟨length, described⟩ := mapM_absorb_describes wf Blueprint.describes_empty
  have listed : ∀ {n : ℕ} (rs : List Renaming), rs.length = n →
      ∃ r : Fin n → Renaming, rs = List.ofFn r := by
    rintro _ rs rfl
    exact ⟨rs.get, (List.ofFn_get rs).symm⟩
  obtain ⟨r, hr⟩ := listed _ length
  have parts : operands.zip (List.ofFn r) =
      (List.finRange operands.length).map fun i => (operands.get i, r i) := by
    rw [Pattern.zip_eq_map_finRange List.length_ofFn]
    simp
  rw [hr, List.nil_append, parts] at described
  exact ⟨r, hr, described⟩

theorem absorbAll_keeps {r : Fin operands.length → Renaming}
    (hr : (absorbAll operands).1 = List.ofFn r) (i : Fin operands.length) (first : i.val = 0) :
    (r i).Keeps := by
  have at_i : (absorbAll operands).1[i.val]? = some (r i) := by simp [hr]
  rcases operands with _ | ⟨operand, rest⟩
  · exact i.elim0
  · rw [absorbAll, run_mapM_absorb, first, List.getElem?_cons_zero] at at_i
    rw [← Option.some.inj at_i]
    exact absorb_keeps (wf operand List.mem_cons_self) (fun _ _ => nofun) (fun _ _ => nofun)
      fun _ _ => nofun

theorem absorbAll_extends {earlier later : List Pattern} (parts : operands = earlier ++ later) :
    (absorbAll earlier).1 <+: (absorbAll operands).1 ∧
      (absorbAll earlier).2.Extends (absorbAll operands).2 := by
  subst parts
  obtain ⟨-, described⟩ := mapM_absorb_describes
    (fun o ho => wf o (List.mem_append_left later ho)) Blueprint.describes_empty
  obtain ⟨-, described'⟩ := mapM_absorb_describes
    (fun o ho => wf o (List.mem_append_right earlier ho)) described
  rw [absorbAll_append]
  exact ⟨List.prefix_append _ _, described.extends_ofParts described'⟩

end Compose

/-- Whatever operands are absorbed, each one's elements go to names that no other element of any
operand has gone to, and what comes about are their copies and nothing else. What is absorbed later
changes nothing, and the first operand keeps all its names. The guard of a copy answers as the one it
was copied from, and goes on to do so whatever becomes of the variables of other copies. -/
theorem Built.absorb_copies {operands : List Pattern}
    (built : ∀ P ∈ operands, Built (.pattern P)) :
    ∃ r : Fin operands.length → Renaming,
      (Compose.absorbAll operands).1 = List.ofFn r ∧
      (Compose.absorbAll operands).2.Copies operands r ∧
      (∀ i, i.val = 0 → (r i).Keeps) ∧
      (∀ earlier later, operands = earlier ++ later →
        (Compose.absorbAll earlier).1 <+: (Compose.absorbAll operands).1 ∧
          (Compose.absorbAll earlier).2.Extends (Compose.absorbAll operands).2) ∧
      ∀ i t x, (operands.get i).net.transition? t = some x → ∃ y,
        (Compose.absorbAll operands).2.net.transition? ((r i).transition t) = some y ∧
        y.inputs.toList = x.inputs.toList.map (r i).place ∧
        y.outputs.toList = x.outputs.toList.map (r i).place ∧
        (Compose.absorbAll operands).2.activities.get? ((r i).transition t) =
          (operands.get i).activity? t ∧
        y.accepts (Compose.absorbAll operands).2.net.vars =
          (x.accepts (operands.get i).net.vars).mapError (.renameVariable (r i).variableName) ∧
        ∀ j ≠ i, ∀ V W : Variables,
          (∀ name, (∀ v ∈ (operands.get j).net.vars.keys, (r j).variableName v ≠ name) →
            V.get? name = W.get? name) → y.accepts V = y.accepts W := by
  have wf : ∀ P ∈ operands, P.net.WellFormed := fun P hP =>
    Pattern.WellFormed.net (built P hP).wellFormed
  obtain ⟨r, hr, described⟩ := Compose.absorbAll_describes wf
  have copies := described.copies
  refine ⟨r, hr, copies, Compose.absorbAll_keeps wf hr,
    fun _ _ => Compose.absorbAll_extends wf, fun i t x hx => ?_⟩
  have wf_i := wf (operands.get i) (List.get_mem operands i)
  have part : (operands.get i, r i) ∈ (Blueprint.ofParts ((List.finRange operands.length).map
      fun i => (operands.get i, r i))).parts := List.mem_map_of_mem (List.mem_finRange i)
  have inj : ∀ p ∈ (operands.get i).net.places.keys, ∀ q ∈ (operands.get i).net.places.keys,
      (r i).place p = (r i).place q → p = q := fun p hp q hq eq =>
    (copies.place_inj i i p q hp hq eq).2
  have admits := wf_i.admits hx
  refine ⟨_, described.transition?_copy part hx, ?_, ?_, copies.activity?_copy hx,
    described.accepts_copy part wf_i hx, ?_⟩
  · exact OrderedSet.toList_map fun p hp q hq => inj p (admits.inputs p hp) q (admits.inputs q hq)
  · exact OrderedSet.toList_map fun p hp q hq => inj p (admits.outputs p hp) q (admits.outputs q hq)
  · intro j ne V W alike
    refine Guard.accepts_congr fun name hn => ?_
    obtain ⟨v, hv, rfl⟩ := List.mem_map.1 (Guard.reads_rename _ x.guard ▸ hn)
    have other : V.get? ((r i).variableName v) = W.get? ((r i).variableName v) :=
      alike _ fun w hw eq => ne (copies.variable_inj j i w v hw (admits.reads v hv) eq).1
    rw [Variables.read, Variables.read, other]

def Net.metered : Net :=
  .after [.addPlace (.blank ⟨"start"⟩), .addPlace (.blank ⟨"end"⟩),
    .addVariable (.declare "load" .int), .addTransition (.bare ⟨"work"⟩ "work" true),
    .connect ⟨"start"⟩ ⟨"work"⟩ ⟨"end"⟩,
    .setGuard ⟨"work"⟩ (.compare "load" .smaller (.int 4)), .setVariable "load" (.int 3)]

namespace Pattern

def metered : Pattern where
  net := .metered
  activities := .ofList [(⟨"work"⟩, "work")]
  source := ⟨"start"⟩
  sink := ⟨"end"⟩

theorem built_metered : Built (.pattern metered) :=
  have built : Built (.net .metered) := built_after _
  have ofNet : ofNet .metered (.uniform "work") = .ok metered := rfl
  built.ofNet ofNet

theorem metered_absorb_copies : ∃ r : Fin 2 → Renaming,
    (Compose.absorbAll [metered, metered]).1 = List.ofFn r ∧ (r 0).Keeps ∧
      (r 1).variableName "load" ≠ "load" ∧
      ∃ y, (Compose.absorbAll [metered, metered]).2.net.transition? ((r 1).transition ⟨"work"⟩) =
          some y ∧
        ∀ z, y.accepts ((Compose.absorbAll [metered, metered]).2.net.vars.insert "load" z) =
          .ok true := by
  have built : ∀ P ∈ [metered, metered], Built (.pattern P) := by
    intro P hP
    simp only [List.mem_cons, List.not_mem_nil, or_false, or_self] at hP
    exact hP ▸ built_metered
  obtain ⟨r, hr, copies, first, -, guards⟩ := Built.absorb_copies built
  have keeps := first 0 rfl
  have load : "load" ∈ metered.net.vars.keys := by decide +kernel
  have ne : (r 1).variableName "load" ≠ "load" := by
    intro eq
    have same := copies.variable_inj 1 0 "load" "load" load load
      (eq.trans (keeps.variableName "load").symm)
    exact absurd same.1 (by decide)
  have accepted : (metered.net.transition? ⟨"work"⟩).any
      (fun x => (x.accepts metered.net.vars).toOption == some true) = true := by decide +kernel
  obtain ⟨x, hx, accepted⟩ := (Option.any_eq_true _ _).1 accepted
  obtain ⟨y, hy, -, -, -, answers, others⟩ := guards 1 ⟨"work"⟩ x hx
  have ok : x.accepts metered.net.vars = .ok true := by
    have accepted := beq_iff_eq.1 accepted
    rcases h : x.accepts metered.net.vars with e | b <;> rw [h] at accepted <;> cases accepted
    rfl
  refine ⟨r, hr, keeps, ne, y, hy, fun z => ?_⟩
  rw [others 0 (by decide) _ (Compose.absorbAll [metered, metered]).2.net.vars, answers]
  · exact congrArg (Except.mapError _) ok
  · intro name other
    have : name ≠ "load" := fun eq => other "load" load (eq ▸ keeps.variableName "load")
    rw [OrderedMap.get?_insert, if_neg this]

end Pattern

end ProcessNet
