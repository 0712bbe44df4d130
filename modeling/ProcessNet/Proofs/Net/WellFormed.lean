import ProcessNet.Proofs.Execution.Evolution
import ProcessNet.Proofs.Net.Edit
import ProcessNet.Proofs.Net.Tokens

/-!
Well-formed nets: every element carries the id it is kept under, arcs end at places of the net,
guards read variables of the net, and a variable that has a value has a valid one. Every edit keeps
nets well-formed, whether it answers or is refused, because its checks come before its change.
-/

namespace ProcessNet

namespace Net

structure Admits (net : Net) (x : Transition) : Prop where
  inputs : ∀ p ∈ x.inputs, p ∈ net.places.keys
  outputs : ∀ p ∈ x.outputs, p ∈ net.places.keys
  reads : ∀ name ∈ x.guard.reads, name ∈ net.vars.keys

structure WellFormed (net : Net) : Prop where
  place_id : ∀ {p x}, net.place? p = some x → x.id = p
  transition_id : ∀ {t x}, net.transition? t = some x → x.id = t
  variable_name : ∀ {name x}, net.namedVariable? name = some x → x.name = name
  admits : ∀ {t x}, net.transition? t = some x → net.Admits x
  valid : ∀ {name x v}, net.namedVariable? name = some x → x.value = some v →
    x.validate v = .ok ()

variable {net net' : Net} {x : Transition}

theorem Admits.mono (h : net.Admits x) (places : net.places.keys ⊆ net'.places.keys)
    (vars : net.vars.keys ⊆ net'.vars.keys) : net'.Admits x :=
  ⟨fun p hp => places (h.inputs p hp), fun p hp => places (h.outputs p hp),
    fun name hn => vars (h.reads name hn)⟩

theorem keys_insert_subset {κ β : Type} [DecidableEq κ] (m : OrderedMap κ β) (k : κ) (v : β) :
    m.keys ⊆ (m.insert k v).keys := by
  intro k' hk
  rw [OrderedMap.keys_insert]
  split
  · exact hk
  · exact List.mem_append_left _ hk

namespace WellFormed

theorem empty : (∅ : Net).WellFormed where
  place_id h := nomatch h
  transition_id h := nomatch h
  variable_name h := nomatch h
  admits h := nomatch h
  valid h := nomatch h

theorem mem_enabled (wf : net.WellFormed) :
    x ∈ net.enabled ↔ net.transition? x.id = some x ∧ net.isEnabled x = true := by
  rw [enabled, List.mem_filter, OrderedMap.mem_values]
  refine and_congr_left fun _ => ⟨?_, fun hx => ⟨x.id, hx⟩⟩
  rintro ⟨t, hx⟩
  obtain rfl := wf.transition_id hx
  exact hx

theorem withTokens (wf : net.WellFormed) (M : PlaceId → ℕ) : (net.withTokens M).WellFormed where
  place_id h := by
    rw [place?_withTokens] at h
    obtain ⟨y, hy, rfl⟩ := Option.map_eq_some_iff.1 h
    exact (wf.place_id hy :)
  transition_id := wf.transition_id
  variable_name := wf.variable_name
  admits h := (wf.admits h).mono (by simp) (by simp)
  valid := wf.valid

theorem insertPlace (wf : net.WellFormed) (p : Place) :
    ({ net with places := net.places.insert p.id p } : Net).WellFormed where
  place_id h := by
    rw [place?, OrderedMap.get?_insert] at h
    split at h
    · next eq => cases h; exact eq.symm
    · exact wf.place_id h
  transition_id := wf.transition_id
  variable_name := wf.variable_name
  admits h := (wf.admits h).mono (keys_insert_subset _ _ _) (List.Subset.refl _)
  valid := wf.valid

theorem insertTransition (wf : net.WellFormed) {x : Transition} (hx : net.Admits x) :
    ({ net with transitions := net.transitions.insert x.id x } : Net).WellFormed where
  place_id := wf.place_id
  transition_id h := by
    rw [transition?, OrderedMap.get?_insert] at h
    split at h
    · next eq => cases h; exact eq.symm
    · exact wf.transition_id h
  variable_name := wf.variable_name
  admits h := by
    rw [transition?, OrderedMap.get?_insert] at h
    split at h
    · cases h; exact ⟨hx.inputs, hx.outputs, hx.reads⟩
    · exact ⟨(wf.admits h).inputs, (wf.admits h).outputs, (wf.admits h).reads⟩
  valid := wf.valid

theorem modifyTransition (wf : net.WellFormed) {t : TransitionId} {f : Transition → Transition}
    (id : ∀ x, (f x).id = x.id) (admits : ∀ x, net.Admits x → net.Admits (f x)) :
    ({ net with transitions := net.transitions.modify t f } : Net).WellFormed where
  place_id := wf.place_id
  transition_id h := by
    rw [transition?, OrderedMap.get?_modify] at h
    split at h
    · obtain ⟨x, hx, rfl⟩ := Option.map_eq_some_iff.1 h
      rw [id, wf.transition_id hx]
    · exact wf.transition_id h
  variable_name := wf.variable_name
  admits h := by
    rw [transition?, OrderedMap.get?_modify] at h
    split at h
    · obtain ⟨x, hx, rfl⟩ := Option.map_eq_some_iff.1 h
      have := admits x (wf.admits hx)
      exact ⟨this.inputs, this.outputs, this.reads⟩
    · exact ⟨(wf.admits h).inputs, (wf.admits h).outputs, (wf.admits h).reads⟩
  valid := wf.valid

theorem insertVariable (wf : net.WellFormed) {x : Variable}
    (hx : ∀ v, x.value = some v → x.validate v = .ok ()) :
    ({ net with vars := net.vars.insert x.name x } : Net).WellFormed where
  place_id := wf.place_id
  transition_id := wf.transition_id
  variable_name h := by
    rw [namedVariable?, OrderedMap.get?_insert] at h
    split at h
    · next eq => cases h; exact eq.symm
    · exact wf.variable_name h
  admits h := (wf.admits h).mono (List.Subset.refl _) (keys_insert_subset _ _ _)
  valid h hv := by
    rw [namedVariable?, OrderedMap.get?_insert] at h
    split at h
    · cases h; exact hx _ hv
    · exact wf.valid h hv

theorem modifyVariable (wf : net.WellFormed) {name : String} {v : Value}
    (hv : ∀ x, net.namedVariable? name = some x → x.unsuitable? v = none) :
    ({ net with vars := net.vars.modify name fun x => { x with value := some v } } :
      Net).WellFormed where
  place_id := wf.place_id
  transition_id := wf.transition_id
  variable_name h := by
    rw [namedVariable?, OrderedMap.get?_modify] at h
    split at h
    · obtain ⟨x, hx, rfl⟩ := Option.map_eq_some_iff.1 h
      exact (wf.variable_name hx :)
    · exact wf.variable_name h
  admits h := (wf.admits h).mono (List.Subset.refl _) (by
    rw [OrderedMap.keys_modify]; exact List.Subset.refl _)
  valid {_ _ w} h hw := by
    rw [namedVariable?, OrderedMap.get?_modify] at h
    split at h
    · next eq =>
      obtain ⟨x, hx, rfl⟩ := Option.map_eq_some_iff.1 h
      obtain rfl : v = w := Option.some.inj hw
      have : x.unsuitable? v = none := hv x (eq ▸ hx)
      have : ({ x with value := some v } : Variable).unsuitable? v = none := this
      rw [Variable.validate, this]
    · exact wf.valid h hw

end WellFormed

def KeepsForm (net net' : Net) : Prop := net.WellFormed → net'.WellFormed

instance : Std.Refl KeepsForm := ⟨fun _ => id⟩

instance : IsTrans Net KeepsForm := ⟨fun _ _ _ h h' wf => h' (h wf)⟩

end Net

namespace Edit

open Net (KeepsForm WellFormed)

theorem addPlace_keepsForm (p : Place) : Evolves KeepsForm (addPlace p) := by
  intro net wf
  rw [run_addPlace]
  split
  · exact wf
  · exact wf.insertPlace p

theorem addTransition_keepsForm (t : Transition) : Evolves KeepsForm (addTransition t) := by
  intro net wf
  rw [run_addTransition]
  split
  · exact wf
  rcases hi : t.inputs.toList.find? _ with _ | p
  · rcases ho : t.outputs.toList.find? _ with _ | q
    · rcases hr : t.guard.reads.find? _ with _ | name
      · refine wf.insertTransition ⟨fun p hp => ?_, fun p hp => ?_, fun name hn => ?_⟩
        · simpa using List.find?_eq_none.1 hi p hp
        · simpa using List.find?_eq_none.1 ho p hp
        · simpa using List.find?_eq_none.1 hr name hn
      · exact wf
    · exact wf
  · exact wf

theorem addVariable_keepsForm (x : Variable) : Evolves KeepsForm (addVariable x) := by
  intro net wf
  rw [run_addVariable]
  split
  · exact wf
  rcases h : x.value.bind x.unsuitable? with _ | reason
  · refine wf.insertVariable fun v hv => ?_
    rw [hv, Option.bind_some] at h
    rw [Variable.validate, h]
  · exact wf

theorem updateTransition_keepsForm {t : TransitionId} {f : Transition → Transition} {net : Net}
    (wf : net.WellFormed) (id : ∀ x, (f x).id = x.id)
    (admits : ∀ x, net.Admits x → net.Admits (f x)) :
    (endState ((updateTransition t f).run net)).WellFormed := by
  rw [run_updateTransition]
  split
  · exact wf.modifyTransition id admits
  · exact wf

theorem connect_keepsForm (input : PlaceId) (t : TransitionId) (output : PlaceId) :
    Evolves KeepsForm (connect input t output) := by
  intro net wf
  rw [run_connect]
  split
  · next hi =>
    split
    · next ho =>
      refine updateTransition_keepsForm wf (fun _ => rfl) fun x hx => ⟨fun p hp => ?_,
        fun p hp => ?_, hx.reads⟩
      · rcases OrderedSet.mem_insert.1 hp with hp | rfl
        · exact hx.inputs p hp
        · exact hi
      · rcases OrderedSet.mem_insert.1 hp with hp | rfl
        · exact hx.outputs p hp
        · exact ho
    · exact wf
  · exact wf

theorem addInputArc_keepsForm (p : PlaceId) (t : TransitionId) :
    Evolves KeepsForm (addInputArc p t) := by
  intro net wf
  rw [run_addInputArc]
  split
  · next known =>
    refine updateTransition_keepsForm wf (fun _ => rfl) fun x hx => ⟨fun q hq => ?_,
      hx.outputs, hx.reads⟩
    rcases OrderedSet.mem_insert.1 hq with hq | rfl
    · exact hx.inputs q hq
    · exact known
  · exact wf

theorem addOutputArc_keepsForm (t : TransitionId) (p : PlaceId) :
    Evolves KeepsForm (addOutputArc t p) := by
  intro net wf
  rw [run_addOutputArc]
  split
  · next known =>
    refine updateTransition_keepsForm wf (fun _ => rfl) fun x hx => ⟨hx.inputs,
      fun q hq => ?_, hx.reads⟩
    rcases OrderedSet.mem_insert.1 hq with hq | rfl
    · exact hx.outputs q hq
    · exact known
  · exact wf

theorem setGuard_keepsForm (t : TransitionId) (g : Guard) : Evolves KeepsForm (setGuard t g) := by
  intro net wf
  rw [run_setGuard]
  rcases h : g.reads.find? _ with _ | name
  · refine updateTransition_keepsForm wf (fun _ => rfl) fun x hx => ⟨hx.inputs, hx.outputs,
      fun name hn => ?_⟩
    simpa using List.find?_eq_none.1 h name hn
  · exact wf

theorem setVariable_keepsForm (name : String) (v : Value) :
    Evolves KeepsForm (setVariable name v) := by
  intro net wf
  rw [run_setVariable]
  rcases hx : net.namedVariable? name with _ | x
  · exact wf
  · dsimp only
    rcases hr : x.unsuitable? v with _ | reason
    · refine wf.modifyVariable fun y hy => ?_
      obtain rfl := Option.some.inj (hx.symm.trans hy)
      exact hr
    · exact wf

theorem setMarking_eq_withTokens (m : Marking) (net : Net) :
    ({ net with places := net.places.mapValues fun p x =>
        { x with tokens := (m.counts.get? p).getD x.tokens } } : Net) =
      net.withTokens fun p => (m.counts.get? p).getD (net.tokens p) := by
  simp only [Net.withTokens]
  congr 1
  refine OrderedMap.mapValues_congr fun e he => ?_
  rw [Net.tokens_of_place? (OrderedMap.get?_eq_some.2 he)]

theorem setMarking_keepsForm (m : Marking) : Evolves KeepsForm (setMarking m) := by
  intro net wf
  rw [run_setMarking, setMarking_eq_withTokens]
  rcases m.entries.find? _ with _ | e
  · exact wf.withTokens _
  · exact wf

end Edit

end ProcessNet
