import ProcessNet.Interchange.Description
import ProcessNet.Interchange.DirectlyFollows
import ProcessNet.Proofs.Execution.Voting
import ProcessNet.Proofs.Pattern.Operators

/-!
What the operations can make. Nets and patterns are built from each other: a net by edits, runs,
reductions and readings, in each case also by those that stop half way, or as the net of a pattern; a
pattern from a net, by an operator from patterns, or by a completed reduction. Whatever is built is
well-formed, so the ends that a pattern remembers are the ends of its net and its names are complete.
-/

namespace ProcessNet

inductive Change
  | addPlace (p : Place)
  | addTransition (t : Transition)
  | addVariable (x : Variable)
  | connect (input : PlaceId) (t : TransitionId) (output : PlaceId)
  | addInputArc (p : PlaceId) (t : TransitionId)
  | addOutputArc (t : TransitionId) (p : PlaceId)
  | setGuard (t : TransitionId) (g : Guard)
  | setVariable (name : String) (v : Value)
  | setMarking (m : Marking)

def Change.edit : Change → Edit Unit
  | addPlace p => discard (Edit.addPlace p)
  | addTransition t => discard (Edit.addTransition t)
  | addVariable x => discard (Edit.addVariable x)
  | connect input t output => Edit.connect input t output
  | addInputArc p t => Edit.addInputArc p t
  | addOutputArc t p => Edit.addOutputArc t p
  | setGuard t g => Edit.setGuard t g
  | setVariable name v => Edit.setVariable name v
  | setMarking m => Edit.setMarking m

inductive Work
  | fire (t : TransitionId)
  | step (words : Words)
  | simulate (bound : ℕ) (words : Words)
  | prune
  | pruneExhaustively

def Work.run : Work → Run Unit
  | fire t => Run.fire t
  | step words => discard (Run.step words)
  | simulate bound words => discard (Run.simulate bound words)
  | prune => discard Run.prune
  | pruneExhaustively => discard Run.pruneExhaustively

inductive Artifact
  | net (net : Net)
  | pattern (pattern : Pattern)

inductive Built : Artifact → Prop
  | empty : Built (.net ∅)
  | change {net : Net} (c : Change) : Built (.net net) → Built (.net (endState (c.edit.run net)))
  | work {net : Net} (w : Work) :
      Built (.net net) → Built (.net (endState (w.run.run (.start net))).net)
  | toWorkflow {net : Net} : Built (.net net) → Built (.net net.toWorkflow)
  | ofDescription {d : Description} {net : Net} : Net.ofDescription d = .ok net → Built (.net net)
  | ofDirectlyFollows {pairs : List (String × String)} {net : Net} :
      Net.ofDirectlyFollows pairs = .ok net → Built (.net net)
  | netOf {P : Pattern} : Built (.pattern P) → Built (.net P.net)
  | ofNet {net : Net} {labels : Labels} {P : Pattern} :
      Built (.net net) → Pattern.ofNet net labels = .ok P → Built (.pattern P)
  | sequence {P Q : Pattern} :
      Built (.pattern P) → Built (.pattern Q) → Built (.pattern (.sequence P Q))
  | choice {P Q : Pattern} :
      Built (.pattern P) → Built (.pattern Q) → Built (.pattern (.choice P Q))
  | choiceList {Ps : List Pattern} {P : Pattern} :
      (∀ Q ∈ Ps, Built (.pattern Q)) → Pattern.choiceList Ps = .ok P → Built (.pattern P)
  | parallel {P Q : Pattern} :
      Built (.pattern P) → Built (.pattern Q) → Built (.pattern (.parallel P Q))
  | interleaving {P Q : Pattern} :
      Built (.pattern P) → Built (.pattern Q) → Built (.pattern (.interleaving P Q))
  | repetition {P : Pattern} : Built (.pattern P) → Built (.pattern (.repetition P))
  | prune {P : Pattern} {exhaustive : Bool} {report : PruneReport} :
      Built (.pattern P) → (P.prune exhaustive).report = .ok report →
        Built (.pattern (P.prune exhaustive).pattern)

open Net (KeepsForm Retokens)

theorem Change.edit_keepsForm (c : Change) : Evolves KeepsForm c.edit := by
  cases c with
  | addPlace p => exact (Edit.addPlace_keepsForm p).discard
  | addTransition t => exact (Edit.addTransition_keepsForm t).discard
  | addVariable x => exact (Edit.addVariable_keepsForm x).discard
  | connect input t output => exact Edit.connect_keepsForm input t output
  | addInputArc p t => exact Edit.addInputArc_keepsForm p t
  | addOutputArc t p => exact Edit.addOutputArc_keepsForm t p
  | setGuard t g => exact Edit.setGuard_keepsForm t g
  | setVariable name v => exact Edit.setVariable_keepsForm name v
  | setMarking m => exact Edit.setMarking_keepsForm m

theorem Work.run_keepsForm (w : Work) : Evolves (OnNet KeepsForm) w.run := by
  have retokens : ∀ {x : Run Unit}, Evolves (OnNet Retokens) x → Evolves (OnNet KeepsForm) x :=
    fun h => h.mono fun _ _ => Retokens.keepsForm
  have prunes : ∀ {x : Run PruneReport},
      Evolves (OnNet fun net net' => net.WellFormed → net.Pruned net') x →
        Evolves (OnNet KeepsForm) x :=
    fun h => h.mono fun _ _ pruned wf => (pruned wf).wellFormed wf
  cases w with
  | fire t => exact retokens (Run.fire_retokens t)
  | step words => exact retokens (Run.step_retokens words).discard
  | simulate bound words => exact retokens (Run.simulate_retokens words bound).discard
  | prune => exact (prunes Run.prune_prunes).discard
  | pruneExhaustively => exact (prunes Run.pruneExhaustively_prunes).discard

namespace Edit

theorem addDescription_keepsForm (d : Description) : Evolves KeepsForm (addDescription d) := by
  refine (Evolves.forM fun p _ => (addPlace_keepsForm _).discard).bind fun _ => ?_
  refine (Evolves.forM fun t _ => (addTransition_keepsForm _).discard).bind fun _ => ?_
  refine Evolves.forM fun a _ => ?_
  rw [addArc]
  split
  · exact addInputArc_keepsForm _ _
  · exact addOutputArc_keepsForm _ _

theorem freshPlace_keepsForm (base : String) : Evolves KeepsForm (grow (Growth.freshPlace base)) :=
  fun _ wf => Growth.freshPlace_keepsForm wf base

theorem addFollows_keepsForm (pair : String × String) : Evolves KeepsForm (addFollows pair) :=
  (freshPlace_keepsForm _).bind fun _ => (addOutputArc_keepsForm _ _).bind fun _ =>
    addInputArc_keepsForm _ _

theorem addBoundary_keepsForm (pairs : List (String × String)) (name : String) :
    Evolves KeepsForm (addBoundary pairs name) := by
  have last : Evolves KeepsForm (do
      if !pairs.any (·.1 = name) then
        addOutputArc ⟨name⟩ (← grow (Growth.freshPlace (name ++ ">")))) := by
    split
    · exact (freshPlace_keepsForm _).bind fun _ => addOutputArc_keepsForm _ _
    · exact Evolves.pure _
  rw [addBoundary]
  split
  · exact (freshPlace_keepsForm _).bind fun _ => (addInputArc_keepsForm _ _).bind fun _ => last
  · exact last

end Edit

theorem Edit.build_wellFormed {edits : Edit Unit} (h : Evolves KeepsForm edits) {net : Net}
    (built : Edit.build edits = .ok net) : net.WellFormed := by
  rw [build] at built
  rcases run : edits.run ∅ with ⟨_, net'⟩ | ⟨e, net'⟩ <;> rw [run] at built
  · cases built
    exact h.ok run .empty
  · cases built

def Artifact.WellFormed : Artifact → Prop
  | .net n => n.WellFormed
  | .pattern P => P.WellFormed

theorem Built.wellFormed {a : Artifact} (built : Built a) : a.WellFormed := by
  induction built with
  | empty => exact Net.WellFormed.empty
  | change c _ wf => exact c.edit_keepsForm _ wf
  | work w _ wf => exact w.run_keepsForm (.start _) wf
  | toWorkflow _ wf => exact Net.toWorkflow_keepsForm wf
  | ofDescription h => exact Edit.build_wellFormed (Edit.addDescription_keepsForm _) h
  | ofDirectlyFollows h =>
    refine Edit.build_wellFormed ?_ h
    exact (Evolves.forM fun name _ => (Edit.addTransition_keepsForm _).discard).bind fun _ =>
      (Evolves.forM fun pair _ => Edit.addFollows_keepsForm pair).bind fun _ =>
        Evolves.forM fun name _ => Edit.addBoundary_keepsForm _ name
  | netOf _ wf => exact wf.net
  | ofNet _ h wf => exact Pattern.wellFormed_of_ofNet wf h
  | sequence _ _ hP hQ => exact (Pattern.sequence_joins hP hQ).1
  | choice _ _ hP hQ => exact (Pattern.choice_joins hP hQ).1
  | choiceList _ h hPs => exact Pattern.choiceList_wellFormed hPs h
  | parallel _ _ hP hQ => exact (Pattern.parallel_joins hP hQ).1
  | interleaving _ _ hP hQ => exact (Pattern.interleaving_joins hP hQ).1
  | repetition _ hP => exact Pattern.repetition_wellFormed hP
  | prune _ h wf => exact wf.prune h

/-- Of every pattern the ends are found again, visible transitions and names belong together, and the
parts make the same pattern. -/
theorem Built.pattern_complete {P : Pattern} (built : Built (.pattern P)) :
    P.net.isWorkflow = true ∧ P.net.endpoints = .ok (P.source, P.sink) ∧
      (∀ t x, P.net.transition? t = some x → x.visible = true →
        ∃ name, P.activity? t = some name) ∧
      (∀ t name, P.activity? t = some name → ∃ x, P.net.transition? t = some x) ∧
      Pattern.ofNet P.net (.perTransition P.activities) = .ok P := by
  have wf : P.WellFormed := built.wellFormed
  refine ⟨wf.ends.isWorkflow wf.net, (Net.endpoints_eq_ok wf.net).2 wf.ends, fun t x hx visible => ?_,
    fun t name named => ?_, wf.ofNet_parts⟩
  · exact OrderedMap.mem_keys.1 (wf.labelled t x hx visible)
  · exact OrderedMap.mem_keys.1 (wf.known t (OrderedMap.mem_keys_of_get? named))

/-- The net that changes make of an empty one, one after the other and whether refused or not. -/
def Net.after (cs : List Change) : Net :=
  cs.foldl (fun net c => endState (c.edit.run net)) ∅

theorem built_foldl (cs : List Change) {net : Net} (built : Built (.net net)) :
    Built (.net (cs.foldl (fun net c => endState (c.edit.run net)) net)) := by
  induction cs generalizing net with
  | nil => exact built
  | cons c rest ih => exact ih (built.change c)

theorem built_after (cs : List Change) : Built (.net (Net.after cs)) := built_foldl cs .empty

/-- In whatever net is built, elements carry the ids they are kept under and no two of a kind share
one, arcs end at places of the net, guards read variables of the net, and a value that a variable has is
one that it admits. -/
theorem Built.net_intact {net : Net} (built : Built (.net net)) :
    (net.places.values.map Place.id = net.places.keys ∧
      net.transitions.values.map Transition.id = net.transitions.keys ∧
      net.vars.values.map Variable.name = net.vars.keys) ∧
    ((net.places.values.map Place.id).Nodup ∧ (net.transitions.values.map Transition.id).Nodup ∧
      (net.vars.values.map Variable.name).Nodup) ∧
    (∀ t x, net.transition? t = some x →
      (∀ p, p ∈ x.inputs ∨ p ∈ x.outputs → ∃ y, net.place? p = some y) ∧
        ∀ name ∈ x.guard.reads, ∃ z, net.namedVariable? name = some z) ∧
    ∀ name z v, net.namedVariable? name = some z → z.value = some v → z.validate v = .ok () := by
  have wf : net.WellFormed := built.wellFormed
  refine ⟨⟨wf.place_ids, wf.transition_ids, wf.variable_names⟩, ⟨?_, ?_, ?_⟩,
    fun t x hx => ⟨?_, fun name hn => ?_⟩, fun name z v hz hv => wf.valid hz hv⟩
  · exact wf.place_ids ▸ net.places.nodup_keys
  · exact wf.transition_ids ▸ net.transitions.nodup_keys
  · exact wf.variable_names ▸ net.vars.nodup_keys
  · rintro p (hp | hp)
    · exact OrderedMap.mem_keys.1 ((wf.admits hx).inputs p hp)
    · exact OrderedMap.mem_keys.1 ((wf.admits hx).outputs p hp)
  · exact OrderedMap.mem_keys.1 ((wf.admits hx).reads name hn)

/-- A guarded task that is not left half done by the changes that are refused: an arc from a place that
there is not, a guard on a variable that there is not, and a value out of bounds. -/
def Net.guarded : Net :=
  .after [.addPlace (.blank ⟨"start"⟩), .addPlace (.blank ⟨"end"⟩),
    .addVariable { Variable.declare "load" .int with upper := some (.ofInt 5) },
    .addTransition (.bare ⟨"work"⟩ "work" true), .connect ⟨"start"⟩ ⟨"work"⟩ ⟨"end"⟩,
    .addInputArc ⟨"store"⟩ ⟨"work"⟩, .setGuard ⟨"work"⟩ (.compare "load" .smaller (.int 4)),
    .setGuard ⟨"work"⟩ (.truth "ready" true), .setVariable "load" (.int 3),
    .setVariable "load" (.int 7)]

theorem guarded_intact : ∃ x z v, Net.guarded.transition? ⟨"work"⟩ = some x ∧
    "load" ∈ x.guard.reads ∧ Net.guarded.namedVariable? "load" = some z ∧ z.value = some v ∧
      v.text = "3" ∧ z.validate v = .ok () := by
  have built : Built (.net .guarded) := built_after _
  obtain ⟨-, -, refers, valid⟩ := built.net_intact
  have reads : (Net.guarded.transition? ⟨"work"⟩).any ("load" ∈ ·.guard.reads) = true := by
    decide +kernel
  obtain ⟨x, hx, reads⟩ := (Option.any_eq_true _ _).1 reads
  have reads := of_decide_eq_true reads
  obtain ⟨z, hz⟩ := (refers _ x hx).2 "load" reads
  have value : (Net.guarded.namedVariable? "load").bind (·.value.map Value.text) = some "3" := by
    decide +kernel
  rw [hz, Option.bind_some] at value
  obtain ⟨v, hv, text⟩ := Option.map_eq_some_iff.1 value
  exact ⟨x, z, v, hx, reads, hz, hv, text, valid "load" z v hz hv⟩

def Net.task : Net :=
  .after [.addPlace (.blank ⟨"start"⟩), .addPlace (.blank ⟨"end"⟩),
    .addTransition (.bare ⟨"work"⟩ "work" true), .connect ⟨"start"⟩ ⟨"work"⟩ ⟨"end"⟩]

namespace Pattern

def task : Pattern where
  net := .task
  activities := .ofList [(⟨"work"⟩, "work")]
  source := ⟨"start"⟩
  sink := ⟨"end"⟩

theorem built_task : Built (.pattern task) :=
  have built : Built (.net .task) := built_after _
  have ofNet : ofNet .task (.uniform "work") = .ok task := rfl
  built.ofNet ofNet

theorem sequence_task_complete :
    (sequence task (repetition task)).net.endpoints =
      .ok ((sequence task (repetition task)).source, (sequence task (repetition task)).sink) :=
  (Built.pattern_complete (.sequence built_task (.repetition built_task))).2.1

end Pattern

end ProcessNet
