import ProcessNet.Proofs.Pattern.Soundness
import ProcessNet.Proofs.TokenGame.Words

/-!
The completed traces of compositions. The net of a composition plays the refined skeleton under other
names, and only moves of operands are visible, so its traces are what the refined skeleton spells. Of a
sequence these are concatenations, of an interleaving concatenations in either order, of a repetition
concatenations of any length, of a parallel composition shuffles and of a choice the traces of the
alternatives. Operands need not be sound: where nothing waits for an operand to have come to rest, it
may go on after it has been left.
-/

namespace ProcessNet

namespace Naming

variable {I S R : Type} {k : Skeleton I S R} {operand : I → Pattern} {result : Pattern}

abbrev refined [DecidableEq I] [DecidableEq S] (k : Skeleton I S R) (operand : I → Pattern) :
    Game (Site I PlaceId S) (Action I TransitionId R) :=
  k.refine (fun i => (operand i).net.game) (fun i => (operand i).source) fun i => (operand i).sink

abbrev shown (operand : I → Pattern) : Action I TransitionId R → Option String :=
  Action.label fun i => (operand i).visibleActivity?

namespace Assembles

variable {n : Naming I S R} (h : n.Assembles k operand result)

include h

theorem takes (operands : ∀ i, (operand i).Takes) (routes : ∀ r, k.take r ≠ []) :
    result.Takes := by
  intro t y hy none
  rcases h.transition?_eq_some.1 hy with ⟨i, u, w, hw, -, rfl⟩ | ⟨r, -, rfl⟩
  · obtain ⟨p, hp⟩ := List.exists_mem_of_ne_nil _ (operands i u w hw)
    have mem : (n.rename i).place p ∈ w.inputs.map (n.rename i).place :=
      OrderedSet.mem_map.2 ⟨p, hp, rfl⟩
    exact List.ne_nil_of_mem mem none
  · obtain ⟨x, hx⟩ := List.exists_mem_of_ne_nil _ (routes r)
    have mem := OrderedSet.mem_insertAll_empty.2
      (List.mem_map_of_mem (f := n.place) (List.mem_map_of_mem (f := port operand) hx))
    exact List.ne_nil_of_mem mem none

variable [DecidableEq I] [DecidableEq S] (wf : ∀ i, (operand i).WellFormed)

include wf

theorem visibleActivity?_transition {a : Action I TransitionId R}
    (known : (refined k operand).known a = true) :
    result.visibleActivity? (n.transition a) = shown operand a := by
  cases a with
  | route r =>
    have found := h.transition?_eq_some.2 (.inr ⟨r, rfl, rfl⟩)
    rw [Pattern.visibleActivity?, transition, found]
    rfl
  | inner i u =>
    obtain ⟨m, hm⟩ := Option.isSome_iff_exists.1 known
    obtain ⟨_, hg, -⟩ := Option.map_eq_some_iff.1 hm
    obtain ⟨w, hw, -⟩ := Option.map_eq_some_iff.1 hg
    have found := h.transition?_eq_some.2 (.inl ⟨i, u, w, hw, rfl, rfl⟩)
    rw [Pattern.visibleActivity?, found, shown, Action.label, Pattern.visibleActivity?, hw,
      Option.bind_some, Option.bind_some]
    cases visible : w.visible with
    | false => simp [Renaming.copy, visible]
    | true =>
      obtain ⟨name, named⟩ := OrderedMap.mem_keys.1 ((wf i).labelled u w hw visible)
      have copied := h.activity?_eq_some.2 ⟨i, u, w, hw, named, rfl⟩
      simp only [Renaming.copy, visible, if_true]
      exact copied.trans named.symm

theorem filterMap_transition {as : List (Action I TransitionId R)} {M N : Site I PlaceId S → ℕ}
    (run : (refined k operand).Runs M as N) :
    (as.map n.transition).filterMap result.visibleActivity? = as.filterMap (shown operand) := by
  rw [List.filterMap_map]
  exact List.filterMap_congr fun a ha => h.visibleActivity?_transition wf (run.known a ha)

theorem completedTrace_iff (ends : k.game.HasEnds k.source k.sink) {names : List String} :
    result.CompletedTrace names ↔ (refined k operand).Spells (port operand k.source)
      (port operand k.sink) (shown operand) names := by
  have copies := h.copies wf
  have start := Carries.single copies.inj (port_known wf k.source)
  have stop := Carries.single copies.inj (port_known wf k.sink)
  rw [(h.wellFormed wf ends).completedTrace_iff, h.source, h.sink]
  constructor
  · rintro ⟨ts, run, rfl⟩
    obtain ⟨as, M, rfl, run, reached⟩ := copies.runs_back run start
    obtain rfl := reached.left_unique stop
    exact ⟨as, run, (h.filterMap_transition wf run).symm⟩
  · rintro ⟨as, run, rfl⟩
    obtain ⟨N, run', reached⟩ := copies.runs run start
    obtain rfl := reached.right_unique stop
    exact ⟨_, run', h.filterMap_transition wf run⟩

end Assembles

end Naming

def Renaming.Empty (r : Renaming) (operand : Pattern) (net : Net) : Prop :=
  ∀ p ∈ operand.net.places.keys, ∃ x, net.place? (r.place p) = some x ∧ x.tokens = 0

/-- The end is marked before the last transition has fired. -/
def Net.hasty : Net :=
  .after [.addPlace (.blank ⟨"start"⟩), .addPlace (.blank ⟨"mid"⟩), .addPlace (.blank ⟨"end"⟩),
    .addTransition (.bare ⟨"work"⟩ "work" true), .addTransition (.bare ⟨"rest"⟩ "rest" true),
    .connect ⟨"start"⟩ ⟨"work"⟩ ⟨"end"⟩, .addOutputArc ⟨"work"⟩ ⟨"mid"⟩,
    .addInputArc ⟨"mid"⟩ ⟨"rest"⟩]

namespace Pattern

def hasty : Pattern where
  net := .hasty
  activities := .ofList [(⟨"work"⟩, "work"), (⟨"rest"⟩, "rest")]
  source := ⟨"start"⟩
  sink := ⟨"end"⟩

set_option maxRecDepth 20000 in
theorem built_hasty : Built (.pattern hasty) :=
  have built : Built (.net .hasty) := built_after _
  have ofNet : ofNet .hasty (.perTransition hasty.activities) = .ok hasty := rfl
  built.ofNet ofNet

theorem hasty_takes : hasty.Takes := by
  have all : ∀ x ∈ hasty.net.transitions.values, x.inputs.toList ≠ [] := by decide +kernel
  exact fun t x hx => all x (OrderedMap.mem_values.2 ⟨t, hx⟩)

theorem hasty_not_proper : ¬hasty.Proper := by
  intro proper
  have forced : hasty.started.forceAll? [⟨"work"⟩] = some _ := rfl
  have finished := proper _ ⟨_, forced⟩ (by decide +kernel)
  rw [Finished] at finished
  exact absurd finished (by decide +kernel)

theorem hasty_completedTrace : hasty.CompletedTrace ["work", "rest"] :=
  ⟨[⟨"work"⟩, ⟨"rest"⟩], by decide +kernel, by decide +kernel⟩

variable {P Q : Pattern}

section Operators

variable (hP : P.WellFormed) (hQ : Q.WellFormed)

include hP hQ

theorem pair_ends (i : Bool) :
    (pair P Q i).net.game.HasEnds (pair P Q i).source (pair P Q i).sink :=
  Net.game_hasEnds.2 (forall_pair hP hQ i).ends

theorem pair_proper (pP : P.Proper) (pQ : Q.Proper) (i : Bool) :
    (pair P Q i).net.game.Proper (pair P Q i).source (pair P Q i).sink :=
  (forall_pair hP hQ i).game_proper (forall_pair pP pQ i)

omit hP hQ in
theorem pair_takes (tP : P.Takes) (tQ : Q.Takes) (i : Bool) : (pair P Q i).net.game.Takes :=
  game_takes (forall_pair tP tQ i)

theorem interleaving_empty (tP : P.Takes) (tQ : Q.Takes) (pP : P.Proper) (pQ : Q.Proper) {net : Net}
    (reached : (interleaving P Q).Reaches net) :
    (copies P Q).1.Empty P net ∨ (copies P Q).2.Empty Q net := by
  have wf := forall_pair hP hQ
  obtain ⟨n, renames, assembles⟩ := interleaving_assembles_copies hP hQ
  obtain ⟨M', reach, rfl⟩ :=
    (assembles.wellFormed wf Skeleton.interleaving_hasEnds).reaches_iff.1 reached
  rw [assembles.source] at reach
  have copied := assembles.copies wf
  obtain ⟨M, reach, carried⟩ := copied.reaches_back reach
    (Carries.single copied.inj (Naming.Assembles.port_known wf _))
  obtain ⟨i, zero⟩ := Skeleton.interleaving_excludes (pair_takes tP tQ) (pair_ends hP hQ)
    (pair_proper hP hQ pP pQ) reach
  have empty : (n.rename i).Empty (pair P Q i) ((interleaving P Q).net.withTokens M') := by
    intro p hp
    obtain ⟨w, hw⟩ := OrderedMap.mem_keys.1 hp
    have found := assembles.place?_eq_some.2 (.inl ⟨i, p, w, hw, rfl, rfl⟩)
    exact ⟨_, Net.place?_withTokens_of_place? found, (carried.on (.inner i p) hp).trans (zero p)⟩
  rw [renames] at empty
  cases i with
  | false => exact .inl empty
  | true => exact .inr empty

theorem choice_traces (tP : P.Takes) (tQ : Q.Takes) {names : List String} :
    (choice P Q).CompletedTrace names ↔ P.CompletedTrace names ∨ Q.CompletedTrace names := by
  obtain ⟨n, assembles⟩ := choice_assembles hP hQ
  rw [assembles.completedTrace_iff (forall_pair hP hQ) (Skeleton.choice_hasEnds _ _),
    hP.completedTrace_iff, hQ.completedTrace_iff]
  refine (Skeleton.choice_spells_iff (pair_takes tP tQ) (pair_ends hP hQ)).trans ?_
  rw [Bool.exists_bool]
  rfl

theorem choice_takes (tP : P.Takes) (tQ : Q.Takes) : (choice P Q).Takes := by
  obtain ⟨n, assembles⟩ := choice_assembles hP hQ
  refine assembles.takes (forall_pair tP tQ) ?_
  rintro (_ | _) <;> exact List.cons_ne_nil _ _

end Operators

theorem foldl_choice_traces {Ps : List Pattern} (hPs : ∀ Q ∈ P :: Ps, Q.WellFormed ∧ Q.Takes)
    {names : List String} : (Ps.foldl choice P).CompletedTrace names ↔
      ∃ Q ∈ P :: Ps, Q.CompletedTrace names := by
  induction Ps generalizing P with
  | nil => simp
  | cons Q rest ih =>
    obtain ⟨⟨hP, tP⟩, ⟨hQ, tQ⟩, others⟩ :=
      (List.forall_mem_cons.1 hPs).imp_right List.forall_mem_cons.1
    obtain ⟨n, assembles⟩ := choice_assembles hP hQ
    have first : (choice P Q).WellFormed ∧ (choice P Q).Takes :=
      ⟨assembles.wellFormed (forall_pair hP hQ) (Skeleton.choice_hasEnds _ _),
        choice_takes hP hQ tP tQ⟩
    rw [List.foldl_cons, ih (List.forall_mem_cons.2 ⟨first, others⟩)]
    simp only [List.mem_cons, exists_eq_or_imp, choice_traces hP hQ tP tQ, or_assoc]

theorem task_takes : task.Takes := (task_isTask.soundSafe built_task.wellFormed).takes

theorem task_proper : task.Proper := (task_isTask.soundSafe built_task.wellFormed).proper

theorem task_completedTrace : task.CompletedTrace ["work"] :=
  ⟨[⟨"work"⟩], by decide +kernel, by decide +kernel⟩

/-- In an interleaving at most one of the operands holds tokens at a time, and the completed traces are
those of the one followed by those of the other, in either order. -/
theorem interleaving_traces (bP : Built (.pattern P)) (bQ : Built (.pattern Q)) (tP : P.Takes)
    (tQ : Q.Takes) (pP : P.Proper) (pQ : Q.Proper) :
    (∀ net, (interleaving P Q).Reaches net →
      (copies P Q).1.Empty P net ∨ (copies P Q).2.Empty Q net) ∧
    ∀ names, (interleaving P Q).CompletedTrace names ↔
      ∃ u v, P.CompletedTrace u ∧ Q.CompletedTrace v ∧ (names = u ++ v ∨ names = v ++ u) := by
  have hP : P.WellFormed := bP.wellFormed
  have hQ : Q.WellFormed := bQ.wellFormed
  refine ⟨fun net => interleaving_empty hP hQ tP tQ pP pQ, fun names => ?_⟩
  obtain ⟨n, assembles⟩ := interleaving_assembles hP hQ
  simp only [assembles.completedTrace_iff (forall_pair hP hQ) Skeleton.interleaving_hasEnds,
    hP.completedTrace_iff, hQ.completedTrace_iff]
  exact Skeleton.interleaving_spells_iff (pair_takes tP tQ) (pair_ends hP hQ)
    (pair_proper hP hQ pP pQ)

theorem task_interleaving_traces : (interleaving task task).CompletedTrace ["work", "work"] ∧
    ((copies task task).1.Empty task (interleaving task task).started ∨
      (copies task task).2.Empty task (interleaving task task).started) := by
  have traces := interleaving_traces built_task built_task task_takes task_takes task_proper
    task_proper
  exact ⟨(traces.2 _).2 ⟨_, _, task_completedTrace, task_completedTrace, .inl rfl⟩,
    traces.1 _ ⟨[], rfl⟩⟩

/-- The completed traces of a sequence are those of the first operand followed by those of the
second; nothing may be left of the first, but of the second there may. -/
theorem sequence_traces (bP : Built (.pattern P)) (bQ : Built (.pattern Q)) (tP : P.Takes)
    (tQ : Q.Takes) (pP : P.Proper) (names : List String) :
    (sequence P Q).CompletedTrace names ↔
      ∃ u v, P.CompletedTrace u ∧ Q.CompletedTrace v ∧ names = u ++ v := by
  have hP : P.WellFormed := bP.wellFormed
  have hQ : Q.WellFormed := bQ.wellFormed
  obtain ⟨n, assembles⟩ := sequence_assembles hP hQ
  simp only [assembles.completedTrace_iff (forall_pair hP hQ) Skeleton.sequence_hasEnds,
    hP.completedTrace_iff, hQ.completedTrace_iff]
  exact Skeleton.sequence_spells_iff (pair_takes tP tQ) (pair_ends hP hQ) (hP.game_proper pP)

theorem task_hasty_sequence_traces : ¬hasty.Proper ∧
    (sequence task hasty).CompletedTrace ["work", "work", "rest"] :=
  ⟨hasty_not_proper, (sequence_traces built_task built_hasty task_takes hasty_takes task_proper _).2
    ⟨_, _, task_completedTrace, hasty_completedTrace, rfl⟩⟩

/-- The completed traces of a parallel composition are the shuffles of those of its operands. -/
theorem parallel_traces (bP : Built (.pattern P)) (bQ : Built (.pattern Q)) (names : List String) :
    (parallel P Q).CompletedTrace names ↔
      ∃ u v, P.CompletedTrace u ∧ Q.CompletedTrace v ∧ Shuffle u v names := by
  have hP : P.WellFormed := bP.wellFormed
  have hQ : Q.WellFormed := bQ.wellFormed
  obtain ⟨n, assembles⟩ := parallel_assembles hP hQ
  simp only [assembles.completedTrace_iff (forall_pair hP hQ) Skeleton.parallel_hasEnds,
    hP.completedTrace_iff, hQ.completedTrace_iff]
  exact Skeleton.parallel_spells_iff (pair_ends hP hQ)

theorem hasty_task_parallel_traces :
    (parallel hasty task).CompletedTrace ["work", "work", "rest"] :=
  (parallel_traces built_hasty built_task _).2
    ⟨_, _, hasty_completedTrace, task_completedTrace, .left (.right (.left .nil))⟩

/-- The completed traces of a repetition are those of its operand, one or more of them one after the
other. -/
theorem repetition_traces (bP : Built (.pattern P)) (tP : P.Takes) (pP : P.Proper)
    (names : List String) : (repetition P).CompletedTrace names ↔
      ∃ ws : List (List String), ws ≠ [] ∧ (∀ w ∈ ws, P.CompletedTrace w) ∧ names = ws.flatten := by
  have hP : P.WellFormed := bP.wellFormed
  obtain ⟨n, assembles⟩ := repetition_assembles hP
  simp only [assembles.completedTrace_iff (fun _ => hP) Skeleton.repetition_hasEnds,
    hP.completedTrace_iff]
  exact Skeleton.repetition_spells_iff (game_takes tP) (Net.game_hasEnds.2 hP.ends)
    (hP.game_proper pP)

theorem task_repetition_traces : (repetition task).CompletedTrace ["work", "work", "work"] := by
  have each : ∀ w ∈ [["work"], ["work"], ["work"]], task.CompletedTrace w := by
    simp [task_completedTrace]
  exact (repetition_traces built_task task_takes task_proper _).2
    ⟨_, List.cons_ne_nil _ _, each, rfl⟩

/-- A choice of several alternatives has the completed traces that binary choices one after the other
have: those of all alternatives. -/
theorem choiceList_traces {Ps : List Pattern} (built : ∀ Q ∈ P :: Ps, Built (.pattern Q))
    (takes : ∀ Q ∈ P :: Ps, Q.Takes) : ∃ R, choiceList (P :: Ps) = .ok R ∧ ∀ names,
      (R.CompletedTrace names ↔ (Ps.foldl choice P).CompletedTrace names) ∧
        (R.CompletedTrace names ↔ ∃ Q ∈ P :: Ps, Q.CompletedTrace names) := by
  have wf : ∀ Q ∈ P :: Ps, Q.WellFormed := fun Q hQ => (built Q hQ).wellFormed
  obtain ⟨R, h⟩ : ∃ R, choiceList (P :: Ps) = .ok R := ⟨_, rfl⟩
  obtain ⟨n, assembles⟩ := choiceList_assembles wf h
  have nonempty := nonempty_of_choiceList h
  have operands := fun i : Fin (P :: Ps).length => List.getElem_mem i.isLt
  have union : ∀ names, R.CompletedTrace names ↔ ∃ Q ∈ P :: Ps, Q.CompletedTrace names := by
    intro names
    rw [assembles.completedTrace_iff (fun i => wf _ (operands i)) (Skeleton.choice_hasEnds _ _)]
    refine (Skeleton.choice_spells_iff (fun i => game_takes (takes _ (operands i)))
      fun i => Net.game_hasEnds.2 (wf _ (operands i)).ends).trans ?_
    constructor
    · rintro ⟨i, spells⟩
      exact ⟨_, operands i, (wf _ (operands i)).completedTrace_iff.2 spells⟩
    · rintro ⟨Q, hQ, trace⟩
      obtain ⟨i, hi, rfl⟩ := List.getElem_of_mem hQ
      exact ⟨⟨i, hi⟩, (wf _ hQ).completedTrace_iff.1 trace⟩
  refine ⟨R, h, fun names => ⟨(union names).trans ?_, union names⟩⟩
  exact (foldl_choice_traces fun Q hQ => ⟨wf Q hQ, takes Q hQ⟩).symm

theorem task_hasty_choiceList_traces : ∃ R, choiceList [task, hasty, task] = .ok R ∧
    R.CompletedTrace ["work", "rest"] ∧
      (choice (choice task hasty) task).CompletedTrace ["work", "rest"] := by
  have built : ∀ P ∈ [task, hasty, task], Built (.pattern P) := by simp [built_task, built_hasty]
  have takes : ∀ P ∈ [task, hasty, task], P.Takes := by simp [task_takes, hasty_takes]
  obtain ⟨R, h, traces⟩ := choiceList_traces built takes
  have trace := (traces ["work", "rest"]).2.2 ⟨hasty, by simp, hasty_completedTrace⟩
  exact ⟨R, h, trace, (traces _).1.1 trace⟩

end Pattern

end ProcessNet
