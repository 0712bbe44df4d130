import ProcessNet.Proofs.Pattern.Built
import ProcessNet.Proofs.Pattern.Completion

/-!
Soundness is closed under the operators. A pattern is sound and safe when no place ever holds two
tokens, nothing else is left when its sink is marked, completion is never lost, and every transition
has its occasion. This is soundness of its token game, which a composition inherits from its operands
through the skeleton of the operator.
-/

namespace ProcessNet

namespace Pattern

/-- Stated by forced firings from the initial marking. -/
structure SoundSafe (P : Pattern) : Prop where
  takes : ∀ t x, P.net.transition? t = some x → x.inputs.toList ≠ []
  safe : ∀ net, P.Reaches net → ∀ p, net.tokens p ≤ 1
  proper : ∀ net, P.Reaches net → 0 < net.tokens P.sink → P.Finished net
  completes : ∀ net, P.Reaches net → ∃ ts net', net.forceAll? ts = some net' ∧ P.Finished net'
  live : ∀ t x, P.net.transition? t = some x →
    ∃ net net', P.Reaches net ∧ net.force? t = some net'

variable {P Q : Pattern}

namespace WellFormed

variable (wf : P.WellFormed)

include wf

theorem game_sound (sound : P.SoundSafe) : P.net.game.Sound P.source P.sink := by
  refine ⟨game_takes sound.takes, ?_, wf.game_proper sound.proper, ?_, ?_⟩
  · intro M reach p
    have := sound.safe _ (wf.reaches_iff.2 ⟨M, reach, rfl⟩) p
    rwa [wf.tokens_reached reach] at this
  · intro M reach
    obtain ⟨us, net', forced, finished⟩ := sound.completes _ (wf.reaches_iff.2 ⟨M, reach, rfl⟩)
    obtain ⟨N, run', rfl⟩ := (Net.forceAll?_eq_some (wf.net.withTokens M)).1 forced
    rw [wf.tokens_reached reach, Net.game_withTokens] at run'
    obtain ⟨ts, run⟩ := reach
    rw [Net.withTokens_withTokens, wf.finished_iff (wf.support (run.append run'))] at finished
    exact ⟨us, finished ▸ run'⟩
  · intro t m h
    obtain ⟨x, hx, rfl⟩ := Option.map_eq_some_iff.1 h
    obtain ⟨net, net', reached, forced⟩ := sound.live t x hx
    obtain ⟨M, reach, rfl⟩ := wf.reaches_iff.1 reached
    obtain ⟨N, ⟨m, hm, fires⟩, -⟩ := (Net.force?_eq_some (wf.net.withTokens M)).1 forced
    rw [wf.tokens_reached reach] at fires
    obtain rfl := Option.some.inj (hm.symm.trans h)
    exact ⟨M, N, reach, fires⟩

theorem soundSafe (sound : P.net.game.Sound P.source P.sink) : P.SoundSafe := by
  constructor
  · intro t x hx none
    obtain ⟨p, hp⟩ := sound.takes t x.move (Net.game_eq_some hx)
    have hp := Transition.take_move_pos.1 hp
    rw [OrderedSet.mem_def, none] at hp
    cases hp
  · intro net reached p
    obtain ⟨M, reach, rfl⟩ := wf.reaches_iff.1 reached
    rw [wf.tokens_reached reach]
    exact sound.safe M reach p
  · intro net reached marked
    obtain ⟨M, reach, rfl⟩ := wf.reaches_iff.1 reached
    rw [wf.tokens_reached reach] at marked
    have final := sound.proper M reach marked
    obtain ⟨ts, run⟩ := reach
    exact (wf.finished_iff (wf.support run)).2 final
  · intro net reached
    obtain ⟨M, reach, rfl⟩ := wf.reaches_iff.1 reached
    obtain ⟨us, run'⟩ := sound.completes M reach
    refine ⟨us, P.net.withTokens (Pi.single P.sink 1),
      (Net.forceAll?_eq_some (wf.net.withTokens M)).2 ⟨Pi.single P.sink 1, ?_, ?_⟩, ?_⟩
    · rwa [wf.tokens_reached reach, Net.game_withTokens]
    · rw [Net.withTokens_withTokens]
    · exact (wf.finished_iff (single_support (wf.ends.sink_mem wf.net))).2 rfl
  · intro t x hx
    obtain ⟨M, N, reach, fires⟩ := sound.live t x.move (Net.game_eq_some hx)
    refine ⟨_, P.net.withTokens N, wf.reaches_iff.2 ⟨M, reach, rfl⟩, ?_⟩
    refine (Net.force?_eq_some (wf.net.withTokens M)).2 ⟨N, ?_, Net.withTokens_withTokens.symm⟩
    rw [wf.tokens_reached reach, Net.game_withTokens]
    exact ⟨x.move, Net.game_eq_some hx, fires⟩

end WellFormed

end Pattern

theorem Naming.Assembles.soundSafe {I S R : Type} [DecidableEq I] [DecidableEq S] {k : Skeleton I S R}
    {operand : I → Pattern} {result : Pattern} {n : Naming I S R} (h : n.Assembles k operand result)
    (wf : ∀ i, (operand i).WellFormed) (operands : ∀ i, (operand i).SoundSafe)
    (ends : k.game.HasEnds k.source k.sink) (skeleton : k.game.Sound k.source k.sink)
    (framed : k.Framed) : result.SoundSafe := by
  have inside := fun i => (wf i).game_sound (operands i)
  exact (h.wellFormed wf ends).soundSafe (h.sound wf inside skeleton framed)

namespace Pattern

variable {P Q : Pattern}

def IsTask (P : Pattern) : Prop :=
  ∃ t x p q, P.net.transitions.entries = [(t, x)] ∧ x.visible = true ∧
    x.inputs.toList = [p] ∧ x.outputs.toList = [q]

theorem IsTask.soundSafe (task : P.IsTask) (wf : P.WellFormed) : P.SoundSafe := by
  obtain ⟨t, x, p, q, entries, -, inputs, outputs⟩ := task
  have only : ∀ u y, P.net.transition? u = some y ↔ u = t ∧ y = x := by
    intro u y
    rw [Net.transition?, OrderedMap.get?_eq_some, entries, List.mem_singleton, Prod.mk.injEq]
  have consumes : ∀ r, P.net.Consumes r ↔ r = p := by
    simp [Net.Consumes, only, OrderedSet.mem_def, inputs]
  have produces : ∀ r, P.net.Produces r ↔ r = q := by
    simp [Net.Produces, only, OrderedSet.mem_def, outputs]
  have source := Net.mem_sources.1 ((wf.ends.source P.source).2 rfl)
  have sink := Net.mem_sinks.1 ((wf.ends.sink P.sink).2 rfl)
  rw [consumes, produces] at source sink
  refine wf.soundSafe (Game.sound_of_only (t := t) wf.ends.ne fun u m => ?_)
  have move : x.move = .ofLists [P.source] [P.sink] := by
    rw [source.1, sink.1, ← inputs, ← outputs]
    rfl
  rw [Net.game, Option.map_eq_some_iff]
  constructor
  · rintro ⟨y, hy, rfl⟩
    obtain ⟨rfl, rfl⟩ := (only u y).1 hy
    exact ⟨rfl, move⟩
  · rintro ⟨rfl, rfl⟩
    exact ⟨x, (only _ _).2 ⟨rfl, rfl⟩, move⟩

theorem JoinsBy.soundSafe {S R : Type} [DecidableEq S] {op : Pattern → Pattern → Pattern}
    {k : Skeleton Bool S R} (joins : JoinsBy op k) (ends : k.game.HasEnds k.source k.sink)
    (skeleton : k.game.Sound k.source k.sink) (framed : k.Framed) (hP : P.WellFormed)
    (hQ : Q.WellFormed) (sP : P.SoundSafe) (sQ : Q.SoundSafe) : (op P Q).SoundSafe := by
  obtain ⟨-, n, assembles⟩ := joins hP hQ
  exact assembles.soundSafe (forall_pair hP hQ) (forall_pair sP sQ) ends skeleton framed

theorem sequence_soundSafe (hP : P.WellFormed) (hQ : Q.WellFormed) (sP : P.SoundSafe)
    (sQ : Q.SoundSafe) : (sequence P Q).SoundSafe :=
  sequence_joins.soundSafe Skeleton.sequence_hasEnds Skeleton.sequence_sound
    Skeleton.sequence_framed hP hQ sP sQ

theorem choice_soundSafe (hP : P.WellFormed) (hQ : Q.WellFormed) (sP : P.SoundSafe)
    (sQ : Q.SoundSafe) : (choice P Q).SoundSafe :=
  choice_joins.soundSafe (Skeleton.choice_hasEnds _ _) (Skeleton.choice_sound _ _)
    (Skeleton.choice_framed _ _) hP hQ sP sQ

theorem parallel_soundSafe (hP : P.WellFormed) (hQ : Q.WellFormed) (sP : P.SoundSafe)
    (sQ : Q.SoundSafe) : (parallel P Q).SoundSafe :=
  parallel_joins.soundSafe Skeleton.parallel_hasEnds Skeleton.parallel_sound
    Skeleton.parallel_framed hP hQ sP sQ

theorem interleaving_soundSafe (hP : P.WellFormed) (hQ : Q.WellFormed) (sP : P.SoundSafe)
    (sQ : Q.SoundSafe) : (interleaving P Q).SoundSafe :=
  interleaving_joins.soundSafe Skeleton.interleaving_hasEnds Skeleton.interleaving_sound
    Skeleton.interleaving_framed hP hQ sP sQ

theorem choiceList_soundSafe {Ps : List Pattern} (ne : Ps ≠ [])
    (hPs : ∀ P ∈ Ps, P.WellFormed ∧ P.SoundSafe) :
    ∃ R, choiceList Ps = .ok R ∧ R.SoundSafe := by
  obtain ⟨R, h⟩ := exists_choiceList ne
  obtain ⟨n, assembles⟩ := choiceList_assembles (fun P hP => (hPs P hP).1) h
  have := nonempty_of_choiceList h
  have operands := fun i : Fin Ps.length => hPs _ (List.getElem_mem i.isLt)
  exact ⟨R, h, assembles.soundSafe (fun i => (operands i).1) (fun i => (operands i).2)
    (Skeleton.choice_hasEnds _ _) (Skeleton.choice_sound _ _) (Skeleton.choice_framed _ _)⟩

theorem repetition_soundSafe (hP : P.WellFormed) (sP : P.SoundSafe) :
    (repetition P).SoundSafe := by
  obtain ⟨n, assembles⟩ := repetition_assembles hP
  exact assembles.soundSafe (fun _ => hP) (fun _ => sP) Skeleton.repetition_hasEnds
    Skeleton.repetition_sound Skeleton.repetition_framed

/-- Built from tasks by any nesting of the operators. -/
inductive Nested : Pattern → Prop
  | task {P : Pattern} : Built (.pattern P) → P.IsTask → Nested P
  | sequence {P Q : Pattern} : Nested P → Nested Q → Nested (.sequence P Q)
  | choice {P Q : Pattern} : Nested P → Nested Q → Nested (.choice P Q)
  | choiceList {Ps : List Pattern} {P : Pattern} :
      (∀ Q ∈ Ps, Nested Q) → Pattern.choiceList Ps = .ok P → Nested P
  | parallel {P Q : Pattern} : Nested P → Nested Q → Nested (.parallel P Q)
  | interleaving {P Q : Pattern} : Nested P → Nested Q → Nested (.interleaving P Q)
  | repetition {P : Pattern} : Nested P → Nested (.repetition P)

theorem Nested.built (nested : Nested P) : Built (.pattern P) := by
  induction nested with
  | task built _ => exact built
  | sequence _ _ hP hQ => exact hP.sequence hQ
  | choice _ _ hP hQ => exact hP.choice hQ
  | choiceList _ h hPs => exact .choiceList hPs h
  | parallel _ _ hP hQ => exact hP.parallel hQ
  | interleaving _ _ hP hQ => exact hP.interleaving hQ
  | repetition _ hP => exact hP.repetition

theorem Nested.wellFormed (nested : Nested P) : P.WellFormed := nested.built.wellFormed

theorem Nested.soundSafe (nested : Nested P) : P.SoundSafe := by
  induction nested with
  | task built task => exact task.soundSafe built.wellFormed
  | sequence hP hQ sP sQ => exact sequence_soundSafe hP.wellFormed hQ.wellFormed sP sQ
  | choice hP hQ sP sQ => exact choice_soundSafe hP.wellFormed hQ.wellFormed sP sQ
  | @choiceList Ps P hPs h sPs =>
    have ne : Ps ≠ [] := by
      rintro rfl
      cases h
    obtain ⟨R, hR, sR⟩ := choiceList_soundSafe ne fun Q hQ => ⟨(hPs Q hQ).wellFormed, sPs Q hQ⟩
    obtain rfl := Except.ok.inj (h.symm.trans hR)
    exact sR
  | parallel hP hQ sP sQ => exact parallel_soundSafe hP.wellFormed hQ.wellFormed sP sQ
  | interleaving hP hQ sP sQ => exact interleaving_soundSafe hP.wellFormed hQ.wellFormed sP sQ
  | repetition hP sP => exact repetition_soundSafe hP.wellFormed sP

/-- Every operator makes a sound and safe pattern of sound and safe operands, and so does every
nesting of them over tasks. -/
theorem soundSafe_closed :
    (∀ P Q : Pattern, Built (.pattern P) → Built (.pattern Q) → P.SoundSafe → Q.SoundSafe →
      (sequence P Q).SoundSafe ∧ (choice P Q).SoundSafe ∧ (parallel P Q).SoundSafe ∧
        (interleaving P Q).SoundSafe) ∧
    (∀ P : Pattern, Built (.pattern P) → P.SoundSafe → (repetition P).SoundSafe) ∧
    (∀ Ps : List Pattern, Ps ≠ [] → (∀ P ∈ Ps, Built (.pattern P) ∧ P.SoundSafe) →
      ∃ R, choiceList Ps = .ok R ∧ R.SoundSafe) ∧
    ∀ P : Pattern, Nested P → P.SoundSafe := by
  refine ⟨fun P Q hP hQ sP sQ => ?_, fun P hP => repetition_soundSafe hP.wellFormed,
    fun Ps ne hPs => ?_, fun P nested => nested.soundSafe⟩
  · have hP : P.WellFormed := hP.wellFormed
    have hQ : Q.WellFormed := hQ.wellFormed
    exact ⟨sequence_soundSafe hP hQ sP sQ, choice_soundSafe hP hQ sP sQ,
      parallel_soundSafe hP hQ sP sQ, interleaving_soundSafe hP hQ sP sQ⟩
  · exact choiceList_soundSafe ne fun P hP => ⟨(hPs P hP).1.wellFormed, (hPs P hP).2⟩

theorem task_isTask : task.IsTask := ⟨_, _, _, _, rfl, rfl, rfl, rfl⟩

theorem nested_task_soundSafe : (choice task task).SoundSafe ∧
    (sequence (parallel task task) (repetition (interleaving task task))).SoundSafe := by
  have leaf : Nested task := .task built_task task_isTask
  have sound : task.SoundSafe := soundSafe_closed.2.2.2 _ leaf
  exact ⟨(soundSafe_closed.1 _ _ built_task built_task sound sound).2.1,
    soundSafe_closed.2.2.2 _
      (.sequence (.parallel leaf leaf) (.repetition (.interleaving leaf leaf)))⟩

end Pattern

end ProcessNet
