import ProcessNet.Proofs.Pattern.Prune
import ProcessNet.Proofs.Pattern.Soundness
import ProcessNet.Proofs.Reduction.Soundness

/-!
Reductions of sound and safe patterns. Of such a pattern no arc is lost, so it stays sound and safe and
completes the same traces, in whatever number of passes it is reduced. That is so for what a reduction
has done when it stops, too; and it does not stop while all tokens together are a token count.
-/

namespace ProcessNet

theorem Pattern.soundSafe_forget {P : Pattern} (sound : (forgetRemoved P).SoundSafe) :
    P.SoundSafe where
  takes := sound.takes
  safe := sound.safe
  proper := sound.proper
  completes := sound.completes
  live := sound.live

/-- A sound and safe pattern keeps every output arc in a reduction, stays sound and safe, and completes
the same traces; and the reduction comes to its end unless the tokens of the net, all together, pass
the capacity of a place. -/
theorem Built.prune_sound {P : Pattern} (built : Built (.pattern P)) (sound : P.SoundSafe)
    (exhaustive : Bool) :
    (P.net.Fits → ∃ report, (P.prune exhaustive).report = .ok report) ∧
    (∀ t y, (P.prune exhaustive).pattern.net.transition? t = some y →
      ∃ x, P.net.transition? t = some x ∧ y.outputs.size = x.outputs.size) ∧
    (P.prune exhaustive).pattern.SoundSafe ∧
    ∀ names, (P.prune exhaustive).pattern.CompletedTrace names ↔ P.CompletedTrace names := by
  have wf : P.WellFormed := built.wellFormed
  have whole := wf.game_sound sound
  obtain ⟨steps, net', -, redirects, left⟩ := P.prune_redirects wf.net exhaustive
  have pruned := redirects.pruned
  have wf' := wf.forgetRemoved pruned
  have kept := pruned.outputArcs_eq wf.net wf.ends whole
  have sizes : ∀ t y, net'.transition? t = some y →
      ∃ x, P.net.transition? t = some x ∧ y.outputs.size = x.outputs.size := by
    intro t y hy
    obtain ⟨x, hx, -⟩ := pruned.origin hy
    have same := kept t
    rw [Net.outputArcs, hy, Net.outputArcs, hx] at same
    exact ⟨x, hx, same⟩
  have sound' : (Pattern.forgetRemoved { P with net := net' }).SoundSafe :=
    wf'.soundSafe (pruned.sound wf.net wf.ends whole)
  have traces : ∀ names, (Pattern.forgetRemoved { P with net := net' }).CompletedTrace names ↔
      P.CompletedTrace names := by
    intro names
    constructor
    · rintro ⟨us, complete, rfl⟩
      obtain ⟨ts, complete', rfl⟩ := wf.completes_back pruned complete fun t _ => kept t
      exact ⟨ts, complete', (Pattern.trace_forgetRemoved pruned ts).symm⟩
    · rintro ⟨ts, complete, rfl⟩
      have run := pruned.runs_of_sound wf.net wf.ends whole (wf.completes_iff.1 complete)
      exact ⟨_, wf'.completes_iff.2 run, Pattern.trace_forgetRemoved pruned ts⟩
  refine ⟨fun fits => Pattern.prune_answers wf.net fits exhaustive, ?_⟩
  rcases left with left | left <;> rw [left]
  · exact ⟨sizes, sound', traces⟩
  · exact ⟨sizes, Pattern.soundSafe_forget sound',
      fun names => Pattern.completedTrace_forget.symm.trans (traces names)⟩

theorem Pattern.sequence_task_prune_sound :
    (∃ report, ((sequence task task).prune true).report = .ok report) ∧
      ((sequence task task).prune true).pattern.SoundSafe ∧
      ((sequence task task).prune true).pattern.net.transitions.size <
        (sequence task task).net.transitions.size := by
  have leaf : Nested task := .task built_task task_isTask
  have fits : (sequence task task).net.Fits := by decide +kernel
  obtain ⟨answers, -, sound, -⟩ :=
    Built.prune_sound (built_task.sequence built_task) (leaf.sequence leaf).soundSafe true
  exact ⟨answers fits, sound, by decide +kernel⟩

end ProcessNet
