import ProcessNet.Proofs.Reduction.Behaviour

/-!
Reductions of sound nets. Where no place ever holds two tokens, a transition that puts on the place of
a silent step and on the place behind it could not fire, so no redirected arc falls together with
another. Hence no arc is lost, the complete runs stay complete runs, and the net stays sound; and as
it does so at every single change, it does so for reductions as a whole.
-/

namespace ProcessNet.Net

variable {net net' : Net} {t : TransitionId} {p q source sink : PlaceId} {ts : List TransitionId}

theorem Bypasses.outputs_apart (h : net.Bypasses t p q) (whole : net.game.Sound source sink)
    {u : TransitionId} {x : Transition} (hx : net.transition? u = some x) :
    ¬(p ∈ x.outputs ∧ q ∈ x.outputs) := by
  have apart := h.shortcut.puts_apart whole (game_eq_some hx)
  rwa [Transition.put_move_pos, Transition.put_move_pos] at apart

theorem Bypasses.keepsPuts_of_sound (h : net.Bypasses t p q) (wf : net.WellFormed)
    (whole : net.game.Sound source sink) (u : TransitionId) :
    net.game.KeepsPuts (net.bypass t p q).game p q u :=
  h.keepsPuts wf (h.outputArcs_eq wf (fun _ _ => h.outputs_apart whole) u)

namespace Pruning

variable (h : net.Pruning net') (wf : net.WellFormed) (whole : net.game.Sound source sink)

include h wf whole

theorem outputArcs_eq (t : TransitionId) : net'.outputArcs t = net.outputArcs t := by
  cases h with
  | bypass h => exact h.outputArcs_eq wf (fun _ _ => h.outputs_apart whole) t
  | retoken => rfl
  | drop => rfl

variable (ends : net.HasEnds source sink)

include ends

theorem sound : net'.game.Sound source sink := by
  cases h with
  | bypass h =>
    obtain ⟨not_source, not_sink⟩ := h.ne_ends ends
    exact h.shortcut.sound whole (h.keepsPuts_of_sound wf whole) not_source not_sink
  | retoken => exact whole
  | drop => exact whole

theorem runs_of_sound (run : net.game.Runs (Pi.single source 1) ts (Pi.single sink 1)) :
    net'.game.Runs (Pi.single source 1) (ts.filter net'.game.known) (Pi.single sink 1) := by
  have same : ts.filter net.game.known = ts := List.filter_eq_self.2 run.known
  cases h with
  | bypass h =>
    have run := h.shortcut.runs_of_sound whole (h.keepsPuts_of_sound wf whole) (.refl _) run
    rwa [(h.lump_single ends).1, (h.lump_single ends).2] at run
  | retoken => exact same.symm ▸ run
  | drop => exact same.symm ▸ run

end Pruning

namespace Pruned

variable (h : net.Pruned net') (wf : net.WellFormed) (ends : net.HasEnds source sink)
  (whole : net.game.Sound source sink)

include h wf ends whole

theorem sound : net'.game.Sound source sink := by
  induction h with
  | refl => exact whole
  | @tail net₁ _ pruned step ih =>
    have pruned : net.Pruned net₁ := pruned
    exact step.sound (pruned.wellFormed wf) ih (pruned.hasEnds ends)

theorem outputArcs_eq (t : TransitionId) : net'.outputArcs t = net.outputArcs t := by
  induction h with
  | refl => rfl
  | @tail net₁ _ pruned step ih =>
    have pruned : net.Pruned net₁ := pruned
    rw [step.outputArcs_eq (pruned.wellFormed wf) (pruned.sound wf ends whole), ih]

theorem runs_of_sound (run : net.game.Runs (Pi.single source 1) ts (Pi.single sink 1)) :
    net'.game.Runs (Pi.single source 1) (ts.filter net'.game.known) (Pi.single sink 1) := by
  induction h with
  | refl => rwa [List.filter_eq_self.2 run.known]
  | @tail net₁ net' pruned step ih =>
    have pruned : net.Pruned net₁ := pruned
    have later := step.runs_of_sound (pruned.wellFormed wf) (pruned.sound wf ends whole)
      (pruned.hasEnds ends) ih
    rwa [(single step).filter_known] at later

end Pruned

end ProcessNet.Net
