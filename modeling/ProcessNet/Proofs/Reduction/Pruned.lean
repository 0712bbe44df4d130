import ProcessNet.Proofs.Execution.Firing
import ProcessNet.Proofs.Reduction.Bypass

/-!
What a reduction does as a whole. Passes are sequences of three kinds of change: a silent transition
is removed, token counts change, and places without arcs are dropped. Whatever such a sequence is, the
net stays well-formed, its sources and sinks stay the same places, and no transition becomes visible
or silent. A reduction that stops half way has made such a sequence too.
-/

namespace ProcessNet

namespace Net

inductive Pruning : Net → Net → Prop
  | bypass {net : Net} {t : TransitionId} {p q : PlaceId} :
      net.Bypasses t p q → Pruning net (net.bypass t p q)
  | retoken (net : Net) (M : PlaceId → ℕ) : Pruning net (net.withTokens M)
  | drop (net : Net) : Pruning net net.dropUnconnected

def Pruned : Net → Net → Prop := Relation.ReflTransGen Pruning

variable {net net' : Net} {t : TransitionId} {p : PlaceId} {y : Transition}

theorem Pruning.wellFormed (h : net.Pruning net') (wf : net.WellFormed) : net'.WellFormed := by
  cases h with
  | bypass h => exact h.bypass_wellFormed wf
  | retoken M => exact wf.withTokens M
  | drop => exact dropUnconnected_wellFormed wf

theorem Pruning.mem_sources (h : net.Pruning net') : p ∈ net'.sources ↔ p ∈ net.sources := by
  cases h with
  | bypass h => exact h.sources_bypass
  | retoken => exact Iff.rfl
  | drop => exact Iff.rfl

theorem Pruning.mem_sinks (h : net.Pruning net') : p ∈ net'.sinks ↔ p ∈ net.sinks := by
  cases h with
  | bypass h => exact h.sinks_bypass
  | retoken => exact Iff.rfl
  | drop => exact Iff.rfl

theorem Pruning.origin (h : net.Pruning net') (hy : net'.transition? t = some y) :
    ∃ z, net.transition? t = some z ∧ y.visible = z.visible := by
  cases h with
  | bypass h =>
    rw [transition?_bypass] at hy
    split at hy
    · cases hy
    · obtain ⟨z, hz, rfl⟩ := Option.map_eq_some_iff.1 hy
      exact ⟨z, hz, visible_redirectOutputs⟩
  | retoken => exact ⟨y, hy, rfl⟩
  | drop => exact ⟨y, hy, rfl⟩

namespace Pruned

theorem refl (net : Net) : net.Pruned net := Relation.ReflTransGen.refl

theorem wellFormed (h : net.Pruned net') (wf : net.WellFormed) : net'.WellFormed := by
  induction h with
  | refl => exact wf
  | tail _ step ih => exact step.wellFormed ih

theorem mem_sources (h : net.Pruned net') : p ∈ net'.sources ↔ p ∈ net.sources := by
  induction h with
  | refl => rfl
  | tail _ step ih => rw [step.mem_sources, ih]

theorem mem_sinks (h : net.Pruned net') : p ∈ net'.sinks ↔ p ∈ net.sinks := by
  induction h with
  | refl => rfl
  | tail _ step ih => rw [step.mem_sinks, ih]

theorem origin (h : net.Pruned net') (hy : net'.transition? t = some y) :
    ∃ z, net.transition? t = some z ∧ y.visible = z.visible := by
  induction h generalizing y with
  | refl => exact ⟨y, hy, rfl⟩
  | tail _ step ih =>
    obtain ⟨z, hz, same⟩ := step.origin hy
    obtain ⟨w, hw, same'⟩ := ih hz
    exact ⟨w, hw, same.trans same'⟩

theorem hasEnds (h : net.Pruned net') {source sink : PlaceId} (ends : net.HasEnds source sink) :
    net'.HasEnds source sink where
  source p := h.mem_sources.trans (ends.source p)
  sink p := h.mem_sinks.trans (ends.sink p)

end Pruned

/-- A reduction of a well-formed net that has no other sources than those it knows of. -/
def PrunesKnowing (sources : OrderedSet PlaceId) (net net' : Net) : Prop :=
  net.WellFormed → (∀ p, p ∈ net.sources → p ∈ sources) → net.Pruned net'

instance {sources : OrderedSet PlaceId} : Std.Refl (PrunesKnowing sources) := ⟨fun _ _ _ => .refl _⟩

instance {sources : OrderedSet PlaceId} : IsTrans Net (PrunesKnowing sources) :=
  ⟨fun _ _ _ first second wf known =>
    have done := first wf known
    done.trans (second (done.wellFormed wf) fun p hp => known p (done.mem_sources.1 hp))⟩

end Net

namespace Run

open Net (Retokens Pruned PrunesKnowing)

variable (sources : OrderedSet PlaceId)

theorem moveTokens_retokens (p q : PlaceId) : Evolves (OnNet Retokens) (moveTokens p q) := by
  refine net_retokens.bind fun net => ?_
  dsimp only
  split
  · exact Evolves.pure _
  · refine Evolves.bind (updatePlace_retokens fun x y h => ?_) fun _ =>
      updatePlace_retokens fun x y h => ?_
    · rw [Place.add] at h
      split at h
      · cases h
      · cases h
        rfl
    · cases h
      rfl

theorem removeSilent_prunes (t : TransitionId) :
    Evolves (OnNet (PrunesKnowing sources)) (removeSilent sources t) := by
  intro s wf known
  rw [removeSilent, run_net_bind]
  rcases h : s.net.bypass? sources t with _ | ⟨p, q⟩
  · exact .refl _
  · have bypasses := Net.bypasses_of_bypass? wf known h
    have rest : Evolves (OnNet Retokens) (do
        moveTokens p q
        record (.bypassed ⟨t, p, q⟩)
        return some ⟨t, p, q⟩ : Run (Option Bypass)) :=
      (moveTokens_retokens p q).bind fun _ => (record_retokens _).bind fun _ => Evolves.pure _
    obtain ⟨M, hM⟩ := rest { s with net := s.net.bypass t p q }
    exact (Relation.ReflTransGen.single (.bypass bypasses)).tail (hM ▸ .retoken _ M)

theorem removeSilents_prunes (ts : List TransitionId) :
    Evolves (OnNet (PrunesKnowing sources)) (removeSilents sources ts) := by
  induction ts with
  | nil => exact Evolves.pure _
  | cons t rest ih =>
    exact (removeSilent_prunes sources t).bind fun _ => ih.bind fun _ => Evolves.pure _

theorem prune_prunes : Evolves (OnNet fun net net' => net.WellFormed → net.Pruned net') prune := by
  intro s wf
  have rest : Evolves (OnNet (PrunesKnowing s.net.sources)) (do
      let steps ← removeSilents s.net.sources s.net.transitions.keys
      let places := (← Run.net).unconnected
      modifyNet Net.dropUnconnected
      record (.pruned steps.length places.length)
      return ⟨steps, steps.map (·.transition), places⟩ : Run PruneReport) := by
    refine (removeSilents_prunes _ _).bind fun steps => ?_
    refine Evolves.bind (fun s => Std.Refl.refl s.net) fun net => ?_
    refine Evolves.bind (fun s => ?_) fun _ => Evolves.bind (fun s => Std.Refl.refl s.net)
      fun _ => Evolves.pure _
    exact fun _ _ => .single (.drop s.net)
  exact rest s wf fun _ hp => hp

theorem pruneUntilStill_prunes (earlier : PruneReport) :
    Evolves (OnNet fun net net' => net.WellFormed → net.Pruned net')
      (pruneUntilStill earlier) := by
  intro s wf
  rw [EStateM.run]
  fun_induction pruneUntilStill earlier s with
  | case1 _ s fault s' stopped => simpa [EStateM.run, stopped, endState] using prune_prunes s wf
  | case2 _ s report s' done still => exact prune_prunes.ok done wf
  | case3 _ s report s' done _ ih =>
    have first := prune_prunes.ok done wf
    exact first.trans (ih (first.wellFormed wf))

theorem pruneExhaustively_prunes :
    Evolves (OnNet fun net net' => net.WellFormed → net.Pruned net') pruneExhaustively :=
  pruneUntilStill_prunes _

end Run

end ProcessNet
