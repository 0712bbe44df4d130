import ProcessNet.Proofs.Reduction.Behaviour
import ProcessNet.Proofs.Reduction.Interface

/-!
The redirections of a reduction as a map of markings. Counts are collected where the redirections
lead, one after the other, and along transitions that keep their output arcs the reduced net does
what the net does to the collected counts. Which redirections there were is told by the report of a
reduction that returns, and there are some also behind one that stops half way.
-/

namespace ProcessNet

open Game (Collects)

/-- The counts with those of each bypassed place on the place that its arcs are redirected to. -/
def collected (steps : List Bypass) (M : PlaceId → ℕ) : PlaceId → ℕ :=
  steps.foldl (fun M step => lump step.place step.redirectedTo M) M

theorem collected_concat (steps : List Bypass) (step : Bypass) (M : PlaceId → ℕ) :
    collected (steps ++ [step]) M = lump step.place step.redirectedTo (collected steps M) :=
  List.foldl_concat _ M step steps

theorem collected_le {steps : List Bypass} {M : PlaceId → ℕ} {r : PlaceId}
    (elsewhere : ∀ step ∈ steps, step.redirectedTo ≠ r) : collected steps M r ≤ M r := by
  induction steps using List.reverseRecOn with
  | nil => exact Nat.le_refl _
  | append_singleton steps step ih =>
    have ih := ih fun s hs => elsewhere s (List.mem_append_left _ hs)
    have apart := elsewhere step (List.mem_append_right _ List.mem_cons_self)
    rw [collected_concat, lump, if_neg apart.symm]
    split
    · exact Nat.zero_le _
    · exact ih

namespace Net

inductive Redirects (net : Net) : List Bypass → Net → Prop
  | refl : Redirects net [] net
  | bypass {steps : List Bypass} {net' : Net} {t : TransitionId} {p q : PlaceId} :
      Redirects net steps net' → net'.Bypasses t p q →
        Redirects net (steps ++ [⟨t, p, q⟩]) (net'.bypass t p q)
  | retoken {steps : List Bypass} {net' : Net} (M : PlaceId → ℕ) : Redirects net steps net' →
      Redirects net steps (net'.withTokens M)
  | drop {steps : List Bypass} {net' : Net} : Redirects net steps net' →
      Redirects net steps net'.dropUnconnected

variable {net net' : Net} {steps : List Bypass} {report : PruneReport} {source sink : PlaceId}
  {ts : List TransitionId}

theorem Pruned.redirects (h : net.Pruned net') : ∃ steps, net.Redirects steps net' := by
  induction h with
  | refl => exact ⟨[], .refl⟩
  | tail _ step ih =>
    obtain ⟨steps, ih⟩ := ih
    cases step with
    | bypass bypasses => exact ⟨_, ih.bypass bypasses⟩
    | retoken M => exact ⟨steps, ih.retoken M⟩
    | drop => exact ⟨steps, ih.drop⟩

theorem Reduces.redirects (h : net.Reduces report net') : net.Redirects report.steps net' := by
  induction h with
  | refl => exact .refl
  | collapse _ bypasses ih => exact (ih.bypass bypasses).retoken _
  | drop _ ih =>
    rw [PruneReport.append, PruneReport.ofPlaces, List.append_nil]
    exact ih.drop

namespace Redirects

variable (h : net.Redirects steps net')

include h

theorem pruned : net.Pruned net' := by
  induction h with
  | refl => exact .refl net
  | bypass _ bypasses ih => exact ih.tail (.bypass bypasses)
  | retoken M _ ih => exact ih.tail (.retoken _ M)
  | drop _ ih => exact ih.tail (.drop _)

theorem reducedBy : net.ReducedBy (.ofSteps steps) net' := by
  induction h with
  | refl => exact .refl net
  | bypass _ bypasses ih =>
    rw [← PruneReport.append_ofSteps]
    exact ih.append bypasses.reducedBy
  | retoken M _ ih =>
    rw [← PruneReport.append_none (.ofSteps _)]
    exact ih.append (.of_transitions [] rfl rfl)
  | drop _ ih =>
    rw [← PruneReport.append_none (.ofSteps _)]
    exact ih.append (.of_transitions [] rfl rfl)

theorem collects (wf : net.WellFormed) (kept : ∀ t ∈ ts, net'.outputArcs t = net.outputArcs t) :
    net.game.Collects net'.game (collected steps) ts := by
  induction h with
  | refl => exact .refl net.game ts
  | @bypass steps net₁ t p q before bypasses ih =>
    have wf₁ := before.pruned.wellFormed wf
    have between := fun u hu =>
      Pruned.outputArcs_between wf before.pruned (.bypass bypasses) (kept u hu)
    have last := bypasses.shortcut.collects fun u hu => bypasses.keepsPuts wf₁ (between u hu).2
    have same : collected (steps ++ [⟨t, p, q⟩]) = fun M => lump p q (collected steps M) :=
      funext (collected_concat steps _)
    rw [same]
    exact (ih fun u hu => (between u hu).1).trans last
  | retoken _ _ ih => exact ih kept
  | drop _ ih => exact ih kept

theorem collected_ends (ends : net.HasEnds source sink) :
    collected steps (Pi.single source 1) = Pi.single source 1 ∧
      collected steps (Pi.single sink 1) = Pi.single sink 1 := by
  induction h with
  | refl => exact ⟨rfl, rfl⟩
  | bypass before bypasses ih =>
    obtain ⟨at_source, at_sink⟩ := bypasses.lump_single (before.pruned.hasEnds ends)
    rw [collected_concat, collected_concat, ih.1, ih.2]
    exact ⟨at_source, at_sink⟩
  | retoken _ _ ih => exact ih
  | drop _ ih => exact ih

end Redirects

end Net

end ProcessNet
