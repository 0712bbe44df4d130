import ProcessNet.Proofs.Pattern.Built

/-!
No token is spent twice in a step. Of the nets that can be built, with any marking that leaves room
for one more token from every transition, a step fails only by a guard and then moves nothing; and
what it commits to fire could have been fired by force in every order, to the same end.
-/

namespace ProcessNet

open Net (GuardFault)

/-- A step fails only by a guard, and then it moves nothing. The transitions that it commits to were
marked and accepting, share no input, and can be fired by force in every order, to the same end. -/
theorem Built.step_commits {net : Net} (built : Built (.net net)) (words : Words)
    (room : ∀ p, net.tokens p + net.transitions.size ≤ Place.capacity) :
    (∃ e s, (Run.step words).run (.start net) = .error (.refused e) s ∧ s.net = net ∧
      net.GuardFault (.refused e) ∧ (∀ p, e ≠ .noToken p) ∧ ∀ t, e ≠ .unknownTransition t) ∨
    ∃ fired s, (Run.step words).run (.start net) = .ok fired s ∧ fired.Nodup ∧
      (∀ t ∈ fired, ∃ x, net.transition? t = some x ∧ x.inputs.toList ≠ [] ∧
        (∀ p ∈ x.inputs, 0 < net.tokens p) ∧ x.accepts net.vars = .ok true) ∧
      (∀ t ∈ fired, ∀ u ∈ fired, t ≠ u →
        ∀ p, ¬(net.takes p t = true ∧ net.takes p u = true)) ∧
      (∀ p, s.net.tokens p =
        net.tokens p - fired.countP (net.takes p) + fired.countP (net.puts p)) ∧
      ∀ ts, ts.Perm fired → net.forceAll? ts = some s.net := by
  have wf : net.WellFormed := built.wellFormed
  rcases Run.run_step words (s := .start net) wf room with
    ⟨e, s, run, same, fault⟩ | ⟨fired, s, run, commits, next⟩
  · have ⟨t, x, e', hx, fails, eq⟩ := fault
    obtain rfl : e = e' := by injection eq
    obtain ⟨name, rfl | rfl⟩ := Guard.isReadError_of_accepts x.guard fails
    · exact .inl ⟨_, s, run, same, fault, nofun, nofun⟩
    · exact .inl ⟨_, s, run, same, fault, nofun, nofun⟩
  · have runs := fun ts (perm : List.Perm ts fired) => commits.runs room perm
    refine .inr ⟨fired, s, run, commits.nodup, commits.ready, fun t ht u hu ne => ?_, fun p => ?_,
      fun ts perm => (Net.forceAll?_eq_some wf).2 ⟨_, runs ts perm, next⟩⟩
    · have symm : Std.Symm fun t u => ∀ p, ¬(net.takes p t = true ∧ net.takes p u = true) :=
        ⟨fun _ _ h p both => h p both.symm⟩
      have disjoint : fired.Pairwise fun t u =>
        ∀ p, ¬(net.takes p t = true ∧ net.takes p u = true) := commits.disjoint
      exact disjoint.forall ht hu ne
    · have support : ∀ p ∉ net.places.keys,
          net.tokens p - fired.countP (net.takes p) + fired.countP (net.puts p) = 0 :=
        wf.support_runs (runs fired (.refl _)) fun p => Net.tokens_of_not_mem
      rw [next]
      exact congrFun (Net.tokens_withTokens_of_support support) p

def Net.contested : Net :=
  .after [.addPlace (.blank ⟨"start"⟩), .addPlace (.blank ⟨"end"⟩),
    .addTransition (.bare ⟨"left"⟩ "left" true), .connect ⟨"start"⟩ ⟨"left"⟩ ⟨"end"⟩,
    .addTransition (.bare ⟨"right"⟩ "right" true), .connect ⟨"start"⟩ ⟨"right"⟩ ⟨"end"⟩,
    .setMarking (.ofList [(⟨"start"⟩, 1)])]

theorem contested_room (p : PlaceId) :
    Net.contested.tokens p + Net.contested.transitions.size ≤ Place.capacity := by
  have size : Net.contested.transitions.size = 2 := rfl
  have tokens : Net.contested.tokens p ≤ 1 := Net.tokens_le_of_places (by decide) p
  rw [size, Place.capacity_value]
  omega

theorem contested_step_commits :
    ∃ s, (Run.step fun _ => 0).run (.start .contested) = .ok [⟨"left"⟩] s ∧
      s.net.tokens ⟨"start"⟩ = 0 ∧ s.net.tokens ⟨"end"⟩ = 1 ∧
      Net.contested.forceAll? [⟨"left"⟩] = some s.net := by
  obtain ⟨s, run⟩ : ∃ s, (Run.step fun _ => 0).run (.start .contested) = .ok [⟨"left"⟩] s :=
    ⟨_, rfl⟩
  rcases Built.step_commits (built_after _ : Built (.net .contested)) (fun _ => 0) contested_room with
    ⟨e, s', stopped, -⟩ | ⟨fired, s', committed, -, -, -, counts, anyOrder⟩
  · cases run.symm.trans stopped
  · obtain ⟨rfl, rfl⟩ := EStateM.Result.ok.inj (run.symm.trans committed)
    refine ⟨s, run, ?_, ?_, anyOrder _ (.refl _)⟩
    · rw [counts]
      decide +kernel
    · rw [counts]
      decide +kernel

end ProcessNet
