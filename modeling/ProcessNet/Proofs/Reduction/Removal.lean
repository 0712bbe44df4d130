import ProcessNet.Proofs.Pattern.Built
import ProcessNet.Proofs.Reduction.Accounting

/-!
The removal of one silent step, firing by firing. Markings are compared by counting what lies on the
place of the step on the place behind it. Where no transition puts on both places, the net without the
step follows every firing of the net but that of the step, which changes nothing for markings that are
compared so; and where it fires a transition, the net fires the same one after the step has passed on all
tokens. What is assumed of counts is that all tokens together are a token count.
-/

namespace ProcessNet

namespace Net

/-- The later net has the marking of the net with the tokens of `p` on `q`. From markings that are so
related it follows every firing of the net but that of the step `t` from `p` to `q`, and what it fires the
net fires after the step has passed on all tokens. -/
structure Follows (net : Net) (t : TransitionId) (p q : PlaceId) (net' : Net) : Prop where
  carries : net'.tokens = lump p q net.tokens
  fires : ∀ M u net₁, (net.withTokens M).Fits → (net.withTokens M).force? u = some net₁ → net₁.Fits →
    (u = t ∧ lump p q net₁.tokens = lump p q (net.withTokens M).tokens) ∨
      (net'.withTokens (lump p q M)).force? u = some (net'.withTokens (lump p q net₁.tokens))
  leads : ∀ M u net₁', (net.withTokens M).Fits →
    (net'.withTokens (lump p q M)).force? u = some net₁' →
      ∃ net₁, (net.withTokens M).forceAll? (List.replicate (M p) t ++ [u]) = some net₁ ∧
        net₁' = net'.withTokens (lump p q net₁.tokens)

variable {net net₁ : Net} {t u : TransitionId} {p q : PlaceId} {M : PlaceId → ℕ}

theorem Fits.le_capacity (fits : net.Fits) (wf : net.WellFormed) (r : PlaceId) :
    net.tokens r ≤ Place.capacity := by
  by_cases hr : r ∈ net.places.keys
  · have le := Finset.single_le_sum (f := net.tokens) (fun _ _ => Nat.zero_le _)
      (List.mem_toFinset.2 hr)
    exact le.trans ((fits_iff wf).1 fits)
  · rw [tokens_of_not_mem hr]
    exact Nat.zero_le _

theorem Bypasses.withTokens (h : net.Bypasses t p q) (M : PlaceId → ℕ) :
    (net.withTokens M).Bypasses t p q :=
  ⟨h.passes, h.only, h.ne, h.fed⟩

namespace Bypasses

variable (h : net.Bypasses t p q) (wf : net.WellFormed)

include h wf

theorem collapse_wellFormed : (net.collapse t p q).WellFormed :=
  (h.bypass_wellFormed wf).withTokens _

theorem collapse_withTokens (M : PlaceId → ℕ) :
    (net.withTokens M).collapse t p q = (net.collapse t p q).withTokens (lump p q M) := by
  obtain ⟨hp, hq⟩ := h.mem_keys wf
  have bypassed : (net.withTokens M).bypass t p q = (net.bypass t p q).withTokens M := rfl
  rw [collapse, collapse, bypassed, withTokens_withTokens, withTokens_withTokens]
  refine withTokens_congr fun r hr => ?_
  have hr : r ∈ net.places.keys := hr
  rw [lump, lump, tokens_withTokens, tokens_withTokens, tokens_withTokens, if_pos hp, if_pos hq,
    if_pos hr]

theorem collapse_of_retokens (moved : net.Retokens net₁) :
    net₁.collapse t p q = (net.collapse t p q).withTokens (lump p q net₁.tokens) := by
  obtain ⟨N, rfl⟩ := moved
  have same : net.withTokens (net.withTokens N).tokens = net.withTokens N := by
    have own := (net.withTokens N).withTokens_tokens
    rwa [withTokens_withTokens] at own
  rw [← h.collapse_withTokens wf, same]

theorem lump_le (fits : net.Fits) (r : PlaceId) : lump p q net.tokens r ≤ Place.capacity := by
  obtain ⟨hp, hq⟩ := h.mem_keys wf
  have fits' := fits.lumped wf h.ne hp hq
  have le := fits'.le_capacity (wf.withTokens _) r
  rwa [tokens_withTokens_of_support fun r hr => ?_] at le
  have not_p : r ≠ p := fun eq => hr (eq ▸ hp)
  have not_q : r ≠ q := fun eq => hr (eq ▸ hq)
  rw [lump_elsewhere not_p not_q, tokens_of_not_mem hr]

variable (apart : ∀ u x, net.transition? u = some x → p ∈ x.outputs → q ∉ x.outputs)

include apart

theorem keepsPuts_of_apart (u : TransitionId) :
    net.game.KeepsPuts (net.bypass t p q).game p q u :=
  h.keepsPuts wf (h.outputArcs_eq wf (fun u x hx both => apart u x hx both.1 both.2) u)

theorem force?_collapse (fired : net.force? u = some net₁) (fits : net₁.Fits) :
    (u = t ∧ lump p q net₁.tokens = lump p q net.tokens) ∨
      (net.collapse t p q).force? u = some (net₁.collapse t p q) := by
  obtain ⟨N, fires, rfl⟩ := (force?_eq_some wf).1 fired
  have reached : (net.withTokens N).tokens = N := wf.tokens_of_fires fires
  by_cases hu : u = t
  · subst hu
    rw [reached]
    exact .inl ⟨rfl, h.shortcut.lump_passes fires⟩
  · have room : ∀ r, lump p q N r ≤ Place.capacity := fun r => by
      have le := (h.withTokens N).lump_le (wf.withTokens N) fits r
      rwa [reached] at le
    have follows := h.shortcut.fires_lump hu (h.keepsPuts_of_apart wf apart u) fires room
    refine .inr ((force?_eq_some (h.collapse_wellFormed wf)).2 ⟨lump p q N, ?_, ?_⟩)
    · rwa [h.tokens_collapse wf]
    · exact h.collapse_withTokens wf N

theorem forceAll?_of_collapse (fits : net.Fits)
    (fired : (net.collapse t p q).force? u = some net₁) :
    ∃ net₂, net.forceAll? (List.replicate (net.tokens p) t ++ [u]) = some net₂ ∧
      net₁ = net₂.collapse t p q := by
  obtain ⟨hp, hq⟩ := h.mem_keys wf
  obtain ⟨N, fires, rfl⟩ := (force?_eq_some (h.collapse_wellFormed wf)).1 fired
  rw [h.tokens_collapse wf] at fires
  obtain ⟨O, last, lumped⟩ := h.shortcut.exists_fires_lump (h.keepsPuts_of_apart wf apart u) fires
    (lump_here p q net.tokens)
  have passed := h.shortcut.passes_all (fits.le_capacity wf) (fits.room wf h.ne hp hq)
  refine ⟨net.withTokens O, (forceAll?_eq_some wf).2 ⟨O, passed.concat last, rfl⟩, ?_⟩
  rw [h.collapse_withTokens wf, lumped]

theorem follows : net.Follows t p q (net.collapse t p q) where
  carries := h.tokens_collapse wf
  fires M u net₁ _ fired fits := by
    obtain ⟨N, -, moved⟩ := (force?_eq_some (wf.withTokens M)).1 fired
    rw [withTokens_withTokens] at moved
    rw [← h.collapse_withTokens wf, ← h.collapse_of_retokens wf ⟨N, moved⟩]
    exact (h.withTokens M).force?_collapse (wf.withTokens M) apart fired fits
  leads M u net₁' fits fired := by
    obtain ⟨hp, -⟩ := h.mem_keys wf
    rw [← h.collapse_withTokens wf] at fired
    obtain ⟨net₁, run, rfl⟩ :=
      (h.withTokens M).forceAll?_of_collapse (wf.withTokens M) apart fits fired
    obtain ⟨N, -, moved⟩ := (forceAll?_eq_some (wf.withTokens M)).1 run
    rw [withTokens_withTokens] at moved
    rw [tokens_withTokens, if_pos hp] at run
    exact ⟨net₁, run, h.collapse_of_retokens wf ⟨N, moved⟩⟩

end Bypasses

end Net

/-- On a net that can be built, as long as all its tokens are a token count together, the attempt to
remove a transition does not stop. It changes nothing, or it removes a step from one place to another, and
then, if no transition puts on both places, the net that is left carries the marking with the tokens of the
first place on the second, follows every firing but that of the step, and fires only what the net fires
after the step has passed on all tokens. -/
theorem Built.removal_simulates {net : Net} (built : Built (.net net)) (fits : net.Fits)
    (t : TransitionId) : ∃ removed s,
    (Run.removeSilent net.sources t).run (.start net) = .ok removed s ∧
      ((removed = none ∧ s.net = net) ∨ ∃ p q, removed = some ⟨t, p, q⟩ ∧
        ((∀ u x, net.transition? u = some x → p ∈ x.outputs → q ∉ x.outputs) →
          net.Follows t p q s.net)) := by
  have wf : net.WellFormed := built.wellFormed
  have answers : Answers _ (Run.removeSilent net.sources t) := Run.removeSilent_answers t
  obtain ⟨removed, s, run, -⟩ := answers (.start net) ⟨wf, fun _ => id, fits⟩
  refine ⟨removed, s, run, ?_⟩
  rcases Run.removeSilent_eq_ok (s := .start net) wf (fun _ => id) run with
    ⟨-, none, rfl⟩ | ⟨p, q, bypasses, some, left⟩
  · exact .inl ⟨none, rfl⟩
  · refine .inr ⟨p, q, some, fun apart => ?_⟩
    rw [left]
    exact bypasses.follows wf apart

/-- A silent step between two places, fed from outside and from the place behind it, which one task reads
and writes. -/
def Net.shuttle : Net :=
  .after [.addPlace (.ofId ⟨"start"⟩ 1), .addPlace (.ofId ⟨"near"⟩ 2), .addPlace (.ofId ⟨"far"⟩ 1),
    .addPlace (.blank ⟨"end"⟩),
    .addTransition (.bare ⟨"send"⟩ "send" true), .connect ⟨"start"⟩ ⟨"send"⟩ ⟨"near"⟩,
    .addTransition (.silent ⟨"pass"⟩), .connect ⟨"near"⟩ ⟨"pass"⟩ ⟨"far"⟩,
    .addTransition (.bare ⟨"return"⟩ "return" true), .connect ⟨"far"⟩ ⟨"return"⟩ ⟨"near"⟩,
    .addTransition (.bare ⟨"turn"⟩ "turn" true), .connect ⟨"far"⟩ ⟨"turn"⟩ ⟨"far"⟩,
    .addTransition (.bare ⟨"receive"⟩ "receive" true), .connect ⟨"far"⟩ ⟨"receive"⟩ ⟨"end"⟩]

theorem shuttle_removal_simulates : ∃ s,
    (Run.removeSilent Net.shuttle.sources ⟨"pass"⟩).run (.start .shuttle) =
      .ok (some ⟨⟨"pass"⟩, ⟨"near"⟩, ⟨"far"⟩⟩) s ∧
    s.net.tokens ⟨"far"⟩ = 3 ∧
    (∃ net₁, Net.shuttle.force? ⟨"return"⟩ = some net₁ ∧ s.net.force? ⟨"return"⟩ =
      some (s.net.withTokens (lump ⟨"near"⟩ ⟨"far"⟩ net₁.tokens))) ∧
    ∃ net₁ net₁', s.net.force? ⟨"turn"⟩ = some net₁' ∧
      Net.shuttle.forceAll? [⟨"pass"⟩, ⟨"pass"⟩, ⟨"turn"⟩] = some net₁ ∧
      net₁' = s.net.withTokens (lump ⟨"near"⟩ ⟨"far"⟩ net₁.tokens) := by
  have built : Built (.net .shuttle) := built_after _
  have fits : Net.shuttle.Fits := by decide +kernel
  obtain ⟨removed, s, run, outcome⟩ := built.removal_simulates fits ⟨"pass"⟩
  have step : (match (Run.removeSilent Net.shuttle.sources ⟨"pass"⟩).run (.start .shuttle) with
      | .ok removed s => removed == some ⟨⟨"pass"⟩, ⟨"near"⟩, ⟨"far"⟩⟩ &&
          (s.net.force? ⟨"turn"⟩).isSome
      | .error _ _ => false) = true := by decide +kernel
  rw [run, Bool.and_eq_true, beq_iff_eq, Option.isSome_iff_exists] at step
  obtain ⟨rfl, net₁', turned⟩ := step
  rcases outcome with ⟨none, -⟩ | ⟨p, q, eq, follows⟩
  · cases none
  obtain ⟨rfl, rfl⟩ : ⟨"near"⟩ = p ∧ ⟨"far"⟩ = q := by simpa using eq
  have apart : ∀ u x, Net.shuttle.transition? u = some x →
      ⟨"near"⟩ ∈ x.outputs → ⟨"far"⟩ ∉ x.outputs := by
    have all : Net.shuttle.transitions.values.all
        (fun x => ⟨"near"⟩ ∉ x.outputs ∨ ⟨"far"⟩ ∉ x.outputs) = true := by decide +kernel
    intro u x hx near
    have either := List.all_eq_true.1 all x (OrderedMap.mem_values.2 ⟨u, hx⟩)
    exact (of_decide_eq_true either).resolve_left (not_not_intro near)
  have follows := follows apart
  have carried : s.net.withTokens (lump ⟨"near"⟩ ⟨"far"⟩ Net.shuttle.tokens) = s.net := by
    rw [← follows.carries, Net.withTokens_tokens]
  have own : Net.shuttle.withTokens Net.shuttle.tokens = Net.shuttle := Net.withTokens_tokens
  have far : s.net.tokens ⟨"far"⟩ = 3 := by
    rw [follows.carries]
    decide +kernel
  have near : Net.shuttle.tokens ⟨"near"⟩ = 2 := by decide +kernel
  have back : (match Net.shuttle.force? ⟨"return"⟩ with
      | some net₁ => decide net₁.Fits
      | none => false) = true := by decide +kernel
  rcases returned : Net.shuttle.force? ⟨"return"⟩ with - | net₁ <;> rw [returned] at back
  · cases back
  have fired := follows.fires Net.shuttle.tokens ⟨"return"⟩ net₁ (by rwa [own])
    (by rw [own, returned]) (of_decide_eq_true back)
  have led := follows.leads Net.shuttle.tokens ⟨"turn"⟩ net₁' (by rwa [own])
    (by rw [carried, turned])
  have passes : List.replicate 2 (⟨"pass"⟩ : TransitionId) ++ [⟨"turn"⟩] =
      [⟨"pass"⟩, ⟨"pass"⟩, ⟨"turn"⟩] := rfl
  rw [own, carried] at fired
  rw [own, near, passes] at led
  obtain ⟨net₂, run₂, reached⟩ := led
  refine ⟨s, run, far, ⟨net₁, rfl, fired.resolve_left ?_⟩, net₂, net₁', turned, run₂, reached⟩
  rintro ⟨eq, -⟩
  simp at eq

end ProcessNet
