import ProcessNet.Proofs.Reduction.Pruned
import ProcessNet.Proofs.TokenGame.Shortcut

/-!
What a reduction does to arcs and runs. A reduction never gives a transition more output arcs, and it
takes one away where a redirected arc falls together with another. A transition that loses none puts
what it did, counted on the places that are left; and as long as none is lost at all, every run of the
reduced net comes from one of the net. Since a complete run takes as many tokens as it puts, a run in
which an arc is lost cannot be complete afterwards.
-/

namespace ProcessNet

open Game (KeepsPuts Shortcut)

theorem OrderedSet.size_eq_sum {s : OrderedSet PlaceId} {L : Finset PlaceId}
    (sub : ∀ p ∈ s, p ∈ L) : s.size = ∑ p ∈ L, if p ∈ s then 1 else 0 := by
  have within : L.filter (· ∈ s) = s.toList.toFinset := by
    ext p
    rw [Finset.mem_filter, List.mem_toFinset]
    exact ⟨And.right, fun hp => ⟨sub p hp, hp⟩⟩
  rw [← Finset.card_filter, within, List.toFinset_card_of_nodup s.nodup, size]

namespace Net

def inputArcs (net : Net) (t : TransitionId) : ℕ := (net.transition? t).elim 1 (·.inputs.size)

/-- The number of output arcs, counted as one for a transition that the net does not have. -/
def outputArcs (net : Net) (t : TransitionId) : ℕ := (net.transition? t).elim 1 (·.outputs.size)

variable {net net' : Net} {t u : TransitionId} {p q source sink : PlaceId} {x : Transition}
  {ts : List TransitionId} {L : Finset PlaceId} {M N : PlaceId → ℕ}

theorem inputArcs_eq_sum (wf : net.WellFormed) (hL : ∀ p ∈ net.places.keys, p ∈ L)
    (hx : net.transition? t = some x) : net.inputArcs t = ∑ p ∈ L, x.move.take p := by
  rw [inputArcs, hx, Option.elim_some]
  exact OrderedSet.size_eq_sum fun p hp => hL p ((wf.admits hx).inputs p hp)

theorem outputArcs_eq_sum (wf : net.WellFormed) (hL : ∀ p ∈ net.places.keys, p ∈ L)
    (hx : net.transition? t = some x) : net.outputArcs t = ∑ p ∈ L, x.move.put p := by
  rw [outputArcs, hx, Option.elim_some]
  exact OrderedSet.size_eq_sum fun p hp => hL p ((wf.admits hx).outputs p hp)

theorem WellFormed.arcs_balance (wf : net.WellFormed) (hL : ∀ p ∈ net.places.keys, p ∈ L)
    (run : net.game.Runs M ts N) : ∑ p ∈ L, N p + (ts.map net.inputArcs).sum =
      ∑ p ∈ L, M p + (ts.map net.outputArcs).sum := by
  induction run with
  | nil _ => rfl
  | @cons M N O t rest _ fires _ ih =>
    obtain ⟨m, hm, -, balance, -⟩ := fires
    obtain ⟨x, hx, rfl⟩ := Option.map_eq_some_iff.1 hm
    have one := Finset.sum_congr (rfl : L = L) fun p _ => balance p
    rw [Finset.sum_add_distrib, Finset.sum_add_distrib, ← inputArcs_eq_sum wf hL hx,
      ← outputArcs_eq_sum wf hL hx] at one
    rw [List.map_cons, List.map_cons, List.sum_cons, List.sum_cons]
    omega

theorem put_redirectOutputs_le (ne : p ≠ q) (r : PlaceId) :
    (redirectOutputs p q x).move.put r ≤ lump p q x.move.put r := by
  simp only [Transition.move, mem_outputs_redirectOutputs]
  by_cases hp : r = p
  · simp [hp, ne]
  · by_cases hq : r = q
    · rw [hq, lump_there ne]
      by_cases hx : q ∈ x.outputs <;> by_cases hy : p ∈ x.outputs <;> simp [hx, hy, ne.symm]
    · rw [lump_elsewhere hp hq]
      simp [hp, hq]

theorem put_redirectOutputs_eq (ne : p ≠ q) (apart : ¬(p ∈ x.outputs ∧ q ∈ x.outputs)) :
    (redirectOutputs p q x).move.put = lump p q x.move.put := by
  funext r
  simp only [Transition.move, mem_outputs_redirectOutputs]
  by_cases hp : r = p
  · simp [hp, ne, lump_here]
  · by_cases hq : r = q
    · rw [hq, lump_there ne]
      by_cases hx : q ∈ x.outputs <;> by_cases hy : p ∈ x.outputs <;>
        simp_all [ne.symm]
    · rw [lump_elsewhere hp hq]
      simp [hp, hq]

namespace Bypasses

variable (h : net.Bypasses t p q)

include h

theorem move_eq (hx : net.transition? t = some x) : x.move = .ofLists [p] [q] := by
  obtain ⟨y, hy, -, -, inputs, outputs⟩ := h.passes
  obtain rfl := Option.some.inj (hx.symm.trans hy)
  rw [← inputs, ← outputs]
  rfl

theorem shortcut : net.game.Shortcut (net.bypass t p q).game t p q where
  ne := h.ne
  passes := by
    obtain ⟨x, hx, -⟩ := h.passes
    rw [game_eq_some hx, h.move_eq hx]
  gone := by rw [game, transition?_bypass, if_pos rfl, Option.map_none]
  sends u m hu hm := by
    obtain ⟨y, hy, rfl⟩ := Option.map_eq_some_iff.1 hm
    refine ⟨(redirectOutputs p q y).move, ?_, ?_⟩
    · rw [game, transition?_bypass, if_neg hu, hy, Option.map_some, Option.map_some]
    · simp only [Transition.move, inputs_redirectOutputs]
  onto u m' hm' := by
    obtain ⟨y, hy, -⟩ := Option.map_eq_some_iff.1 hm'
    rw [transition?_bypass] at hy
    split at hy
    · cases hy
    · obtain ⟨z, hz, -⟩ := Option.map_eq_some_iff.1 hy
      exact ⟨z.move, game_eq_some hz⟩
  only u m hu hm := by
    obtain ⟨y, hy, rfl⟩ := Option.map_eq_some_iff.1 hm
    exact if_neg fun hp => hu (h.only u y hy hp)
  single u m hm := by
    obtain ⟨y, -, rfl⟩ := Option.map_eq_some_iff.1 hm
    simp only [Transition.move]
    split <;> omega

theorem mem_keys (wf : net.WellFormed) : p ∈ net.places.keys ∧ q ∈ net.places.keys :=
  ⟨wf.consumes_mem h.consumes, wf.produces_mem h.produces⟩

theorem outputArcs_self : (net.bypass t p q).outputArcs t = net.outputArcs t := by
  obtain ⟨x, hx, -, -, -, outputs⟩ := h.passes
  rw [outputArcs, transition?_bypass, if_pos rfl, outputArcs, hx, Option.elim_some, OrderedSet.size,
    outputs]
  rfl

theorem outputArcs_sums (wf : net.WellFormed) (hu : u ≠ t) (hx : net.transition? u = some x) :
    (net.bypass t p q).outputArcs u =
        ∑ r ∈ net.places.keys.toFinset, (redirectOutputs p q x).move.put r ∧
      net.outputArcs u = ∑ r ∈ net.places.keys.toFinset, lump p q x.move.put r := by
  have hL : ∀ p ∈ net.places.keys, p ∈ net.places.keys.toFinset := fun p => List.mem_toFinset.2
  obtain ⟨hp, hq⟩ := (h.mem_keys wf).imp (hL p) (hL q)
  have hx' : (net.bypass t p q).transition? u = some (redirectOutputs p q x) := by
    rw [transition?_bypass, if_neg hu, hx, Option.map_some]
  rw [outputArcs_eq_sum wf hL hx, sum_lump h.ne hp hq]
  exact ⟨outputArcs_eq_sum (h.bypass_wellFormed wf) hL hx', rfl⟩

omit h in
theorem outputArcs_unknown (hu : u ≠ t) (hx : net.transition? u = none) :
    (net.bypass t p q).outputArcs u = net.outputArcs u := by
  rw [outputArcs, transition?_bypass, if_neg hu, outputArcs, hx]
  rfl

theorem outputArcs_le (wf : net.WellFormed) (u : TransitionId) :
    (net.bypass t p q).outputArcs u ≤ net.outputArcs u := by
  by_cases hu : u = t
  · rw [hu, h.outputArcs_self]
  · rcases hx : net.transition? u with _ | x
    · rw [outputArcs_unknown hu hx]
    · obtain ⟨after, before⟩ := h.outputArcs_sums wf hu hx
      rw [after, before]
      exact Finset.sum_le_sum fun r _ => put_redirectOutputs_le h.ne r

theorem outputArcs_eq (wf : net.WellFormed)
    (apart : ∀ u x, net.transition? u = some x → ¬(p ∈ x.outputs ∧ q ∈ x.outputs))
    (u : TransitionId) : (net.bypass t p q).outputArcs u = net.outputArcs u := by
  by_cases hu : u = t
  · rw [hu, h.outputArcs_self]
  · rcases hx : net.transition? u with _ | x
    · exact outputArcs_unknown hu hx
    · obtain ⟨after, before⟩ := h.outputArcs_sums wf hu hx
      rw [after, before, put_redirectOutputs_eq h.ne (apart u x hx)]

theorem keepsPuts (wf : net.WellFormed)
    (kept : (net.bypass t p q).outputArcs u = net.outputArcs u) :
    net.game.KeepsPuts (net.bypass t p q).game p q u := by
  have hL : ∀ p ∈ net.places.keys, p ∈ net.places.keys.toFinset := fun p => List.mem_toFinset.2
  obtain ⟨hp, hq⟩ := (h.mem_keys wf).imp (hL p) (hL q)
  intro m m' hm hm'
  obtain ⟨x, hx, rfl⟩ := Option.map_eq_some_iff.1 hm
  obtain ⟨y, hy, rfl⟩ := Option.map_eq_some_iff.1 hm'
  have hu := h.shortcut.ne_of_survives hm'
  rw [transition?_bypass, if_neg hu, hx, Option.map_some] at hy
  obtain rfl := Option.some.inj hy
  obtain ⟨after, before⟩ := h.outputArcs_sums wf hu hx
  rw [after, before] at kept
  have le := put_redirectOutputs_le (x := x) h.ne
  have same := (Finset.sum_eq_sum_iff_of_le fun r _ => le r).1 kept
  funext r
  by_cases hr : r ∈ net.places.keys.toFinset
  · exact same r hr
  · have absent : r ∉ x.outputs := fun mem => hr (hL r ((wf.admits hx).outputs r mem))
    have elsewhere := lump_elsewhere (M := x.move.put) (fun eq : r = p => hr (eq ▸ hp))
      fun eq : r = q => hr (eq ▸ hq)
    have zero : x.move.put r = 0 := if_neg absent
    have := le r
    omega

end Bypasses

theorem Pruning.keys_subset (h : net.Pruning net') : net'.places.keys ⊆ net.places.keys := by
  cases h with
  | bypass => exact List.Subset.refl _
  | retoken M => rw [keys_places_withTokens]; exact List.Subset.refl _
  | drop => exact fun p hp => (mem_keys_dropUnconnected.1 hp).1

theorem Pruning.inputArcs_eq (h : net.Pruning net') : net'.inputArcs = net.inputArcs := by
  cases h with
  | @bypass t p q h =>
    funext u
    by_cases hu : u = t
    · subst hu
      obtain ⟨x, hx, -, -, inputs, -⟩ := h.passes
      rw [inputArcs, transition?_bypass, if_pos rfl, inputArcs, hx, Option.elim_some,
        OrderedSet.size, inputs]
      rfl
    · rw [inputArcs, transition?_bypass, if_neg hu, inputArcs]
      cases net.transition? u <;> simp
  | retoken => rfl
  | drop => rfl

theorem Pruning.outputArcs_le (h : net.Pruning net') (wf : net.WellFormed) (u : TransitionId) :
    net'.outputArcs u ≤ net.outputArcs u := by
  cases h with
  | bypass h => exact h.outputArcs_le wf u
  | retoken => exact Nat.le_refl _
  | drop => exact Nat.le_refl _

theorem Pruning.silent (h : net.Pruning net') (hx : net.transition? t = some x)
    (gone : net'.transition? t = none) : x.visible = false := by
  cases h with
  | @bypass u p q h =>
    obtain ⟨y, hy, silent, -⟩ := h.passes
    rw [transition?_bypass] at gone
    split at gone
    · next eq =>
      subst eq
      obtain rfl := Option.some.inj (hx.symm.trans hy)
      exact silent
    · rw [hx] at gone
      cases gone
  | retoken => exact absurd (hx.symm.trans gone) nofun
  | drop => exact absurd (hx.symm.trans gone) nofun

theorem Bypasses.ne_ends (h : net.Bypasses t p q) (ends : net.HasEnds source sink) :
    p ≠ source ∧ p ≠ sink := by
  constructor
  · rintro rfl
    exact (mem_sources.1 ((ends.source p).2 rfl)).2 h.fed
  · rintro rfl
    exact (mem_sinks.1 ((ends.sink p).2 rfl)).2 h.consumes

theorem Bypasses.lump_single (h : net.Bypasses t p q) (ends : net.HasEnds source sink) :
    lump p q (Pi.single source 1) = Pi.single source 1 ∧
      lump p q (Pi.single sink 1) = Pi.single sink 1 := by
  obtain ⟨no_source, no_sink⟩ := h.ne_ends ends
  exact ⟨lump_eq_self (Pi.single_eq_of_ne no_source 1), lump_eq_self (Pi.single_eq_of_ne no_sink 1)⟩

theorem Pruning.runs_back (h : net.Pruning net') (wf : net.WellFormed)
    (ends : net.HasEnds source sink) (kept : ∀ t ∈ ts, net'.outputArcs t = net.outputArcs t)
    (run : net'.game.Runs (Pi.single source 1) ts N) :
    ∃ us, net.game.Runs (Pi.single source 1) us N ∧ us.filter net'.game.known = ts := by
  have same : ts.filter net'.game.known = ts := List.filter_eq_self.2 run.known
  cases h with
  | @bypass t p q h =>
    have none : (Pi.single source 1 : PlaceId → ℕ) p = 0 := by
      rw [← (h.lump_single ends).1, lump_here]
    exact h.shortcut.runs_back (fun u hu => h.keepsPuts wf (kept u hu)) run none
  | retoken => exact ⟨ts, run, same⟩
  | drop => exact ⟨ts, run, same⟩

namespace Pruned

theorem single (h : net.Pruning net') : net.Pruned net' := Relation.ReflTransGen.single h

theorem keys_subset (h : net.Pruned net') : net'.places.keys ⊆ net.places.keys := by
  induction h with
  | refl => exact List.Subset.refl _
  | tail _ step ih => exact List.Subset.trans step.keys_subset ih

theorem inputArcs_eq (h : net.Pruned net') : net'.inputArcs = net.inputArcs := by
  induction h with
  | refl => rfl
  | tail _ step ih => rw [step.inputArcs_eq, ih]

theorem outputArcs_le (h : net.Pruned net') (wf : net.WellFormed) (t : TransitionId) :
    net'.outputArcs t ≤ net.outputArcs t := by
  induction h with
  | refl => exact Nat.le_refl _
  | @tail net₁ _ pruned step ih =>
    have pruned : net.Pruned net₁ := pruned
    exact (step.outputArcs_le (pruned.wellFormed wf) t).trans ih

theorem known (h : net.Pruned net') (ht : net'.game.known t = true) : net.game.known t = true := by
  obtain ⟨m, hm⟩ := Option.isSome_iff_exists.1 ht
  obtain ⟨y, hy, -⟩ := Option.map_eq_some_iff.1 hm
  obtain ⟨x, hx, -⟩ := h.origin hy
  exact Game.known_of_eq_some (game_eq_some hx)

theorem filter_known (h : net.Pruned net') (ts : List TransitionId) :
    (ts.filter net.game.known).filter net'.game.known = ts.filter net'.game.known := by
  rw [List.filter_filter]
  refine List.filter_congr fun t _ => ?_
  rcases left : net'.game.known t with _ | _
  · rfl
  · rw [h.known left]
    rfl

theorem silent (h : net.Pruned net') (hx : net.transition? t = some x)
    (gone : net'.transition? t = none) : x.visible = false := by
  induction h with
  | refl => exact absurd (hx.symm.trans gone) nofun
  | @tail net₁ net' pruned step ih =>
    have pruned : net.Pruned net₁ := pruned
    rcases hy : net₁.transition? t with _ | y
    · exact ih hy
    · obtain ⟨z, hz, same⟩ := pruned.origin hy
      obtain rfl := Option.some.inj (hx.symm.trans hz)
      rw [← same]
      exact step.silent hy gone

theorem sum_map_filter (ts : List TransitionId) {keep : TransitionId → Bool} {f g : TransitionId → ℕ}
    (h : ∀ t ∈ ts, keep t = false → f t = g t) :
    (ts.map f).sum + ((ts.filter keep).map g).sum = ((ts.filter keep).map f).sum + (ts.map g).sum := by
  induction ts with
  | nil => rfl
  | cons t rest ih =>
    have ih := ih fun u hu => h u (List.mem_cons_of_mem t hu)
    rcases left : keep t with _ | _
    · have same := h t List.mem_cons_self left
      rw [List.filter_cons_of_neg (by simp [left]), List.map_cons, List.map_cons, List.sum_cons,
        List.sum_cons]
      omega
    · rw [List.filter_cons_of_pos left]
      simp only [List.map_cons, List.sum_cons]
      omega

variable (wf : net.WellFormed) (ends : net.HasEnds source sink)

include wf

theorem outputArcs_between {net₁ : Net} (pruned : net.Pruned net₁) (step : net₁.Pruning net')
    (kept : net'.outputArcs t = net.outputArcs t) :
    net₁.outputArcs t = net.outputArcs t ∧ net'.outputArcs t = net₁.outputArcs t := by
  have := pruned.outputArcs_le wf t
  have := step.outputArcs_le (pruned.wellFormed wf) t
  omega

include ends

/-- A run of the reduced net comes from one of the net if no transition of it and none that was
removed has lost an arc. -/
theorem runs_back (h : net.Pruned net')
    (kept : ∀ t, t ∈ ts ∨ ¬net'.game.known t = true → net'.outputArcs t = net.outputArcs t)
    (run : net'.game.Runs (Pi.single source 1) ts N) :
    ∃ us, net.game.Runs (Pi.single source 1) us N ∧ us.filter net'.game.known = ts := by
  induction h generalizing ts with
  | refl => exact ⟨ts, run, List.filter_eq_self.2 run.known⟩
  | @tail net₁ net' pruned step ih =>
    have pruned : net.Pruned net₁ := pruned
    have between := fun t ht => outputArcs_between wf pruned step (kept t ht)
    obtain ⟨us, run₁, kept₁⟩ := step.runs_back (pruned.wellFormed wf) (pruned.hasEnds ends)
      (fun t ht => (between t (.inl ht)).2) run
    -- what the longer run has besides has been removed
    have earlier : ∀ t, t ∈ us ∨ ¬net₁.game.known t = true →
        net₁.outputArcs t = net.outputArcs t := by
      intro t ht
      refine (between t ?_).1
      by_cases left : net'.game.known t = true
      · have known := (single step).known left
        have used := ht.resolve_right (not_not_intro known)
        exact .inl (kept₁ ▸ List.mem_filter.2 ⟨used, left⟩)
      · exact .inr left
    obtain ⟨vs, run₂, kept₂⟩ := ih earlier run₁
    exact ⟨vs, run₂, by rw [← kept₁, ← kept₂, (single step).filter_known]⟩

omit ends in
/-- A run that loses an arc is not complete any more: a complete run takes as many tokens as it
puts. -/
theorem kept_of_runs (h : net.Pruned net') (hL : ∀ p ∈ net.places.keys, p ∈ L)
    (run : net.game.Runs M ts N) (run' : net'.game.Runs M (ts.filter net'.game.known) N) :
    ∀ t ∈ ts, net'.outputArcs t = net.outputArcs t := by
  have balance := wf.arcs_balance hL run
  have balance' := (h.wellFormed wf).arcs_balance (fun p hp => hL p (h.keys_subset hp)) run'
  have removed : ∀ t, net'.game.known t = false → net'.inputArcs t = net'.outputArcs t := by
    intro t gone
    rw [Game.known, game, Option.isSome_map, Option.isSome_eq_false_iff, Option.isNone_iff_eq_none]
      at gone
    rw [inputArcs, outputArcs, gone, Option.elim_none, Option.elim_none]
  have arcs := sum_map_filter ts fun t _ => removed t
  rw [h.inputArcs_eq] at arcs balance'
  intro t ht
  by_contra lost
  have less := List.sum_lt_sum net'.outputArcs net.outputArcs (fun t _ => h.outputArcs_le wf t)
    ⟨t, ht, Nat.lt_of_le_of_ne (h.outputArcs_le wf t) lost⟩
  omega

end Pruned

end Net

end ProcessNet
