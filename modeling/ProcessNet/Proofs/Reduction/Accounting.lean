import ProcessNet.Net.Connectivity
import ProcessNet.Proofs.Reduction.Interface

/-!
The report of a reduction as an account of the net. A place that has been bypassed has no arc left, so
it is neither bypassed again nor the end of a later redirection, and what is moved always reaches a
place that still has arcs. Hence no token is moved twice or dropped with a bypassed place: whatever a
surviving place has gained lay on bypassed places whose redirections lead there, and only what lay on
places without arcs is lost.
-/

namespace ProcessNet

/-- What redirections bring to a place: the tokens of every bypassed place from which its own
redirection and the later ones lead there. -/
def brought (M : PlaceId → ℕ) (r : PlaceId) : List Bypass → ℕ
  | [] => 0
  | step :: later =>
    (if redirect later step.redirectedTo = r then M step.place else 0) + brought M r later

section Brought

variable {M : PlaceId → ℕ} {p q r : PlaceId} {t : TransitionId}

theorem redirect_concat (steps : List Bypass) (step : Bypass) (p : PlaceId) :
    redirect (steps ++ [step]) p =
      if redirect steps p = step.place then step.redirectedTo else redirect steps p :=
  redirect_append steps [step] p

theorem brought_concat_there (ne : p ≠ q) (steps : List Bypass) :
    brought M q (steps ++ [⟨t, p, q⟩]) = brought M q steps + brought M p steps + M p := by
  induction steps with
  | nil => simp [brought, redirect]
  | cons step later ih =>
    rw [List.cons_append, brought, brought, brought, ih, redirect_concat]
    dsimp only
    by_cases hp : redirect later step.redirectedTo = p
    · simp only [hp, if_pos, if_neg ne]
      omega
    · simp only [if_neg hp]
      omega

theorem brought_concat_elsewhere (hp : r ≠ p) (hq : r ≠ q) (steps : List Bypass) :
    brought M r (steps ++ [⟨t, p, q⟩]) = brought M r steps := by
  induction steps with
  | nil => simp [brought, redirect, hq.symm]
  | cons step later ih =>
    rw [List.cons_append, brought, brought, ih, redirect_concat]
    dsimp only
    by_cases at_p : redirect later step.redirectedTo = p
    · rw [if_pos at_p, if_neg hq.symm, at_p, if_neg hp.symm]
    · rw [if_neg at_p]

end Brought

namespace Net

/-- The report lists what the first net has and the second has not, and tells where every token of
the first net went that is still in the second. -/
structure AccountedBy (net : Net) (report : PruneReport) (net' : Net) : Prop where
  transitions_listed : report.transitions = report.steps.map (·.transition)
  transitions_nodup : report.transitions.Nodup
  transitions_gone : ∀ t ∈ report.transitions,
    t ∈ net.transitions.keys ∧ t ∉ net'.transitions.keys
  bypassed_nodup : (report.steps.map (·.place)).Nodup
  places_nodup : report.places.Nodup
  mem_places : ∀ p, p ∈ report.places ↔
    p ∈ report.steps.map (·.place) ∨ p ∈ net.places.keys ∧ net.isIsolated p = true
  places_left : net'.places.keys = net.places.keys.filter (· ∉ report.places)
  tokens : ∀ p ∈ net'.places.keys,
    net'.tokens p = net.tokens p + brought net.tokens p report.steps

def live (net : Net) : Finset PlaceId := net.dropUnconnected.places.keys.toFinset

variable {net net' : Net} {report : PruneReport} {t : TransitionId} {p q r : PlaceId}

theorem isIsolated_eq_not_isConnected (net : Net) (p : PlaceId) :
    net.isIsolated p = !net.isConnected p := by
  have parts : net.isIsolated p = true ↔
      ∀ x ∈ net.transitions.values, p ∉ x.outputs ∧ p ∉ x.inputs := by
    simp [isIsolated, producers, consumers, List.filter_eq_nil_iff, forall_and]
  rw [Bool.eq_iff_iff, parts, isConnected]
  simp [and_comm]

theorem WellFormed.mem_of_isConnected (wf : net.WellFormed) (connected : net.isConnected p = true) :
    p ∈ net.places.keys :=
  (isConnected_iff.1 connected).elim wf.consumes_mem wf.produces_mem

theorem mem_live (wf : net.WellFormed) : p ∈ net.live ↔ net.isConnected p = true := by
  rw [live, List.mem_toFinset, mem_keys_dropUnconnected, ← isConnected_iff]
  exact and_iff_right_of_imp wf.mem_of_isConnected

theorem connected_of_unconnected (whole : net.unconnected = []) (hp : p ∈ net.places.keys) :
    net.isConnected p = true := by
  simpa using List.filter_eq_nil_iff.1 whole p hp

theorem keys_dropUnconnected (net : Net) :
    net.dropUnconnected.places.keys = net.places.keys.filter net.isConnected := by
  rw [dropUnconnected, OrderedMap.keys, OrderedMap.filter, OrderedMap.keys, List.filter_map]
  rfl

namespace Bypasses

variable (h : net.Bypasses t p q)

include h

theorem isConnected_collapse :
    (net.collapse t p q).isConnected r = true ↔ net.isConnected r = true ∧ r ≠ p := by
  have arcs : (net.collapse t p q).isConnected r = (net.bypass t p q).isConnected r := rfl
  rw [arcs, isConnected_iff, isConnected_iff, h.bypass_consumes, h.bypass_produces, or_and_right]

theorem connected : net.isConnected p = true ∧ net.isConnected q = true :=
  ⟨isConnected_iff.2 (.inl h.consumes), isConnected_iff.2 (.inr h.produces)⟩

theorem tokens_collapse (wf : net.WellFormed) :
    (net.collapse t p q).tokens = lump p q net.tokens := by
  refine tokens_withTokens_of_support fun r hr => ?_
  have hp : r ≠ p := fun eq => hr (eq.symm ▸ wf.consumes_mem h.consumes)
  have hq : r ≠ q := fun eq => hr (eq.symm ▸ wf.produces_mem h.produces)
  rw [lump_elsewhere hp hq]
  exact tokens_of_not_mem hr

theorem sum_live_collapse (wf : net.WellFormed) :
    ∑ r ∈ (net.collapse t p q).live, (net.collapse t p q).tokens r =
      ∑ r ∈ net.live, net.tokens r := by
  have wf' : (net.collapse t p q).WellFormed := (h.bypass_wellFormed wf).withTokens _
  have hp : p ∈ net.live := (mem_live wf).2 h.connected.1
  have hq : q ∈ net.live := (mem_live wf).2 h.connected.2
  have left : (net.collapse t p q).live = net.live.erase p := by
    ext r
    rw [mem_live wf', h.isConnected_collapse, Finset.mem_erase, mem_live wf, and_comm]
  rw [left, h.tokens_collapse wf, Finset.sum_erase _ (lump_here p q net.tokens),
    sum_lump h.ne hp hq]

end Bypasses

namespace Reduces

variable (h : net.Reduces report net')

include h

theorem isConnected_iff_not_bypassed : net'.isConnected r = true ↔
    net.isConnected r = true ∧ r ∉ report.steps.map (·.place) := by
  induction h with
  | refl => simp [PruneReport.none]
  | collapse _ bypasses ih =>
    rw [bypasses.isConnected_collapse, ih]
    simp [PruneReport.append, PruneReport.ofSteps, and_assoc, not_or]
  | drop _ ih =>
    rw [isConnected_dropUnconnected, ih]
    simp [PruneReport.append, PruneReport.ofPlaces]

theorem bypassed_nodup : (report.steps.map (·.place)).Nodup := by
  induction h with
  | refl => exact List.nodup_nil
  | collapse before bypasses ih =>
    have fresh := (before.isConnected_iff_not_bypassed.1 bypasses.connected.1).2
    simpa [PruneReport.append, PruneReport.ofSteps, List.nodup_append, ih] using fresh
  | drop _ ih => simpa [PruneReport.append, PruneReport.ofPlaces] using ih

theorem bypassed_connected : ∀ p ∈ report.steps.map (·.place), net.isConnected p = true := by
  induction h with
  | refl => exact fun p hp => nomatch hp
  | collapse before bypasses ih =>
    intro r hr
    rw [PruneReport.append, List.map_append, List.mem_append] at hr
    rcases hr with hr | hr
    · exact ih r hr
    · obtain rfl := List.mem_singleton.1 hr
      exact (before.isConnected_iff_not_bypassed.1 bypasses.connected.1).1
  | drop _ ih => simpa [PruneReport.append, PruneReport.ofPlaces] using ih

theorem transitions_nodup : report.transitions.Nodup := by
  induction h with
  | refl => exact List.nodup_nil
  | @collapse report net₁ t _ _ before bypasses ih =>
    have fresh : t ∉ report.transitions := by
      obtain ⟨x, hx, -⟩ := bypasses.passes
      have there := OrderedMap.mem_keys_of_get? hx
      rw [before.reducedBy.keys, List.mem_filter, decide_eq_true_eq] at there
      exact there.2
    exact List.nodup_append_comm.1 (List.nodup_cons.2 ⟨fresh, ih⟩)
  | drop _ ih => simpa [PruneReport.append, PruneReport.ofPlaces] using ih

theorem keys_places : net'.places.keys = net.places.keys.filter (· ∉ report.places) := by
  induction h with
  | refl => simp [PruneReport.none]
  | @collapse report net₁ t p q _ _ ih =>
    have same : (net₁.collapse t p q).places.keys = net₁.places.keys := keys_places_withTokens
    rw [same, ih]
    simp [PruneReport.append, PruneReport.ofSteps]
  | @drop report net₁ _ ih =>
    rw [keys_dropUnconnected, ih, List.filter_filter]
    refine List.filter_congr fun p hp => ?_
    have there : p ∈ net₁.places.keys ↔ p ∉ report.places := by
      rw [ih, List.mem_filter, decide_eq_true_eq, and_iff_right hp]
    rw [Bool.eq_iff_iff, Bool.and_eq_true, decide_eq_true_eq, decide_eq_true_eq,
      PruneReport.append, PruneReport.ofPlaces, List.mem_append, unconnected, List.mem_filter,
      there]
    cases net₁.isConnected p <;> simp

theorem places_nodup : report.places.Nodup := by
  induction h with
  | refl => exact List.nodup_nil
  | collapse _ _ ih => simpa [PruneReport.append, PruneReport.ofSteps] using ih
  | @drop report net₁ before ih =>
    refine List.nodup_append'.2 ⟨ih, net₁.places.nodup_keys.filter _, fun p earlier now => ?_⟩
    have there := (List.mem_filter.1 now).1
    rw [before.keys_places, List.mem_filter, decide_eq_true_eq] at there
    exact there.2 earlier

theorem of_mem_places : ∀ p ∈ report.places,
    p ∈ net.places.keys ∧ net'.isConnected p = false := by
  induction h with
  | refl => exact fun p hp => nomatch hp
  | collapse _ bypasses ih =>
    intro p hp
    rw [PruneReport.append, PruneReport.ofSteps, List.append_nil] at hp
    obtain ⟨there, cut⟩ := ih p hp
    refine ⟨there, Bool.eq_false_iff.2 fun connected => ?_⟩
    rw [(bypasses.isConnected_collapse.1 connected).1] at cut
    cases cut
  | @drop report net₁ before ih =>
    intro p hp
    rcases List.mem_append.1 hp with hp | hp
    · exact ih p hp
    · obtain ⟨there, cut⟩ := List.mem_filter.1 hp
      rw [before.keys_places, List.mem_filter] at there
      rw [isConnected_dropUnconnected]
      exact ⟨there.1, by simpa using cut⟩

theorem tokens (wf : net.WellFormed) (connected : net'.isConnected r = true) :
    net'.tokens r = net.tokens r + brought net.tokens r report.steps := by
  induction h generalizing r with
  | refl => simp [PruneReport.none, brought]
  | @collapse report net₁ t p q before bypasses ih =>
    obtain ⟨at_p, at_q⟩ := bypasses.connected
    obtain ⟨before_r, hp⟩ := bypasses.isConnected_collapse.1 connected
    rw [bypasses.tokens_collapse (before.wellFormed wf)]
    show _ = net.tokens r + brought net.tokens r (report.steps ++ [⟨t, p, q⟩])
    -- `q` gets what lay on `p` and all that had been brought there before
    by_cases hq : r = q
    · rw [hq, lump_there bypasses.ne, ih at_p, ih at_q, brought_concat_there bypasses.ne]
      omega
    · rw [lump_elsewhere hp hq, ih before_r, brought_concat_elsewhere hp hq]
  | @drop report net₁ before ih =>
    have there := (mem_live (before.wellFormed wf)).2 connected
    rw [tokens_dropUnconnected (List.mem_toFinset.1 there), ih connected]
    simp [PruneReport.append, PruneReport.ofPlaces]

theorem sum_live (wf : net.WellFormed) :
    ∑ r ∈ net'.live, net'.tokens r = ∑ r ∈ net.live, net.tokens r := by
  induction h with
  | refl => rfl
  | collapse before bypasses ih =>
    rw [bypasses.sum_live_collapse (before.wellFormed wf), ih]
  | @drop report net₁ before ih =>
    have wf₁ := before.wellFormed wf
    have same : net₁.dropUnconnected.live = net₁.live := by
      ext r
      rw [mem_live (dropUnconnected_wellFormed wf₁), isConnected_dropUnconnected, mem_live wf₁]
    rw [same, ← ih]
    exact Finset.sum_congr rfl fun r hr => tokens_dropUnconnected (List.mem_toFinset.1 hr)

theorem mem_places (wf : net.WellFormed) (whole : net'.unconnected = []) : p ∈ report.places ↔
    p ∈ report.steps.map (·.place) ∨ p ∈ net.places.keys ∧ net.isIsolated p = true := by
  have dropped : p ∈ net.places.keys → net'.isConnected p ≠ true → p ∈ report.places := by
    intro there cut
    by_contra kept
    have left : p ∈ net'.places.keys := by
      rw [h.keys_places, List.mem_filter, decide_eq_true_eq]
      exact ⟨there, kept⟩
    exact cut (connected_of_unconnected whole left)
  constructor
  · intro hp
    obtain ⟨there, cut⟩ := h.of_mem_places p hp
    by_cases bypassed : p ∈ report.steps.map (·.place)
    · exact .inl bypassed
    · have isolated : net.isConnected p = false := by
        rw [Bool.eq_false_iff]
        intro connected
        rw [h.isConnected_iff_not_bypassed.2 ⟨connected, bypassed⟩] at cut
        cases cut
      exact .inr ⟨there, by rw [isIsolated_eq_not_isConnected, isolated]; rfl⟩
  · rintro (bypassed | ⟨there, isolated⟩)
    · exact dropped (wf.mem_of_isConnected (h.bypassed_connected p bypassed))
        fun connected' => (h.isConnected_iff_not_bypassed.1 connected').2 bypassed
    · refine dropped there fun connected' => ?_
      have connected := (h.isConnected_iff_not_bypassed.1 connected').1
      rw [isIsolated_eq_not_isConnected, connected] at isolated
      cases isolated

theorem accountedBy (wf : net.WellFormed) (whole : net'.unconnected = []) :
    net.AccountedBy report net' where
  transitions_listed := h.listed
  transitions_nodup := h.transitions_nodup
  transitions_gone t ht := by
    obtain ⟨x, hx, -⟩ := h.reducedBy.removed t ht
    refine ⟨OrderedMap.mem_keys_of_get? hx, fun there => ?_⟩
    rw [h.reducedBy.keys, List.mem_filter, decide_eq_true_eq] at there
    exact there.2 ht
  bypassed_nodup := h.bypassed_nodup
  places_nodup := h.places_nodup
  mem_places _ := h.mem_places wf whole
  places_left := h.keys_places
  tokens _ hp := h.tokens wf (connected_of_unconnected whole hp)

end Reduces

theorem sum_live_add_isolated (net : Net) :
    ∑ p ∈ net.live, net.tokens p + ((net.places.keys.filter net.isIsolated).map net.tokens).sum =
      ∑ p ∈ net.places.keys.toFinset, net.tokens p := by
  have isolated : ((net.places.keys.filter net.isIsolated).map net.tokens).sum =
      ∑ p ∈ net.places.keys.toFinset with ¬net.isConnected p = true, net.tokens p := by
    have nodup : (net.places.keys.filter net.isIsolated).Nodup := net.places.nodup_keys.filter _
    rw [← List.sum_toFinset _ nodup, List.toFinset_filter]
    refine Finset.sum_congr (Finset.filter_congr fun p _ => ?_) fun _ _ => rfl
    simp [isIsolated_eq_not_isConnected]
  rw [isolated, live, keys_dropUnconnected, List.toFinset_filter]
  exact Finset.sum_filter_add_sum_filter_not _ _ _

end Net

/-- As long as all tokens of a net are a token count together, a reduction in one pass or until
nothing is left to remove does not overflow, its report accounts for all that has gone, and no token
is lost but those on places without arcs. -/
theorem Built.prune_accounts {net : Net} (built : Built (.net net)) (fits : net.Fits)
    (exhaustive : Bool) :
    ∃ report s, (if exhaustive then Run.pruneExhaustively else Run.prune).run (.start net) =
        .ok report s ∧
      net.AccountedBy report s.net ∧
      ∃ n n', net.marking.total = .ok n ∧ s.net.marking.total = .ok n' ∧
        n' + ((net.places.keys.filter net.isIsolated).map net.tokens).sum = n := by
  have wf : net.WellFormed := built.wellFormed
  have answers : Answers (fun s => s.net.WellFormed ∧ s.net.Fits)
      (if exhaustive then Run.pruneExhaustively else Run.prune) := by
    split
    · exact Run.pruneExhaustively_answers
    · exact Run.prune_answers
  obtain ⟨report, s, run, wf', fits'⟩ := answers (.start net) ⟨wf, fits⟩
  obtain ⟨reduces, whole⟩ := Run.reduces_of_run wf exhaustive run
  refine ⟨report, s, run, reduces.accountedBy wf whole, _, _, fits.total_eq wf,
    fits'.total_eq wf', ?_⟩
  have all_live : s.net.places.keys.toFinset = s.net.live := by
    ext p
    rw [Net.mem_live wf', List.mem_toFinset]
    exact ⟨Net.connected_of_unconnected whole, wf'.mem_of_isConnected⟩
  rw [all_live, reduces.sum_live wf, net.sum_live_add_isolated]

def Net.stranded : Net :=
  .after [.addPlace (.ofId ⟨"start"⟩ 1), .addPlace (.ofId ⟨"near"⟩ 2),
    .addPlace (.ofId ⟨"middle"⟩ 3), .addPlace (.ofId ⟨"aside"⟩ 4), .addPlace (.blank ⟨"far"⟩), .addPlace (.blank ⟨"end"⟩),
    .addTransition (.bare ⟨"send"⟩ "send" true), .connect ⟨"start"⟩ ⟨"send"⟩ ⟨"near"⟩,
    .addTransition (.silent ⟨"first"⟩), .connect ⟨"near"⟩ ⟨"first"⟩ ⟨"middle"⟩,
    .addTransition (.silent ⟨"second"⟩), .connect ⟨"middle"⟩ ⟨"second"⟩ ⟨"far"⟩,
    .addTransition (.bare ⟨"receive"⟩ "receive" true), .connect ⟨"far"⟩ ⟨"receive"⟩ ⟨"end"⟩]

theorem stranded_prune_accounts : ∃ report s, Run.prune.run (.start .stranded) = .ok report s ∧
    (∀ p, p ∈ report.places ↔ p = ⟨"near"⟩ ∨ p = ⟨"middle"⟩ ∨ p = ⟨"aside"⟩) ∧
    s.net.tokens ⟨"far"⟩ = 5 ∧ s.net.marking.total = .ok 6 := by
  have steps : (match Run.prune.run (.start .stranded) with
      | .ok report _ => report.steps
      | .error _ _ => []) =
        [⟨⟨"first"⟩, ⟨"near"⟩, ⟨"middle"⟩⟩, ⟨⟨"second"⟩, ⟨"middle"⟩, ⟨"far"⟩⟩] := by
    decide +kernel
  have built : Built (.net .stranded) := built_after _
  obtain ⟨report, s, run, account, n, n', total, total', lost⟩ :=
    built.prune_accounts (by decide +kernel) false
  rw [show Run.prune.run (.start .stranded) = _ from run] at steps
  dsimp only at steps
  have dropped : ∀ p, p ∈ report.places ↔ p = ⟨"near"⟩ ∨ p = ⟨"middle"⟩ ∨ p = ⟨"aside"⟩ := by
    have isolated : Net.stranded.places.keys.filter Net.stranded.isIsolated = [⟨"aside"⟩] := by
      decide +kernel
    intro p
    rw [account.mem_places, steps, ← List.mem_filter, isolated]
    simp [or_assoc]
  have left : ⟨"far"⟩ ∈ s.net.places.keys := by
    rw [account.places_left, List.mem_filter, decide_eq_true_eq, dropped]
    decide +kernel
  have at_far := account.tokens _ left
  rw [steps] at at_far
  have whole : (match Net.stranded.marking.total with
      | .ok n => n
      | .error _ => 0) = 10 := by decide +kernel
  rw [total] at whole
  dsimp only at whole
  have aside : ((Net.stranded.places.keys.filter Net.stranded.isIsolated).map
      Net.stranded.tokens).sum = 4 := by decide +kernel
  obtain rfl : n' = 6 := by omega
  exact ⟨report, s, run, dropped, at_far.trans (by decide +kernel), total'⟩

end ProcessNet
