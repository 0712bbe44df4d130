import ProcessNet.Proofs.Reduction.Accounting

/-!
Where reductions come to rest. A pass that removes nothing has offered every transition for removal on
the net as it is, so nothing qualifies any more and no further pass finds anything; and since every
other pass makes the net smaller, the repetition gets there. For a transition that stays in the net all
conditions for its removal but one are settled when a pass comes by: its inputs do not change, nor does
anything else that takes from them, and its place is fed then if it ever is. Only the number of its
outputs can still fall, so where no arc is lost one pass has done all there is to do.
-/

namespace ProcessNet

namespace Net

structure Removable (net : Net) (t : TransitionId) (p q : PlaceId) : Prop where
  silent : ∃ x, net.transition? t = some x ∧ x.visible = false ∧ x.guard = .always ∧
    x.inputs.toList = [p] ∧ x.outputs.toList = [q]
  only : ∀ u y, net.transition? u = some y → p ∈ y.inputs → u = t
  unlooped : ∀ u y, net.transition? u = some y → p ∈ y.inputs → p ∉ y.outputs
  inner : p ∉ net.sources

/-- Nothing can be removed any more, neither a transition nor a place. -/
structure Irreducible (net : Net) : Prop where
  refused : ∀ t, net.bypass? net.sources t = none
  connected : net.unconnected = []

variable {net net' : Net} {sources : OrderedSet PlaceId} {t u : TransitionId}
  {p q a b : PlaceId}

theorem removable_iff : net.Removable t p q ↔ net.Bypasses t p q := by
  constructor
  · rintro ⟨⟨x, hx, silent, unguarded, inputs, outputs⟩, only, unlooped, inner⟩
    have takes : p ∈ x.inputs := by
      rw [OrderedSet.mem_def, inputs]
      exact List.mem_singleton_self p
    refine ⟨⟨x, hx, silent, Guard.isAlways_iff.2 unguarded, inputs, outputs⟩, only, ?_, ?_⟩
    · rintro rfl
      refine unlooped t x hx takes ?_
      rw [OrderedSet.mem_def, outputs]
      exact List.mem_singleton_self p
    · by_contra unfed
      exact inner (mem_sources.2 ⟨⟨t, x, hx, takes⟩, unfed⟩)
  · intro h
    obtain ⟨x, hx, silent, unguarded, inputs, outputs⟩ := h.passes
    refine ⟨⟨x, hx, silent, Guard.isAlways_iff.1 unguarded, inputs, outputs⟩, h.only,
      fun u y hy takes puts => ?_, fun source => (mem_sources.1 source).2 h.fed⟩
    obtain rfl := h.only u y hy takes
    exact h.ne ((h.output y hy).1 puts)

theorem WellFormed.nodup_values (wf : net.WellFormed) : net.transitions.values.Nodup := by
  refine List.Nodup.of_map (·.id) ?_
  rw [wf.transition_ids]
  exact net.transitions.nodup_keys

theorem Bypasses.bypass?_eq (h : net.Bypasses t p q) (wf : net.WellFormed) (inner : p ∉ sources) :
    net.bypass? sources t = some (p, q) := by
  obtain ⟨x, hx, silent, unguarded, inputs, outputs⟩ := h.passes
  have takes : p ∈ x.inputs := (h.input x hx).2 rfl
  have consumers : net.consumers p = [x] := by
    refine List.perm_singleton.1
      ((List.perm_ext_iff_of_nodup (wf.nodup_values.filter _) (by simp)).2 fun y => ?_)
    rw [List.mem_singleton]
    constructor
    · intro hy
      obtain ⟨⟨u, hu⟩, there⟩ := mem_consumers.1 hy
      obtain rfl := h.only u y hu there
      exact Option.some.inj (hu.symm.trans hx)
    · rintro rfl
      exact mem_consumers.2 ⟨⟨t, hx⟩, takes⟩
  have unlooped : p ∉ x.outputs := fun puts => h.ne ((h.output x hx).1 puts)
  rw [bypass?, hx]
  simp [inputs, outputs, consumers, silent, unguarded, unlooped, inner]

theorem Irreducible.not_removable (h : net.Irreducible) (wf : net.WellFormed) :
    ¬net.Removable t p q := by
  intro removable
  have found := (removable_iff.1 removable).bypass?_eq wf removable.inner
  rw [h.refused t] at found
  cases found

theorem Irreducible.dropUnconnected_eq (h : net.Irreducible) : net.dropUnconnected = net := by
  have all : net.places.filter (fun p _ => net.isConnected p) = net.places := by
    refine OrderedMap.ext (List.filter_eq_self.2 fun e he => ?_)
    exact connected_of_unconnected h.connected (List.mem_map_of_mem he)
  rw [dropUnconnected, all]

/-! What still qualifies has qualified all along, as long as its outputs have stayed as many. -/

theorem Bypasses.earlier (h : net.Bypasses u p q) (later : (net.bypass u p q).Bypasses t a b)
    (kept : (net.bypass u p q).outputArcs t = net.outputArcs t) : ∃ c, net.Bypasses t a c := by
  obtain ⟨z, hz, silent, unguarded, inputs, outputs⟩ := later.passes
  have left := hz
  rw [transition?_bypass] at left
  split at left
  · cases left
  · obtain ⟨x, hx, rfl⟩ := Option.map_eq_some_iff.1 left
    have ne : a ≠ p := (h.bypass_consumes.1 later.consumes).2
    rw [outputArcs, hz, outputArcs, hx, Option.elim_some, Option.elim_some, OrderedSet.size,
      outputs, OrderedSet.size] at kept
    obtain ⟨c, single⟩ := List.length_eq_one_iff.1 kept.symm
    rw [inputs_redirectOutputs] at inputs
    rw [visible_redirectOutputs] at silent
    rw [guard_redirectOutputs] at unguarded
    refine ⟨c, ⟨x, hx, silent, unguarded, inputs, single⟩, ?_, ?_,
      (h.bypass_produces.1 later.fed).1⟩
    -- only `u` is gone, and it took from `p` alone
    · intro v y hy takes
      have hv : v ≠ u := by
        rintro rfl
        exact ne ((h.input y hy).1 takes)
      refine later.only v (redirectOutputs p q y) ?_ (by rwa [inputs_redirectOutputs])
      rw [transition?_bypass, if_neg hv, hy, Option.map_some]
    -- a loop would not have been redirected
    · rintro rfl
      have loop : a ∈ x.outputs := by
        rw [OrderedSet.mem_def, single]
        exact List.mem_singleton_self a
      exact later.ne ((later.output _ hz).1 (mem_outputs_redirectOutputs.2 (.inl ⟨loop, ne⟩)))

theorem Pruning.earlier (h : net.Pruning net') (later : net'.Bypasses t a b)
    (kept : net'.outputArcs t = net.outputArcs t) : ∃ c, net.Bypasses t a c := by
  cases h with
  | bypass h => exact h.earlier later kept
  | retoken => exact ⟨b, later.passes, later.only, later.ne, later.fed⟩
  | drop => exact ⟨b, later.passes, later.only, later.ne, later.fed⟩

theorem Pruned.earlier (h : net.Pruned net') (wf : net.WellFormed) (later : net'.Bypasses t a b)
    (kept : net'.outputArcs t = net.outputArcs t) : ∃ c, net.Bypasses t a c := by
  induction h generalizing b with
  | refl => exact ⟨b, later⟩
  | @tail net₁ _ pruned step ih =>
    obtain ⟨first, last⟩ := Pruned.outputArcs_between wf pruned step kept
    obtain ⟨c, before⟩ := step.earlier later last
    exact ih before first

end Net

namespace Run

open Net (Irreducible Pruned)

variable {sources : OrderedSet PlaceId} {s s' s₁ : Session} {t : TransitionId}
  {ts : List TransitionId} {report total earlier : PruneReport} {steps : List Bypass}

theorem removeSilent_eq_none : (removeSilent sources t).run s = .ok none s' ↔
    s' = s ∧ s.net.bypass? sources t = none := by
  rw [removeSilent, run_net_bind]
  rcases h : s.net.bypass? sources t with _ | ⟨p, q⟩
  · refine pure_eq_ok.trans ?_
    simp [eq_comm]
  · constructor
    · intro done
      obtain ⟨_, _, -, done⟩ := bind_eq_ok.1 done
      obtain ⟨_, _, -, done⟩ := bind_eq_ok.1 done
      obtain ⟨_, _, -, done⟩ := bind_eq_ok.1 done
      cases (pure_eq_ok.1 done).1
    · rintro ⟨-, none⟩
      cases none

theorem removeSilents_eq_nil : (removeSilents sources ts).run s = .ok [] s' ↔
    s' = s ∧ ∀ t ∈ ts, s.net.bypass? sources t = none := by
  induction ts generalizing s with
  | nil =>
    refine pure_eq_ok.trans ?_
    simp [eq_comm]
  | cons t rest ih =>
    rw [List.forall_mem_cons]
    constructor
    · intro done
      obtain ⟨removed, s₁, first, done⟩ := bind_eq_ok.1 done
      obtain ⟨later, s₂, second, done⟩ := bind_eq_ok.1 done
      obtain ⟨nothing, rfl⟩ := pure_eq_ok.1 done
      obtain ⟨none, rfl⟩ := List.append_eq_nil_iff.1 nothing
      obtain rfl := Option.toList_eq_nil_iff.1 none
      obtain ⟨rfl, refused⟩ := removeSilent_eq_none.1 first
      obtain ⟨rfl, others⟩ := ih.1 second
      exact ⟨rfl, refused, others⟩
    · rintro ⟨rfl, refused, others⟩
      exact bind_eq_ok.2 ⟨none, s', removeSilent_eq_none.2 ⟨rfl, refused⟩,
        bind_eq_ok.2 ⟨[], s', ih.2 ⟨rfl, others⟩, pure_eq_ok.2 ⟨rfl, rfl⟩⟩⟩

theorem irreducible_of_prune (h : prune.run s = .ok .none s') :
    s.net.Irreducible ∧ s'.net = s.net := by
  obtain ⟨steps, s₁, removed, nothing, left⟩ := prune_eq_ok h
  obtain ⟨rfl, whole⟩ : steps = [] ∧ s₁.net.unconnected = [] := by
    simpa [PruneReport.none, PruneReport.append, PruneReport.ofSteps, PruneReport.ofPlaces]
      using nothing.symm
  obtain ⟨rfl, refused⟩ := removeSilents_eq_nil.1 removed
  have irreducible : s₁.net.Irreducible := by
    refine ⟨fun t => ?_, whole⟩
    by_cases ht : t ∈ s₁.net.transitions.keys
    · exact refused t ht
    · have unknown : s₁.net.transition? t = none := OrderedMap.get?_eq_none.2 ht
      rw [Net.bypass?, unknown]
      rfl
  exact ⟨irreducible, left.trans irreducible.dropUnconnected_eq⟩

theorem run_prune_of_irreducible (h : s.net.Irreducible) :
    ∃ s', prune.run s = .ok .none s' ∧ s'.net = s.net := by
  have nothing : (removeSilents s.net.sources s.net.transitions.keys).run s = .ok [] s :=
    removeSilents_eq_nil.2 ⟨rfl, fun t _ => h.refused t⟩
  refine ⟨{ s with
    net := s.net.dropUnconnected
    journal := s.journal.push (.pruned 0 0) }, ?_, h.dropUnconnected_eq⟩
  rw [prune, run_net_bind, EStateM.run_bind, nothing]
  dsimp only
  rw [run_net_bind, h.connected]
  rfl

theorem pruneUntilStill_of_still (h : prune.run s = .ok .none s') :
    (pruneUntilStill earlier).run s = .ok earlier s' := by
  rw [EStateM.run, pruneUntilStill]
  split
  · next stopped => cases h.symm.trans stopped
  · next done =>
    cases h.symm.trans done
    rfl

theorem pruneUntilStill_of_removed (h : prune.run s = .ok report s₁) (more : ¬report.isEmpty) :
    (pruneUntilStill earlier).run s = (pruneUntilStill (earlier.append report)).run s₁ := by
  rw [EStateM.run, pruneUntilStill]
  split
  · next stopped => cases h.symm.trans stopped
  · next done =>
    cases h.symm.trans done
    rw [if_neg more]
    rfl

def passes : ℕ → Run PruneReport
  | 0 => return .none
  | n + 1 => do
    let report ← prune
    let later ← passes n
    return report.append later

theorem pruneUntilStill_passes (h : (pruneUntilStill earlier).run s = .ok total s') :
    ∃ n report, n + s'.net.size ≤ s.net.size ∧ total = earlier.append report ∧
      (passes (n + 1)).run s = .ok report s' := by
  rw [EStateM.run] at h
  fun_induction pruneUntilStill earlier s with
  | case1 => cases h
  | case2 earlier s report _ done still =>
    obtain ⟨rfl, rfl⟩ := EStateM.Result.ok.inj h
    have nothing := eq_none_of_isEmpty done still
    have size := size_prune done
    refine ⟨0, report, by omega, ?_, ?_⟩
    · rw [nothing, PruneReport.append_none]
    · exact bind_eq_ok.2 ⟨report, _, done, bind_eq_ok.2 ⟨.none, _, rfl,
        pure_eq_ok.2 ⟨PruneReport.append_none report, rfl⟩⟩⟩
  | case3 earlier s report s₁ done more ih =>
    have size := size_prune_lt done more
    obtain ⟨n, later, bound, rfl, rest⟩ := ih h
    refine ⟨n + 1, report.append later, by omega, PruneReport.append_assoc _ _ _, ?_⟩
    exact bind_eq_ok.2 ⟨report, s₁, done, bind_eq_ok.2 ⟨later, s', rest,
      pure_eq_ok.2 ⟨rfl, rfl⟩⟩⟩

theorem removeSilents_offers (wf : s.net.WellFormed) (known : ∀ p, p ∈ s.net.sources → p ∈ sources)
    (h : (removeSilents sources ts).run s = .ok steps s') : ∀ t ∈ ts,
      s'.net.transition? t = none ∨
        ∃ net₁, s.net.Pruned net₁ ∧ net₁.bypass? sources t = none ∧ net₁.Pruned s'.net := by
  induction ts generalizing s steps with
  | nil => exact fun t ht => nomatch ht
  | cons t rest ih =>
    have whole := (removeSilents_reduces wf known h).pruned
    obtain ⟨removed, s₁, first, h⟩ := bind_eq_ok.1 h
    obtain ⟨later, s₂, second, h⟩ := bind_eq_ok.1 h
    obtain ⟨-, rfl⟩ := pure_eq_ok.1 h
    have before := (removeSilent_reduces wf known first).pruned
    have known₁ : ∀ p, p ∈ s₁.net.sources → p ∈ sources :=
      fun p hp => known p (before.mem_sources.1 hp)
    have after := (removeSilents_reduces (before.wellFormed wf) known₁ second).pruned
    rintro u hu
    rcases List.mem_cons.1 hu with rfl | hu
    · rcases removeSilent_eq_ok wf known first with ⟨refused, -, -⟩ | ⟨p, q, -, -, gone⟩
      · exact .inr ⟨s.net, .refl _, refused, whole⟩
      · left
        by_contra there
        obtain ⟨y, hy⟩ := Option.ne_none_iff_exists'.1 there
        obtain ⟨z, hz, -⟩ := after.origin hy
        have hz : (s.net.bypass u p q).transition? u = some z := by rwa [gone] at hz
        rw [Net.transition?_bypass, if_pos rfl] at hz
        cases hz
    · refine (ih (before.wellFormed wf) known₁ second u hu).imp_right ?_
      rintro ⟨net₁, between, refused, rest⟩
      exact ⟨net₁, before.trans between, refused, rest⟩

/-- Where no transition that is left has lost an arc, one pass leaves nothing to remove. -/
theorem irreducible_of_kept (wf : s.net.WellFormed) (h : prune.run s = .ok report s')
    (kept : ∀ t, s'.net.transition? t ≠ none → s'.net.outputArcs t = s.net.outputArcs t) :
    s'.net.Irreducible := by
  have pruned := (prune_reduces wf h).pruned
  have wf' := pruned.wellFormed wf
  obtain ⟨steps, s₁, removed, -, left⟩ := prune_eq_ok h
  refine ⟨fun t => ?_, left ▸ s₁.net.unconnected_dropUnconnected⟩
  by_contra found
  obtain ⟨⟨p, q⟩, found⟩ := Option.ne_none_iff_exists'.1 found
  have qualifies := Net.bypasses_of_bypass? wf' (fun _ => id) found
  obtain ⟨y, hy, -⟩ := qualifies.passes
  obtain ⟨x, hx, -⟩ := pruned.origin hy
  have same := kept t (by rw [hy]; exact Option.some_ne_none y)
  -- when it was offered it was refused, although it qualified then if it does now
  rcases removeSilents_offers wf (fun _ => id) removed t (OrderedMap.mem_keys_of_get? hx) with
    gone | ⟨net₁, before, refused, after⟩
  · have hy : s₁.net.transition? t = some y := by rwa [left] at hy
    cases gone.symm.trans hy
  · have after : net₁.Pruned s'.net := left ▸ after.tail (.drop _)
    have wf₁ := before.wellFormed wf
    have last : s'.net.outputArcs t = net₁.outputArcs t := by
      have := before.outputArcs_le wf t
      have := after.outputArcs_le wf₁ t
      omega
    obtain ⟨c, qualified⟩ := after.earlier wf₁ qualifies last
    have inner : p ∉ s.net.sources := fun source =>
      (Net.mem_sources.1 (before.mem_sources.2 source)).2 qualified.fed
    cases refused.symm.trans (qualified.bypass?_eq wf₁ inner)

end Run

/-- Repeated passes end, after at most as many passes as there are elements removed and one more, on a
net where nothing qualifies for removal and every place has an arc; there a further reduction finds
nothing and leaves the net as it is. -/
theorem Built.pruneExhaustively_normal {net : Net} (built : Built (.net net)) (fits : net.Fits) :
    ∃ report s, Run.pruneExhaustively.run (.start net) = .ok report s ∧
      (∃ n, n + s.net.size ≤ net.size ∧ (Run.passes (n + 1)).run (.start net) = .ok report s) ∧
      (∀ t p q, ¬s.net.Removable t p q) ∧
      (∀ p ∈ s.net.places.keys, s.net.Consumes p ∨ s.net.Produces p) ∧
      ∀ exhaustive : Bool, ∃ s',
        (if exhaustive then Run.pruneExhaustively else Run.prune).run (.start s.net) =
          .ok .none s' ∧ s'.net = s.net := by
  have wf : net.WellFormed := built.wellFormed
  obtain ⟨report, s, run, wf', -⟩ := Run.pruneExhaustively_answers (.start net) ⟨wf, fits⟩
  obtain ⟨n, report', bound, rfl, passes⟩ := Run.pruneUntilStill_passes (s := .start net) run
  obtain ⟨_, s₁, -, -, last⟩ := Run.pruneUntilStill_eq_ok (s := .start net) wf run
  obtain ⟨irreducible, same⟩ := Run.irreducible_of_prune last
  rw [← same] at irreducible
  refine ⟨_, s, run, ⟨n, bound, passes⟩, fun t p q => irreducible.not_removable wf', fun p hp =>
    Net.isConnected_iff.1 (Net.connected_of_unconnected irreducible.connected hp), ?_⟩
  obtain ⟨s', still, unchanged⟩ := Run.run_prune_of_irreducible (s := .start s.net) irreducible
  intro exhaustive
  refine ⟨s', ?_, unchanged⟩
  cases exhaustive with
  | false => exact still
  | true => exact Run.pruneUntilStill_of_still still

/-- A silent transition with two outputs, one of which another silent transition passes on to the
other. -/
def Net.joined : Net :=
  .after [.addPlace (.ofId ⟨"start"⟩ 1), .addPlace (.blank ⟨"fork"⟩), .addPlace (.blank ⟨"left"⟩),
    .addPlace (.blank ⟨"right"⟩), .addPlace (.blank ⟨"end"⟩),
    .addTransition (.bare ⟨"send"⟩ "send" true), .connect ⟨"start"⟩ ⟨"send"⟩ ⟨"fork"⟩,
    .addTransition (.silent ⟨"split"⟩), .connect ⟨"fork"⟩ ⟨"split"⟩ ⟨"left"⟩,
    .addOutputArc ⟨"split"⟩ ⟨"right"⟩,
    .addTransition (.silent ⟨"join"⟩), .connect ⟨"left"⟩ ⟨"join"⟩ ⟨"right"⟩,
    .addTransition (.bare ⟨"receive"⟩ "receive" true), .connect ⟨"right"⟩ ⟨"receive"⟩ ⟨"end"⟩]

theorem joined_pruneExhaustively_normal : ∃ report s,
    Run.pruneExhaustively.run (.start .joined) = .ok report s ∧
    report.transitions = [⟨"join"⟩, ⟨"split"⟩] ∧ ∀ t p q, ¬s.net.Removable t p q := by
  have removed : (match Run.pruneExhaustively.run (.start .joined) with
      | .ok report _ => report.transitions
      | .error _ _ => []) = [⟨"join"⟩, ⟨"split"⟩] := by decide +kernel
  have built : Built (.net .joined) := built_after _
  obtain ⟨report, s, run, -, normal, -⟩ := built.pruneExhaustively_normal (by decide +kernel)
  rw [run] at removed
  exact ⟨report, s, run, removed, normal⟩

/-- Where every transition that one pass leaves has as many outputs as before, a second pass finds
nothing, and repeated passes give the same net and the same report. -/
theorem Built.one_pass_suffices {net : Net} {report : PruneReport} {s : Session}
    (built : Built (.net net)) (h : Run.prune.run (.start net) = .ok report s)
    (kept : ∀ t x y, net.transition? t = some x → s.net.transition? t = some y →
      y.outputs.size = x.outputs.size) :
    (∃ s', Run.prune.run (.start s.net) = .ok .none s' ∧ s'.net = s.net) ∧
      ∃ s', Run.pruneExhaustively.run (.start net) = .ok report s' ∧ s'.net = s.net := by
  have wf : net.WellFormed := built.wellFormed
  have pruned := (Run.prune_reduces (s := .start net) wf h).pruned
  have irreducible : s.net.Irreducible := by
    refine Run.irreducible_of_kept (s := .start net) wf h fun t there => ?_
    obtain ⟨y, hy⟩ := Option.ne_none_iff_exists'.1 there
    obtain ⟨x, hx, -⟩ := pruned.origin hy
    have hx : net.transition? t = some x := hx
    show s.net.outputArcs t = net.outputArcs t
    rw [Net.outputArcs, hy, Net.outputArcs, hx]
    exact kept t x y hx hy
  refine ⟨Run.run_prune_of_irreducible (s := .start s.net) irreducible, ?_⟩
  rw [Run.pruneExhaustively]
  by_cases empty : report.isEmpty = true
  · obtain rfl := Run.eq_none_of_isEmpty h empty
    exact ⟨s, Run.pruneUntilStill_of_still h, rfl⟩
  · obtain ⟨s', still, same⟩ := Run.run_prune_of_irreducible (s := s) irreducible
    exact ⟨s', (Run.pruneUntilStill_of_removed h empty).trans
      (Run.pruneUntilStill_of_still still), same⟩

theorem relay_one_pass_suffices : ∃ report s s', Run.prune.run (.start .relay) = .ok report s ∧
    report.transitions = [⟨"second"⟩, ⟨"first"⟩] ∧
    Run.pruneExhaustively.run (.start .relay) = .ok report s' ∧ s'.net = s.net := by
  have pass : (match Run.prune.run (.start .relay) with
      | .ok report s => (report.transitions,
          decide (∀ t ∈ s.net.transitions.keys, s.net.outputArcs t = Net.relay.outputArcs t))
      | .error _ _ => ([], false)) = ([⟨"second"⟩, ⟨"first"⟩], true) := by decide +kernel
  have built : Built (.net .relay) := built_after _
  rcases run : Run.prune.run (.start .relay) with ⟨report, s⟩ | ⟨e, s⟩ <;> rw [run] at pass
  swap
  · cases pass
  obtain ⟨removed, arcs⟩ := Prod.mk.inj pass
  rw [decide_eq_true_eq] at arcs
  obtain ⟨-, s', all, same⟩ := built.one_pass_suffices run fun t x y hx hy => by
    have kept := arcs t (OrderedMap.mem_keys_of_get? hy)
    rwa [Net.outputArcs, hy, Net.outputArcs, hx] at kept
  exact ⟨report, s, s', rfl, removed, all, same⟩

end ProcessNet
