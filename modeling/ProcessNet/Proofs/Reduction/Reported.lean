import ProcessNet.Proofs.Reduction.Totals

/-!
Completed reductions change by change. A reduction that returns has removed silent transitions, each
time moving the tokens of the place in between, and has dropped places without arcs at the end of
every pass; its report lists just these changes in their order. A property of a net and a report
therefore holds of every completed reduction as soon as both kinds of change keep it.
-/

namespace ProcessNet

namespace PruneReport

def ofSteps (steps : List Bypass) : PruneReport := ⟨steps, steps.map (·.transition), []⟩

def ofPlaces (places : List PlaceId) : PruneReport := ⟨[], [], places⟩

theorem append_ofSteps (steps later : List Bypass) :
    (ofSteps steps).append (ofSteps later) = ofSteps (steps ++ later) := by
  simp [ofSteps, append]

theorem append_none (report : PruneReport) : report.append none = report := by
  simp [append, none]

theorem append_assoc (r s t : PruneReport) : (r.append s).append t = r.append (s.append t) := by
  simp [append]

end PruneReport

namespace Net

/-- The net without the transition, the tokens of its place on the place behind it. -/
def collapse (net : Net) (t : TransitionId) (p q : PlaceId) : Net :=
  (net.bypass t p q).withTokens (lump p q net.tokens)

/-- The changes that a completed reduction has made, with the report on them. -/
inductive Reduces (net : Net) : PruneReport → Net → Prop
  | refl : Reduces net .none net
  | collapse {report : PruneReport} {net' : Net} {t : TransitionId} {p q : PlaceId} :
      Reduces net report net' → net'.Bypasses t p q →
        Reduces net (report.append (.ofSteps [⟨t, p, q⟩])) (net'.collapse t p q)
  | drop {report : PruneReport} {net' : Net} : Reduces net report net' →
      Reduces net (report.append (.ofPlaces net'.unconnected)) net'.dropUnconnected

variable {net net₁ net₂ : Net} {report later : PruneReport}

namespace Reduces

theorem trans (h : net.Reduces report net₁) (h' : net₁.Reduces later net₂) :
    net.Reduces (report.append later) net₂ := by
  induction h' with
  | refl => rwa [PruneReport.append_none]
  | collapse _ bypasses ih =>
    rw [← PruneReport.append_assoc]
    exact ih.collapse bypasses
  | drop _ ih =>
    rw [← PruneReport.append_assoc]
    exact ih.drop

theorem pruned (h : net.Reduces report net₁) : net.Pruned net₁ := by
  induction h with
  | refl => exact .refl net
  | collapse _ bypasses ih => exact (ih.tail (.bypass bypasses)).tail (.retoken _ _)
  | drop _ ih => exact ih.tail (.drop _)

theorem wellFormed (h : net.Reduces report net₁) (wf : net.WellFormed) : net₁.WellFormed :=
  h.pruned.wellFormed wf

theorem listed (h : net.Reduces report net₁) :
    report.transitions = report.steps.map (·.transition) := by
  induction h with
  | refl => rfl
  | collapse _ _ ih => simp [PruneReport.append, PruneReport.ofSteps, ih]
  | drop _ ih => simp [PruneReport.append, PruneReport.ofPlaces, ih]

end Reduces

theorem isConnected_dropUnconnected (net : Net) (p : PlaceId) :
    net.dropUnconnected.isConnected p = net.isConnected p := rfl

theorem unconnected_dropUnconnected (net : Net) : net.dropUnconnected.unconnected = [] := by
  refine List.filter_eq_nil_iff.2 fun p hp => ?_
  have touched := (mem_keys_dropUnconnected.1 hp).2
  rw [isConnected_dropUnconnected, isConnected_iff.2 touched]
  simp

end Net

namespace Run

variable {sources : OrderedSet PlaceId} {s s' : Session} {p q : PlaceId} {t : TransitionId}

theorem moveTokens_eq_ok (ne : p ≠ q) (hp : p ∈ s.net.places.keys) (hq : q ∈ s.net.places.keys)
    (h : (moveTokens p q).run s = .ok () s') :
    s' = { s with net := s.net.withTokens (lump p q s.net.tokens) } := by
  by_cases room : s.net.tokens q + s.net.tokens p ≤ Place.capacity
  · rw [run_moveTokens ne hp hq room] at h
    exact (EStateM.Result.ok.inj h).2.symm
  -- without room nothing is moved, or the run stops
  · obtain ⟨x, hx⟩ := OrderedMap.mem_keys.1 hp
    obtain ⟨y, hy⟩ := OrderedMap.mem_keys.1 hq
    have hx : s.net.place? p = some x := hx
    have hy : s.net.place? q = some y := hy
    have at_p := Net.tokens_of_place? hx
    have at_q := Net.tokens_of_place? hy
    rw [moveTokens, run_net_bind, hx, Option.elim_some] at h
    dsimp only at h
    by_cases none : x.tokens = 0
    · rw [if_pos none] at h
      rw [lump_eq_self (at_p.trans none), Net.withTokens_tokens]
      exact (pure_eq_ok.1 h).2.symm
    · rw [if_neg none] at h
      obtain ⟨_, _, added, -⟩ := bind_eq_ok.1 h
      have full : y.add x.tokens = .error .overflow := by
        rw [at_p, at_q] at room
        rw [Place.add, if_pos (Nat.lt_of_not_le room)]
      have stopped := run_updatePlace q (·.add x.tokens) s
      rw [hy] at stopped
      dsimp only at stopped
      rw [full] at stopped
      cases added.symm.trans stopped

theorem removeSilent_eq_ok {removed : Option Bypass} (wf : s.net.WellFormed)
    (known : ∀ p, p ∈ s.net.sources → p ∈ sources)
    (h : (removeSilent sources t).run s = .ok removed s') :
    (s.net.bypass? sources t = none ∧ removed = none ∧ s' = s) ∨
      ∃ p q, s.net.Bypasses t p q ∧ removed = some ⟨t, p, q⟩ ∧
        s'.net = s.net.collapse t p q := by
  rw [removeSilent, run_net_bind] at h
  rcases hb : s.net.bypass? sources t with _ | ⟨p, q⟩
  · rw [hb] at h
    obtain ⟨rfl, rfl⟩ := pure_eq_ok.1 h
    exact .inl ⟨rfl, rfl, rfl⟩
  · rw [hb] at h
    obtain ⟨_, _, bypassed, h⟩ := bind_eq_ok.1 h
    obtain ⟨_, _, moved, h⟩ := bind_eq_ok.1 h
    obtain ⟨_, _, recorded, h⟩ := bind_eq_ok.1 h
    obtain ⟨rfl, rfl⟩ := pure_eq_ok.1 h
    have bypasses := Net.bypasses_of_bypass? wf known hb
    rw [modifyNet_eq_ok.1 bypassed] at moved
    have moved := moveTokens_eq_ok (s := { s with net := s.net.bypass t p q }) bypasses.ne
      (wf.consumes_mem bypasses.consumes) (wf.produces_mem bypasses.produces) moved
    refine .inr ⟨p, q, bypasses, rfl, ?_⟩
    rw [record_eq_ok.1 recorded, moved]
    rfl

theorem removeSilent_reduces {removed : Option Bypass} (wf : s.net.WellFormed)
    (known : ∀ p, p ∈ s.net.sources → p ∈ sources)
    (h : (removeSilent sources t).run s = .ok removed s') :
    s.net.Reduces (.ofSteps removed.toList) s'.net := by
  rcases removeSilent_eq_ok wf known h with ⟨-, rfl, rfl⟩ | ⟨p, q, bypasses, rfl, left⟩
  · exact .refl
  · rw [left]
    exact Net.Reduces.refl.collapse bypasses

theorem removeSilents_reduces {ts : List TransitionId} {steps : List Bypass}
    (wf : s.net.WellFormed) (known : ∀ p, p ∈ s.net.sources → p ∈ sources)
    (h : (removeSilents sources ts).run s = .ok steps s') :
    s.net.Reduces (.ofSteps steps) s'.net := by
  induction ts generalizing s steps with
  | nil =>
    obtain ⟨rfl, rfl⟩ := pure_eq_ok.1 h
    exact .refl
  | cons t rest ih =>
    obtain ⟨removed, s₁, first, h⟩ := bind_eq_ok.1 h
    obtain ⟨later, s₂, second, h⟩ := bind_eq_ok.1 h
    obtain ⟨rfl, rfl⟩ := pure_eq_ok.1 h
    have reduces := removeSilent_reduces wf known first
    rw [← PruneReport.append_ofSteps]
    exact reduces.trans (ih (reduces.wellFormed wf)
      (fun p hp => known p (reduces.pruned.mem_sources.1 hp)) second)

theorem prune_eq_ok {report : PruneReport} (h : prune.run s = .ok report s') :
    ∃ steps s₁, (removeSilents s.net.sources s.net.transitions.keys).run s = .ok steps s₁ ∧
      report = (PruneReport.ofSteps steps).append (.ofPlaces s₁.net.unconnected) ∧
      s'.net = s₁.net.dropUnconnected := by
  rw [prune, run_net_bind] at h
  obtain ⟨steps, s₁, removed, h⟩ := bind_eq_ok.1 h
  obtain ⟨_, _, looked, h⟩ := bind_eq_ok.1 h
  obtain ⟨rfl, rfl⟩ := net_eq_ok.1 looked
  obtain ⟨_, _, dropped, h⟩ := bind_eq_ok.1 h
  obtain ⟨_, _, recorded, h⟩ := bind_eq_ok.1 h
  obtain ⟨rfl, rfl⟩ := pure_eq_ok.1 h
  refine ⟨steps, s₁, removed, ?_, ?_⟩
  · simp [PruneReport.append, PruneReport.ofSteps, PruneReport.ofPlaces]
  · rw [record_eq_ok.1 recorded, modifyNet_eq_ok.1 dropped]

theorem prune_reduces {report : PruneReport} (wf : s.net.WellFormed)
    (h : prune.run s = .ok report s') : s.net.Reduces report s'.net := by
  obtain ⟨steps, s₁, removed, rfl, left⟩ := prune_eq_ok h
  rw [left]
  exact (removeSilents_reduces wf (fun _ => id) removed).drop

theorem eq_none_of_isEmpty {report : PruneReport} (h : prune.run s = .ok report s')
    (empty : report.isEmpty = true) : report = .none := by
  obtain ⟨steps, s₁, -, rfl, -⟩ := prune_eq_ok h
  simp only [PruneReport.isEmpty, PruneReport.append, PruneReport.ofSteps, PruneReport.ofPlaces,
    List.append_nil, List.nil_append, Bool.and_eq_true, List.isEmpty_iff, List.map_eq_nil_iff]
    at empty
  obtain ⟨rfl, unconnected⟩ := empty
  rw [unconnected]
  rfl

theorem pruneUntilStill_eq_ok {earlier total : PruneReport} (wf : s.net.WellFormed)
    (h : (pruneUntilStill earlier).run s = .ok total s') :
    ∃ report s₁, total = earlier.append report ∧ s.net.Reduces report s₁.net ∧
      prune.run s₁ = .ok .none s' := by
  rw [EStateM.run] at h
  fun_induction pruneUntilStill earlier s with
  | case1 => cases h
  | case2 earlier s report _ done still =>
    obtain ⟨rfl, rfl⟩ := EStateM.Result.ok.inj h
    have nothing := eq_none_of_isEmpty done still
    exact ⟨.none, s, (PruneReport.append_none earlier).symm, .refl, nothing ▸ done⟩
  | case3 earlier s report s₁ done _ ih =>
    have reduces := prune_reduces wf done
    obtain ⟨later, s₂, rfl, rest, last⟩ := ih (reduces.wellFormed wf) h
    exact ⟨report.append later, s₂, PruneReport.append_assoc _ _ _, reduces.trans rest, last⟩

/-- A completed reduction, in one pass or repeated, has come to its end with a whole pass. -/
theorem reduces_of_run {net : Net} {report : PruneReport} (wf : net.WellFormed) (exhaustive : Bool)
    (h : (if exhaustive then pruneExhaustively else prune).run (.start net) = .ok report s) :
    net.Reduces report s.net ∧ s.net.unconnected = [] := by
  have ended : ∀ {s s' : Session} {report : PruneReport}, prune.run s = .ok report s' →
      s'.net.unconnected = [] := by
    intro s s' report h
    obtain ⟨steps, s₁, -, -, left⟩ := prune_eq_ok h
    rw [left]
    exact s₁.net.unconnected_dropUnconnected
  cases exhaustive with
  | false => exact ⟨prune_reduces (s := .start net) wf h, ended h⟩
  | true =>
    obtain ⟨report', s₁, rfl, reduces, last⟩ := pruneUntilStill_eq_ok (s := .start net) wf h
    have whole := reduces.trans (prune_reduces (reduces.wellFormed wf) last)
    rw [PruneReport.append_none] at whole
    exact ⟨whole, ended last⟩

end Run

end ProcessNet
