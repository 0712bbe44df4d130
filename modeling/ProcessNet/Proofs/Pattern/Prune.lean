import ProcessNet.Proofs.Pattern.Built
import ProcessNet.Proofs.Pattern.Completion
import ProcessNet.Proofs.Reduction.Redirections
import ProcessNet.Proofs.Reduction.Totals

/-!
What a reduction does to the completed traces of a pattern. A complete run, without the removed
transitions, is one of the reduced pattern exactly when no transition of it has lost an output arc and
the tokens have room where the redirections collect them. When no transition at all has lost an arc,
the traces completed after the reduction are those of the complete runs with such room. An arc is lost
where a redirected arc ends where another one does already: then one token is put where two were, so
that runs can be lost and others become possible.
-/

namespace ProcessNet

open Game (Roomy)

namespace Net

theorem known_eq_contains (net : Net) : net.game.known = net.transitions.contains := by
  funext t
  rw [Bool.eq_iff_iff, OrderedMap.contains_eq_true, OrderedMap.mem_keys, Game.known, game,
    Option.isSome_map, Option.isSome_iff_exists]
  rfl

end Net

namespace Pattern

/-- Wherever the firings lead on the way, the tokens have room on the places that arcs are redirected
to, counted there together with those of the bypassed places. -/
def RoomAlong (P : Pattern) (steps : List Bypass) (ts : List TransitionId) : Prop :=
  ∀ us net, us <+: ts → P.started.forceAll? us = some net →
    ∀ step ∈ steps, collected steps net.tokens step.redirectedTo ≤ Place.capacity

instance (P : Pattern) (steps : List Bypass) (ts : List TransitionId) :
    Decidable (P.RoomAlong steps ts) :=
  decidable_of_iff (∀ us ∈ ts.inits, (P.started.forceAll? us).all fun net =>
      ∀ step ∈ steps, collected steps net.tokens step.redirectedTo ≤ Place.capacity) (by
    simp only [RoomAlong, List.mem_inits, Option.all_eq_true, decide_eq_true_eq]
    exact ⟨fun h us net before => h us before net, fun h us before net => h us net before⟩)

/-- What becomes of complete runs when the first pattern is reduced to the second: which runs stay
complete without the removed transitions, and which ones come from complete runs. A transition has lost
an arc when it has fewer than before; the arcs of a removed one are counted as one. -/
structure ReducesRuns (P : Pattern) (steps : List Bypass) (P' : Pattern) : Prop where
  net : P.net.ReducedBy (.ofSteps steps) P'.net
  shows : ∀ ts : List TransitionId,
    (ts.filter P'.net.transitions.contains).filterMap P'.visibleActivity? =
      ts.filterMap P.visibleActivity?
  completes_iff : ∀ ts, P.Completes ts →
    (P'.Completes (ts.filter P'.net.transitions.contains) ↔
      P.RoomAlong steps ts ∧ ∀ t ∈ ts, P'.net.outputArcs t = P.net.outputArcs t)
  back : ∀ us, P'.Completes us →
    (∀ t, t ∈ us ∨ t ∉ P'.net.transitions.keys → P'.net.outputArcs t = P.net.outputArcs t) →
      ∃ ts, P.Completes ts ∧ ts.filter P'.net.transitions.contains = us

variable {P : Pattern} {net' : Net} {ts : List TransitionId} {t : TransitionId}
  {M : PlaceId → ℕ} {steps : List Bypass} {names : List String}

theorem visibleActivity?_forget (P : Pattern) (t : TransitionId) :
    (forgetRemoved P).visibleActivity? t = P.visibleActivity? t := by
  rw [visibleActivity?, visibleActivity?]
  show (P.net.transition? t).bind _ = _
  rcases hx : P.net.transition? t with _ | x
  · rfl
  · have there : P.net.transitions.contains t = true :=
      OrderedMap.contains_eq_true.2 (OrderedMap.mem_keys_of_get? hx)
    have named : (forgetRemoved P).activity? t = P.activity? t := by
      rw [activity?, forgetRemoved, OrderedMap.get?_filter, activity?]
      cases P.activities.get? t <;> simp [there]
    rw [named]

theorem visibleActivity?_forgetRemoved (pruned : P.net.Pruned net') (t : TransitionId) :
    P.visibleActivity? t = if net'.game.known t = true then
      (forgetRemoved { P with net := net' }).visibleActivity? t else none := by
  rcases hy : net'.transition? t with _ | y
  · have gone : ¬net'.game.known t = true := by
      rw [Game.known, Net.game, hy]
      exact Bool.false_ne_true
    rw [if_neg gone, visibleActivity?]
    rcases hx : P.net.transition? t with _ | x
    · rfl
    · simp [pruned.silent hx hy]
  · obtain ⟨x, hx, same⟩ := pruned.origin hy
    rw [if_pos (Game.known_of_eq_some (Net.game_eq_some hy)), visibleActivity?_forget,
      visibleActivity?, visibleActivity?, hx]
    show _ = (net'.transition? t).bind _
    rw [hy, Option.bind_some, Option.bind_some, same]
    rfl

theorem trace_forgetRemoved (pruned : P.net.Pruned net') (ts : List TransitionId) :
    (ts.filter net'.game.known).filterMap (forgetRemoved { P with net := net' }).visibleActivity? =
      ts.filterMap P.visibleActivity? := by
  rw [List.filterMap_filter]
  exact List.filterMap_congr fun t _ => (visibleActivity?_forgetRemoved pruned t).symm

theorem completedTrace_forget :
    (forgetRemoved P).CompletedTrace names ↔ P.CompletedTrace names := by
  have shown : (forgetRemoved P).visibleActivity? = P.visibleActivity? :=
    funext (visibleActivity?_forget P)
  rw [CompletedTrace, shown]
  exact Iff.rfl

theorem prune_answers (wf : P.net.WellFormed) (fits : P.net.Fits) (exhaustive : Bool) :
    ∃ report, (P.prune exhaustive).report = .ok report := by
  have answers : Answers (fun s => s.net.WellFormed ∧ s.net.Fits)
      (if exhaustive then Run.pruneExhaustively else Run.prune) := by
    split
    · exact Run.pruneExhaustively_answers
    · exact Run.prune_answers
  obtain ⟨report, s, run, -⟩ := answers (.start P.net) ⟨wf, fits⟩
  rw [prune]
  dsimp only
  rw [run]
  exact ⟨report, rfl⟩

theorem prune_redirects (wf : P.net.WellFormed) (exhaustive : Bool) : ∃ steps net',
    (∀ report, (P.prune exhaustive).report = .ok report → report.steps = steps) ∧
      P.net.Redirects steps net' ∧
      ((P.prune exhaustive).pattern = forgetRemoved { P with net := net' } ∨
        (P.prune exhaustive).pattern = { P with net := net' }) := by
  have pruned := passes_prunes exhaustive (.start P.net) wf
  rw [prune]
  dsimp only
  rcases run : (if exhaustive then Run.pruneExhaustively else Run.prune).run (.start P.net) with
    ⟨r, s⟩ | ⟨fault, s⟩
  · have reduces := (Run.reduces_of_run wf exhaustive run).1
    exact ⟨r.steps, s.net, fun _ done => by cases done; rfl, reduces.redirects, .inl rfl⟩
  · rw [run] at pruned
    obtain ⟨steps, redirects⟩ := pruned.redirects
    refine ⟨steps, s.net, fun _ done => ?_, redirects, .inr rfl⟩
    cases done

namespace WellFormed

variable (wf : P.WellFormed)

include wf

theorem roomAlong_iff (run : P.net.game.Runs (Pi.single P.source 1) ts M) :
    P.RoomAlong steps ts ↔
      P.net.game.RunsWhile (fun M => Roomy (collected steps M)) (Pi.single P.source 1) ts M := by
  constructor
  · intro room
    refine run.along fun us O before run r => ?_
    by_cases hr : ∃ step ∈ steps, step.redirectedTo = r
    · obtain ⟨step, hs, rfl⟩ := hr
      have at_step := room us _ before (wf.forceAll?_started.2 ⟨O, run, rfl⟩) step hs
      rwa [wf.tokens_reached ⟨us, run⟩] at at_step
    · have elsewhere : ∀ step ∈ steps, step.redirectedTo ≠ r := fun step hs eq => hr ⟨step, hs, eq⟩
      have there := Game.Reaches.roomy ⟨us, run⟩ (Game.roomy_single P.source) r
      exact (collected_le elsewhere).trans there
  · intro room us net before forced step _
    obtain ⟨O, run, rfl⟩ := wf.forceAll?_started.1 forced
    rw [wf.tokens_reached ⟨us, run⟩]
    exact room.at_prefix before run step.redirectedTo

/-- What is left of a complete run is complete exactly when no arc of it is lost and the collected
tokens have room. -/
theorem completes_filter_iff (redirects : P.net.Redirects steps net') (complete : P.Completes ts) :
    (Pattern.forgetRemoved { P with net := net' }).Completes (ts.filter net'.game.known) ↔
      P.RoomAlong steps ts ∧ ∀ t ∈ ts, net'.outputArcs t = P.net.outputArcs t := by
  have run := wf.completes_iff.1 complete
  have wf' := wf.forgetRemoved redirects.pruned
  have runs_iff := fun kept => (redirects.collects wf.net kept).runs_iff run
  obtain ⟨at_source, at_sink⟩ := redirects.collected_ends wf.ends
  rw [at_source, at_sink] at runs_iff
  rw [wf.roomAlong_iff run, wf'.completes_iff]
  constructor
  · intro run'
    have kept := redirects.pruned.kept_of_runs wf.net (fun p => List.mem_toFinset.2) run run'
    exact ⟨(runs_iff kept (Game.roomy_single P.source)).1 run', kept⟩
  · rintro ⟨room, kept⟩
    exact (runs_iff kept (Game.roomy_single P.source)).2 room

theorem completes_back {us : List TransitionId} (pruned : P.net.Pruned net')
    (complete : (Pattern.forgetRemoved { P with net := net' }).Completes us)
    (kept : ∀ t, t ∈ us ∨ ¬net'.game.known t = true → net'.outputArcs t = P.net.outputArcs t) :
    ∃ ts, P.Completes ts ∧ ts.filter net'.game.known = us := by
  have run := (wf.forgetRemoved pruned).completes_iff.1 complete
  obtain ⟨ts, run, left⟩ := pruned.runs_back wf.net wf.ends kept run
  exact ⟨ts, wf.completes_iff.2 run, left⟩

theorem reducesRuns (redirects : P.net.Redirects steps net') :
    P.ReducesRuns steps (Pattern.forgetRemoved { P with net := net' }) where
  net := redirects.reducedBy
  shows := by
    have shows := trace_forgetRemoved redirects.pruned
    rwa [net'.known_eq_contains] at shows
  completes_iff ts complete := by
    have left := wf.completes_filter_iff redirects complete
    rwa [net'.known_eq_contains] at left
  back us complete kept := by
    have back := wf.completes_back redirects.pruned complete
    rw [net'.known_eq_contains] at back
    exact back fun t ht => kept t (ht.imp_right (mt OrderedMap.contains_eq_true.2))

end WellFormed

namespace ReducesRuns

variable {P' : Pattern}

/-- Which names are remembered of removed transitions makes no difference to runs. -/
theorem of_forget (h : P.ReducesRuns steps (forgetRemoved P')) : P.ReducesRuns steps P' where
  net := h.net
  shows ts := by
    rw [← h.shows]
    exact List.filterMap_congr fun t _ => (visibleActivity?_forget P' t).symm
  completes_iff := h.completes_iff
  back := h.back

theorem completedTrace_iff (h : P.ReducesRuns steps P')
    (kept : ∀ t, P'.net.outputArcs t = P.net.outputArcs t) : P'.CompletedTrace names ↔
      ∃ ts, P.Completes ts ∧ P.RoomAlong steps ts ∧ ts.filterMap P.visibleActivity? = names := by
  constructor
  · rintro ⟨us, complete, rfl⟩
    obtain ⟨ts, complete', rfl⟩ := h.back us complete fun t _ => kept t
    exact ⟨ts, complete', ((h.completes_iff ts complete').1 complete).1, (h.shows ts).symm⟩
  · rintro ⟨ts, complete, room, rfl⟩
    exact ⟨_, (h.completes_iff ts complete).2 ⟨room, fun t _ => kept t⟩, h.shows ts⟩

end ReducesRuns

end Pattern

/-- What a reduction does to the traces of a pattern, whether it returns, as it does when all tokens of
the net are a token count together, or stops half way. Exactly those complete runs stay complete,
without the removed transitions, in which no arc is lost and the tokens have room where they are
collected; and if no arc is lost at all, the completed traces are those of the complete runs with such
room. -/
theorem Built.prune_traces {P : Pattern} (built : Built (.pattern P)) (exhaustive : Bool) :
    (P.net.Fits → ∃ report, (P.prune exhaustive).report = .ok report) ∧
    ∃ steps, (∀ report, (P.prune exhaustive).report = .ok report → report.steps = steps) ∧
      P.ReducesRuns steps (P.prune exhaustive).pattern ∧
      ((∀ t, (P.prune exhaustive).pattern.net.outputArcs t = P.net.outputArcs t) →
        ∀ names, (P.prune exhaustive).pattern.CompletedTrace names ↔
          ∃ ts, P.Completes ts ∧ P.RoomAlong steps ts ∧
            ts.filterMap P.visibleActivity? = names) := by
  have wf : P.WellFormed := built.wellFormed
  obtain ⟨steps, net', reported, redirects, left⟩ := P.prune_redirects wf.net exhaustive
  have runs : P.ReducesRuns steps (P.prune exhaustive).pattern := by
    rcases left with left | left <;> rw [left]
    · exact wf.reducesRuns redirects
    · exact (wf.reducesRuns redirects).of_forget
  exact ⟨fun fits => Pattern.prune_answers wf.net fits exhaustive, steps, reported, runs,
    fun kept names => runs.completedTrace_iff kept⟩

def Net.detour : Net :=
  .after [.addPlace (.blank ⟨"start"⟩), .addPlace (.blank ⟨"mid"⟩), .addPlace (.blank ⟨"end"⟩),
    .addTransition (.bare ⟨"work"⟩ "work" true), .addTransition (.bare ⟨"pass"⟩ "pass" false),
    .connect ⟨"start"⟩ ⟨"work"⟩ ⟨"mid"⟩, .connect ⟨"mid"⟩ ⟨"pass"⟩ ⟨"end"⟩]

def Pattern.detour : Pattern where
  net := .detour
  activities := .ofList [(⟨"work"⟩, "work")]
  source := ⟨"start"⟩
  sink := ⟨"end"⟩

set_option maxRecDepth 20000 in
theorem Pattern.built_detour : Built (.pattern detour) :=
  have built : Built (.net .detour) := built_after _
  have ofNet : ofNet .detour (.perTransition detour.activities) = .ok detour := rfl
  built.ofNet ofNet

theorem Pattern.detour_prune_completes : (detour.prune true).pattern.Completes [⟨"work"⟩] := by
  obtain ⟨-, steps, reported, runs, -⟩ := Built.prune_traces built_detour true
  have removed : (match (detour.prune true).report with
      | .ok report => report.steps
      | .error _ => []) = [⟨⟨"pass"⟩, ⟨"mid"⟩, ⟨"end"⟩⟩] := by decide +kernel
  rcases done : (detour.prune true).report with e | report <;> rw [done] at removed
  · cases removed
  obtain rfl : steps = [⟨⟨"pass"⟩, ⟨"mid"⟩, ⟨"end"⟩⟩] := (reported report done).symm.trans removed
  have left : [⟨"work"⟩, ⟨"pass"⟩].filter
      (detour.prune true).pattern.net.transitions.contains = [⟨"work"⟩] := by decide +kernel
  have stays := runs.completes_iff [⟨"work"⟩, ⟨"pass"⟩] (by decide +kernel)
  rw [left] at stays
  exact stays.2 ⟨by decide +kernel, by decide +kernel⟩

/-- Two tokens are meant for one place, one of them by way of a silent transition. -/
def Net.forked : Net :=
  .after [.addPlace (.blank ⟨"start"⟩), .addPlace (.blank ⟨"mid"⟩), .addPlace (.blank ⟨"ready"⟩),
    .addPlace (.blank ⟨"half"⟩), .addPlace (.blank ⟨"end"⟩),
    .addTransition (.bare ⟨"fork"⟩ "fork" true), .addTransition (.bare ⟨"pass"⟩ "pass" false),
    .addTransition (.bare ⟨"first"⟩ "first" true), .addTransition (.bare ⟨"last"⟩ "last" true),
    .connect ⟨"start"⟩ ⟨"fork"⟩ ⟨"mid"⟩, .addOutputArc ⟨"fork"⟩ ⟨"ready"⟩,
    .connect ⟨"mid"⟩ ⟨"pass"⟩ ⟨"ready"⟩, .connect ⟨"ready"⟩ ⟨"first"⟩ ⟨"half"⟩,
    .connect ⟨"ready"⟩ ⟨"last"⟩ ⟨"end"⟩, .addInputArc ⟨"half"⟩ ⟨"last"⟩]

namespace Pattern

def forked : Pattern where
  net := .forked
  activities := .ofList [(⟨"fork"⟩, "fork"), (⟨"first"⟩, "first"), (⟨"last"⟩, "last")]
  source := ⟨"start"⟩
  sink := ⟨"end"⟩

set_option maxRecDepth 20000 in
theorem built_forked : Built (.pattern forked) :=
  have built : Built (.net .forked) := built_after _
  have ofNet : ofNet .forked (.perTransition forked.activities) = .ok forked := rfl
  built.ofNet ofNet

theorem forked_prune : ∃ report, (forked.prune false).report = .ok report := by
  have done : (forked.prune false).report.toBool = true := by decide +kernel
  rcases h : (forked.prune false).report with e | report
  · rw [h] at done
    cases done
  · exact ⟨report, rfl⟩

theorem forked_outputArcs_le (t : TransitionId) :
    (forked.prune false).pattern.net.outputArcs t ≤
      (forked.prune false).pattern.net.inputArcs t := by
  have le : ∀ x ∈ (forked.prune false).pattern.net.transitions.values,
      x.outputs.size ≤ x.inputs.size := by decide +kernel
  rw [Net.outputArcs, Net.inputArcs]
  rcases hx : (forked.prune false).pattern.net.transition? t with _ | x
  · exact Nat.le_refl 1
  · exact le x (OrderedMap.mem_values.2 ⟨t, hx⟩)

/-- With two tokens on one place the last transition can fire, with one it cannot. -/
theorem forked_prune_loses : Built (.pattern forked) ∧
    (∃ report, (forked.prune false).report = .ok report) ∧
    forked.CompletedTrace ["fork", "first", "last"] ∧
    ¬(forked.prune false).pattern.CompletedTrace ["fork", "first", "last"] := by
  refine ⟨built_forked, forked_prune,
    ⟨[⟨"fork"⟩, ⟨"first"⟩, ⟨"pass"⟩, ⟨"last"⟩], by decide +kernel, by decide +kernel⟩, ?_⟩
  rintro ⟨ts, complete, trace⟩
  obtain ⟨report, done⟩ := forked_prune
  have wf : (forked.prune false).pattern.WellFormed := (built_forked.prune done).wellFormed
  have hL : ∀ p ∈ (forked.prune false).pattern.net.places.keys,
      p ∈ (forked.prune false).pattern.net.places.keys.toFinset := fun p => List.mem_toFinset.2
  have balance := wf.net.arcs_balance hL (wf.completes_iff.1 complete)
  rw [Finset.sum_pi_single', Finset.sum_pi_single', if_pos (hL _ (wf.ends.source_mem wf.net)),
    if_pos (hL _ (wf.ends.sink_mem wf.net))] at balance
  have fired : ⟨"last"⟩ ∈ ts := by
    have shown : "last" ∈ ts.filterMap (forked.prune false).pattern.visibleActivity? := by
      rw [trace]
      decide
    obtain ⟨t, ht, name⟩ := List.mem_filterMap.1 shown
    have only : ∀ u ∈ (forked.prune false).pattern.net.transitions.keys,
        (forked.prune false).pattern.visibleActivity? u = some "last" → u = ⟨"last"⟩ := by
      decide +kernel
    obtain ⟨x, hx, -⟩ := Option.bind_eq_some_iff.1 name
    exact only t (OrderedMap.mem_keys_of_get? hx) name ▸ ht
  have strict : (forked.prune false).pattern.net.outputArcs ⟨"last"⟩ <
      (forked.prune false).pattern.net.inputArcs ⟨"last"⟩ := by decide +kernel
  have less := List.sum_lt_sum _ _ (fun t _ => forked_outputArcs_le t) ⟨_, fired, strict⟩
  omega

end Pattern

end ProcessNet
