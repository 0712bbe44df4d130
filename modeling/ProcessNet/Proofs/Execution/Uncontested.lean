import ProcessNet.Proofs.Execution.Answering

/-!
Nets in which no place has a choice: every guard answers, and at most one of the transitions that take
from a place accepts. A place then votes for its one candidate whatever words come, and a transition
has the votes of all its inputs as soon as they are marked. So a step fires all that may fire and has
an input, words are counted but decide nothing, and a run ends early only where nothing of the kind
is left.
-/

namespace ProcessNet

namespace Net

/-- Guards give answers, and no two accepting transitions take from one place. -/
structure Uncontested (net : Net) : Prop where
  answers : ∀ t x, net.transition? t = some x → ∃ accepted, x.accepts net.vars = .ok accepted
  alone : ∀ p t u, net.Candidate p t → net.Candidate p u → t = u

variable {net net' : Net} {p : PlaceId} {t : TransitionId} {xs : List Transition}
  {ts : List TransitionId}

theorem Uncontested.retokens (h : net.Uncontested) (same : net.Retokens net') :
    net'.Uncontested := by
  obtain ⟨M, rfl⟩ := same
  exact ⟨h.answers, h.alone⟩

theorem accepting_sublist (h : net.accepting xs = .ok ts) : ts.Sublist (xs.map Transition.id) := by
  obtain ⟨-, rfl⟩ := accepting_eq_ok_iff.1 h
  exact List.filter_sublist.map _

theorem mem_accepting (h : net.accepting xs = .ok ts) {x : Transition} (hx : x ∈ xs)
    (accepts : x.accepts net.vars = .ok true) : x.id ∈ ts := by
  obtain ⟨-, rfl⟩ := accepting_eq_ok_iff.1 h
  exact List.mem_map_of_mem (List.mem_filter.2 ⟨hx, isAccepting_iff.2 accepts⟩)

theorem WellFormed.mem_fireable (wf : net.WellFormed) (h : net.fireable = .ok ts) :
    t ∈ ts ↔ net.Fireable t := by
  constructor
  · intro ht
    obtain ⟨x, hx, rfl, accepts⟩ := accepting_eq_ok h t ht
    obtain ⟨known, enabled⟩ := wf.mem_enabled.1 hx
    exact ⟨x, known, enabled, accepts⟩
  · rintro ⟨x, hx, enabled, accepts⟩
    obtain rfl := wf.transition_id hx
    exact mem_accepting h (wf.mem_enabled.2 ⟨hx, enabled⟩) accepts

def ballot (net : Net) (p : PlaceId) : List TransitionId :=
  match net.accepting (net.consumers p) with
  | .ok ts => ts
  | .error _ => []

def marked (net : Net) : List Place := net.places.values.filter (0 < ·.tokens)

def ballots (net : Net) : List TransitionId := net.marked.flatMap fun p => net.ballot p.id

namespace Uncontested

variable (h : net.Uncontested) (wf : net.WellFormed)

include h

theorem accepting_consumers (p : PlaceId) :
    net.accepting (net.consumers p) = .ok (net.ballot p) := by
  have answers : ∀ x ∈ net.consumers p, ∃ accepted, x.accepts net.vars = .ok accepted := by
    intro x hx
    obtain ⟨t, ht⟩ := OrderedMap.mem_values.1 (List.mem_filter.1 hx).1
    exact h.answers t x ht
  obtain ⟨ts, answer⟩ := accepting_of_answers answers
  rw [ballot, answer]

theorem fireable_eq_ok : ∃ ready, net.fireable = .ok ready :=
  Answering.fireable_eq_ok h.answers

include wf

theorem mem_ballot : t ∈ net.ballot p ↔ net.Candidate p t := by
  have accepting := h.accepting_consumers p
  constructor
  · intro ht
    obtain ⟨x, hx, rfl, accepts⟩ := accepting_eq_ok accepting t ht
    obtain ⟨known, input⟩ := List.mem_filter.1 hx
    obtain ⟨u, hu⟩ := OrderedMap.mem_values.1 known
    obtain rfl := wf.transition_id hu
    exact ⟨x, hu, of_decide_eq_true input, accepts⟩
  · rintro ⟨x, hx, input, accepts⟩
    have listed : x ∈ net.consumers p :=
      List.mem_filter.2 ⟨OrderedMap.mem_values.2 ⟨t, hx⟩, decide_eq_true input⟩
    exact wf.transition_id hx ▸ mem_accepting accepting listed accepts

theorem ballot_cases (p : PlaceId) : net.ballot p = [] ∨ ∃ t, net.ballot p = [t] := by
  have nodup : (net.ballot p).Nodup := by
    refine (accepting_sublist (h.accepting_consumers p)).nodup ?_
    have ids : (net.transitions.values.map Transition.id).Nodup :=
      wf.transition_ids ▸ net.transitions.nodup_keys
    exact ids.sublist (List.filter_sublist.map _)
  have alone : ∀ t ∈ net.ballot p, ∀ u ∈ net.ballot p, t = u := fun t ht u hu =>
    h.alone p t u ((h.mem_ballot wf).1 ht) ((h.mem_ballot wf).1 hu)
  rcases ballot : net.ballot p with _ | ⟨t, _ | ⟨u, rest⟩⟩
  · exact .inl rfl
  · exact .inr ⟨t, rfl⟩
  · rw [ballot] at nodup alone
    obtain rfl := alone t List.mem_cons_self u (List.mem_cons_of_mem t List.mem_cons_self)
    exact absurd List.mem_cons_self (List.nodup_cons.1 nodup).1

end Uncontested

end Net

namespace Run

open Net (Uncontested)

variable {words : Words} {s : Session}

theorem run_drawFrom_one {α : Type} (words : Words) (a : α) (s : Session) :
    (drawFrom words [a]).run s = .ok (some a) { s with drawn := s.drawn + 1 } := by
  have below : (words s.drawn).toNat * 1 < Nat.pow 2 32 := by
    rw [Nat.mul_one]
    exact (words s.drawn).toNat_lt
  have index : (drawIndex words 1).run s = .ok 0 { s with drawn := s.drawn + 1 } := by
    rw [drawIndex, EStateM.run_bind, run_nextWord]
    dsimp only
    rw [Nat.div_eq_of_lt below, Nat.mod_eq_of_lt below, if_pos (by omega)]
    rfl
  rw [drawFrom, if_neg (by simp), EStateM.run_bind]
  rw [List.length_singleton, index]
  rfl

theorem run_vote_uncontested (words : Words) (votes : Votes) (place : Place)
    (h : s.net.Uncontested) (wf : s.net.WellFormed) :
    (vote words votes place).run s = .ok ((s.net.ballot place.id).foldl Votes.cast votes)
      { s with drawn := s.drawn + (s.net.ballot place.id).length } := by
  have ofOk (ts : List TransitionId) : (ofExcept (.ok ts)).run s = .ok ts s := rfl
  rw [vote, run_net_bind, h.accepting_consumers, EStateM.run_bind, ofOk]
  dsimp only
  rcases h.ballot_cases wf place.id with none | ⟨t, one⟩
  · rw [none]
    rfl
  · rw [one, EStateM.run_bind, run_drawFrom_one]
    rfl

theorem run_foldlM_vote_uncontested (words : Words) (places : List Place) (votes : Votes)
    (h : s.net.Uncontested) (wf : s.net.WellFormed) :
    (places.foldlM (vote words) votes).run s =
      .ok ((places.flatMap fun p => s.net.ballot p.id).foldl Votes.cast votes)
        { s with drawn := s.drawn + (places.flatMap fun p => s.net.ballot p.id).length } := by
  induction places generalizing votes s with
  | nil => rfl
  | cons p rest ih =>
    rw [List.foldlM_cons, EStateM.run_bind, run_vote_uncontested words votes p h wf]
    dsimp only
    rw [ih (s := { s with drawn := s.drawn + (s.net.ballot p.id).length }) _ h wf,
      List.flatMap_cons, List.foldl_append, List.length_append, Nat.add_assoc]

theorem run_collectVotes_uncontested (words : Words) (h : s.net.Uncontested)
    (wf : s.net.WellFormed) :
    (collectVotes words).run s = .ok (s.net.ballots.foldl Votes.cast ∅)
      { s with drawn := s.drawn + s.net.ballots.length } :=
  run_foldlM_vote_uncontested words s.net.marked ∅ h wf

end Run

theorem count_foldl_cast (ts : List TransitionId) (votes : Votes) (t : TransitionId) :
    (ts.foldl Votes.cast votes).count t = votes.count t + ts.count t := by
  induction ts generalizing votes with
  | nil => rfl
  | cons u rest ih =>
    rw [List.foldl_cons, ih, Tally.count_cast, List.count_cons]
    by_cases eq : t = u
    · simp [eq]
      omega
    · have : ¬u = t := fun eq' => eq eq'.symm
      simp [eq, this]

/-- The transitions that have all their votes when every candidate gets one. -/
def Net.committed (net : Net) : List TransitionId :=
  ((net.ballots.foldl Votes.cast ∅).filter (Run.commits net)).keys

namespace Net.Uncontested

variable {net : Net} {t : TransitionId} (h : net.Uncontested) (wf : net.WellFormed)

include h wf

theorem commits_committed : net.Commits net.committed := by
  have collected := Run.run_collectVotes_uncontested (s := .start net) (fun _ => 0) h wf
  rcases Run.run_collectVotes (s := .start net) (fun _ => 0) wf with ⟨e, drawn, stopped, -⟩ |
    ⟨votes, drawn, ballots, collected', tally⟩
  · cases collected.symm.trans stopped
  · cases collected.symm.trans collected'
    exact tally.commits

theorem size_le_count {x : Transition} (hx : net.transition? t = some x)
    (marked : ∀ p ∈ x.inputs, 0 < net.tokens p) (accepts : x.accepts net.vars = .ok true) :
    x.inputs.size ≤ net.ballots.count t := by
  -- without a choice every input has its one candidate to vote for
  have voting : x.inputs.toList ⊆
      (net.marked.filter fun y => t ∈ net.ballot y.id).map Place.id := by
    intro p hp
    have known : p ∈ net.places.keys := (wf.admits hx).inputs p hp
    obtain ⟨y, hy⟩ := OrderedMap.mem_keys.1 known
    obtain rfl := wf.place_id hy
    have tokens := marked y.id hp
    rw [tokens_of_place? hy] at tokens
    refine List.mem_map_of_mem (List.mem_filter.2 ⟨List.mem_filter.2
      ⟨OrderedMap.mem_values.2 ⟨_, hy⟩, decide_eq_true tokens⟩, ?_⟩)
    exact decide_eq_true ((h.mem_ballot wf).2 ⟨x, hx, hp, accepts⟩)
  have counted (places : List Place) : places.countP (fun y => t ∈ net.ballot y.id) ≤
      (places.flatMap fun y => net.ballot y.id).count t := by
    induction places with
    | nil => exact Nat.le_refl 0
    | cons y rest ih =>
      rw [List.countP_cons, List.flatMap_cons, List.count_append]
      by_cases mem : t ∈ net.ballot y.id
      · have := List.count_pos_iff.2 mem
        simp only [mem, decide_true, if_true]
        omega
      · simp only [mem, decide_false, Bool.false_eq_true, if_false]
        omega
  calc x.inputs.size
    _ ≤ ((net.marked.filter fun y => t ∈ net.ballot y.id).map Place.id).length :=
      (List.subperm_of_subset x.inputs.nodup voting).length_le
    _ = net.marked.countP fun y => t ∈ net.ballot y.id := by
      rw [List.length_map, List.countP_eq_length_filter]
    _ ≤ net.ballots.count t := counted net.marked

theorem mem_committed : t ∈ net.committed ↔
    net.Fireable t ∧ ∃ x, net.transition? t = some x ∧ x.inputs.toList ≠ [] := by
  constructor
  · intro ht
    obtain ⟨x, hx, some_input, marked, accepts⟩ := (h.commits_committed wf).ready t ht
    exact ⟨⟨x, hx, isEnabled_iff.2 marked, accepts⟩, x, hx, some_input⟩
  · rintro ⟨⟨x, hx, enabled, accepts⟩, y, hy, some_input⟩
    obtain rfl := Option.some.inj (hx.symm.trans hy)
    have enough := h.size_le_count wf hx (isEnabled_iff.1 enabled) accepts
    have count : (net.ballots.foldl Votes.cast ∅).count t = net.ballots.count t := by
      rw [count_foldl_cast]
      exact Nat.zero_add _
    have size : 0 < x.inputs.size := List.length_pos_iff.2 some_input
    rcases voted : (net.ballots.foldl Votes.cast ∅).get? t with _ | n
    · rw [Votes.count, voted, Option.getD_none] at count
      omega
    · rw [Votes.count, voted, Option.getD_some] at count
      refine OrderedMap.mem_keys_filter.2 ⟨n, voted, ?_⟩
      rw [Run.commits, hx, Option.any_some, decide_eq_true_eq, count]
      exact enough

end Net.Uncontested

namespace Run

open Net (Uncontested)

variable {s s' : Session} {fired : List TransitionId}

theorem step_eq_of_uncontested (h : s.net.Uncontested) (wf : s.net.WellFormed)
    (words words' : Words) : (step words).run s = (step words').run s := by
  rw [step, step, EStateM.run_bind, EStateM.run_bind, run_collectVotes_uncontested words h wf,
    run_collectVotes_uncontested words' h wf]

theorem fired_eq_of_uncontested {words : Words} (h : s.net.Uncontested) (wf : s.net.WellFormed)
    (stepped : (step words).run s = .ok fired s') : fired = s.net.committed := by
  obtain ⟨votes, s₁, collected, rfl, -⟩ := step_eq_ok.1 stepped
  cases (run_collectVotes_uncontested words h wf).symm.trans collected
  rfl

theorem stepsUntilStill_eq_of_uncontested (h : s.net.Uncontested) (wf : s.net.WellFormed)
    (words words' : Words) (bound steps : ℕ) (earlier : List (List TransitionId)) :
    (stepsUntilStill words bound steps earlier).run s =
      (stepsUntilStill words' bound steps earlier).run s := by
  induction bound generalizing s steps earlier with
  | zero => rfl
  | succ bound ih =>
    rw [stepsUntilStill, stepsUntilStill, EStateM.run_bind, EStateM.run_bind,
      step_eq_of_uncontested h wf words words']
    rcases stepped : (step words').run s with ⟨fired, next⟩ | ⟨fault, next⟩
    · have same := (step_retokens words').ok stepped
      dsimp only
      split
      · rfl
      · exact ih (h.retokens same) (same.keepsForm wf) _ _
    · rfl

theorem simulate_eq_of_uncontested (h : s.net.Uncontested) (wf : s.net.WellFormed)
    (words words' : Words) (bound : ℕ) :
    (simulate bound words).run s = (simulate bound words').run s := by
  rw [simulate, simulate, EStateM.run_bind, EStateM.run_bind,
    stepsUntilStill_eq_of_uncontested h wf words words']

variable {words : Words} {fault : Fault}

theorem overflow_of_step (h : s.net.Uncontested) (wf : s.net.WellFormed)
    (stopped : (step words).run s = .error fault s') : fault = .overflow :=
  Net.Answering.overflow_of_step h.answers wf stopped

theorem stepsUntilStill_answers (h : s.net.Uncontested) (wf : s.net.WellFormed) (words : Words)
    {bound : ℕ} (room : ∀ p, s.net.tokens p + bound * s.net.transitions.size ≤ Place.capacity)
    (steps : ℕ) (earlier : List (List TransitionId)) :
    ∃ answer s', (stepsUntilStill words bound steps earlier).run s = .ok answer s' :=
  Net.Answering.stepsUntilStill_answers h.answers wf words room steps earlier

end Run

/-- Where no place has a choice the words decide nothing. A step fires what is fireable and takes from
a place at all, each transition once; steps and runs end alike on all words; and below its bound a run
ends only when nothing is left that is fireable and takes from a place. Only a full place can stop a
step or a run. -/
theorem Built.uncontested_determined {net : Net} (built : Built (.net net)) (h : net.Uncontested)
    (words words' : Words) (bound : ℕ) :
    (∃ ready, net.fireable = .ok ready ∧
      ∀ fired s, (Run.step words).run (.start net) = .ok fired s → fired.Nodup ∧
        ∀ t, t ∈ fired ↔ t ∈ ready ∧ ∃ x, net.transition? t = some x ∧ x.inputs.toList ≠ []) ∧
    (Run.step words).run (.start net) = (Run.step words').run (.start net) ∧
    (Run.simulate bound words).run (.start net) = (Run.simulate bound words').run (.start net) ∧
    (∀ trace s, (Run.simulate bound words).run (.start net) = .ok trace s → trace.steps < bound →
      ∃ ready, s.net.fireable = .ok ready ∧
        ∀ t ∈ ready, ∀ x, s.net.transition? t = some x → x.inputs.toList = []) ∧
    ((∀ p, net.tokens p + net.transitions.size ≤ Place.capacity) →
      ∃ fired s, (Run.step words).run (.start net) = .ok fired s) ∧
    ((∀ p, net.tokens p + bound * net.transitions.size ≤ Place.capacity) →
      ∃ trace s, (Run.simulate bound words).run (.start net) = .ok trace s) ∧
    ∀ fault s, (Run.step words).run (.start net) = .error fault s ∨
      (Run.simulate bound words).run (.start net) = .error fault s → fault = .overflow := by
  have wf : (Session.start net).net.WellFormed := built.wellFormed
  have start : (Session.start net).net.Uncontested := h
  refine ⟨?_, Run.step_eq_of_uncontested start wf words words',
    Run.simulate_eq_of_uncontested start wf words words' bound, ?_, fun room => ?_, fun room => ?_,
    fun fault s stopped => ?_⟩
  · obtain ⟨ready, listed⟩ := h.fireable_eq_ok
    refine ⟨ready, listed, fun fired s stepped => ?_⟩
    obtain rfl := Run.fired_eq_of_uncontested start wf stepped
    exact ⟨(start.commits_committed wf).nodup, fun t =>
      (start.mem_committed wf).trans (and_congr_left' (wf.mem_fireable listed).symm)⟩
  · intro trace s simulated below
    obtain ⟨s₁, ran, rfl, -⟩ := Run.simulate_eq_ok.1 simulated
    obtain ⟨rounds, last, run, steps, -, ends⟩ := Run.stepsUntilStill_eq_ok ran
    rcases ends with ⟨reached, -⟩ | ⟨-, still⟩
    · omega
    have end_wf := run.wellFormed wf
    have end_uncontested := start.retokens run.retokens
    obtain ⟨n, rfl, -⟩ := Run.still_of_step still
    have nothing := Run.fired_eq_of_uncontested end_uncontested end_wf still
    obtain ⟨ready, listed⟩ := end_uncontested.fireable_eq_ok
    refine ⟨ready, listed, fun t ht x hx => ?_⟩
    by_contra some_input
    have committed : t ∈ last.net.committed := (end_uncontested.mem_committed end_wf).2
      ⟨(end_wf.mem_fireable listed).1 ht, x, hx, some_input⟩
    rw [← nothing] at committed
    cases committed
  · rcases Run.run_step words wf room with ⟨e, s, stopped, -⟩ | ⟨fired, s, stepped, -⟩
    · cases Run.overflow_of_step start wf stopped
    · exact ⟨fired, s, stepped⟩
  · obtain ⟨⟨steps, fired⟩, s, ran⟩ := Run.stepsUntilStill_answers start wf words room 0 []
    exact ⟨⟨steps, fired, s.net.marking⟩, _, Run.simulate_eq_ok.2 ⟨s, ran, rfl, rfl⟩⟩
  · rcases stopped with stopped | stopped
    · exact Run.overflow_of_step start wf stopped
    · obtain ⟨rounds, last, run, -, stopped⟩ :=
        Run.stepsUntilStill_eq_error (Run.simulate_eq_error.1 stopped)
      exact Run.overflow_of_step (start.retokens run.retokens) (run.wellFormed wf) stopped

/-- A split and a join. One way out of the split is guarded off, the join has an empty input at first,
and one transition takes from nowhere. -/
def Net.splitJoin : Net :=
  .after [.addPlace (.ofId ⟨"start"⟩ 1), .addPlace (.ofId ⟨"left"⟩ 1), .addPlace (.blank ⟨"right"⟩),
    .addPlace (.blank ⟨"end"⟩), .addVariable { Variable.declare "load" .int with value := some (.int 5) },
    .addTransition (.bare ⟨"split"⟩ "split" true), .connect ⟨"start"⟩ ⟨"split"⟩ ⟨"right"⟩,
    .addTransition (.bare ⟨"skip"⟩ "skip" true), .connect ⟨"start"⟩ ⟨"skip"⟩ ⟨"end"⟩,
    .setGuard ⟨"skip"⟩ (.compare "load" .smaller (.int 4)),
    .addTransition (.bare ⟨"join"⟩ "join" true), .connect ⟨"left"⟩ ⟨"join"⟩ ⟨"end"⟩,
    .addInputArc ⟨"right"⟩ ⟨"join"⟩,
    .addTransition (.silent ⟨"arrive"⟩), .addOutputArc ⟨"arrive"⟩ ⟨"left"⟩]

theorem splitJoin_uncontested : Net.splitJoin.Uncontested := by
  have answers : ∀ x ∈ Net.splitJoin.transitions.values,
      (x.accepts Net.splitJoin.vars).toOption.isSome = true := by
    decide +kernel
  have alone : ∀ x ∈ Net.splitJoin.transitions.values, ∀ y ∈ Net.splitJoin.transitions.values,
      (x.accepts Net.splitJoin.vars).toOption = some true →
        (y.accepts Net.splitJoin.vars).toOption = some true →
          (∃ p ∈ x.inputs.toList, p ∈ y.inputs.toList) → x.id = y.id := by decide +kernel
  have wf : Net.splitJoin.WellFormed := (built_after _ : Built (.net .splitJoin)).wellFormed
  refine ⟨fun t x hx => ?_, ?_⟩
  · have := answers x (OrderedMap.mem_values.2 ⟨t, hx⟩)
    rcases answer : x.accepts Net.splitJoin.vars with e | accepted
    · rw [answer] at this
      cases this
    · exact ⟨accepted, rfl⟩
  · rintro p t u ⟨x, hx, input, accepts⟩ ⟨y, hy, input', accepts'⟩
    rw [← wf.transition_id hx, ← wf.transition_id hy]
    exact alone x (OrderedMap.mem_values.2 ⟨t, hx⟩) y (OrderedMap.mem_values.2 ⟨u, hy⟩)
      (by rw [accepts]; rfl) (by rw [accepts']; rfl) ⟨p, input, input'⟩

set_option maxRecDepth 4000 in
theorem splitJoin_determined :
    (∃ s, (Run.step fun n => .ofNat (n * n)).run (.start .splitJoin) = .ok [⟨"split"⟩] s) ∧
    ∃ trace s, (Run.simulate 5 fun n => .ofNat (n * n)).run (.start .splitJoin) = .ok trace s ∧
      trace.fired = [[⟨"split"⟩], [⟨"join"⟩]] := by
  have built : Built (.net .splitJoin) := built_after _
  obtain ⟨-, steps, runs, -⟩ := built.uncontested_determined splitJoin_uncontested
    (fun n => .ofNat (n * n)) (fun _ => 0) 5
  rw [steps, runs]
  obtain ⟨s, stepped⟩ : ∃ s, (Run.step fun _ => 0).run (.start .splitJoin) = .ok [⟨"split"⟩] s :=
    ⟨_, rfl⟩
  obtain ⟨trace, s', ran, fired⟩ : ∃ trace s,
      (Run.simulate 5 fun _ => 0).run (.start .splitJoin) = .ok trace s ∧
        trace.fired = [[⟨"split"⟩], [⟨"join"⟩]] := ⟨_, _, rfl, rfl⟩
  exact ⟨⟨s, stepped⟩, trace, s', ran, fired⟩

end ProcessNet
