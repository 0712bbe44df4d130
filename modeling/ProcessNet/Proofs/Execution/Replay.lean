import ProcessNet.Proofs.Execution.Drawing
import ProcessNet.Proofs.Execution.Refusal

/-!
Traces of simulations. A run is a number of steps that fired something, and if it ends before its
bound, one that fired nothing. What a step fires can be fired by force in the same order, each
transition with its inputs marked and its guard accepting when its turn comes: the others took from
other places, and guards do not look at tokens. So the whole trace replays from the net at the
start. A step that fires nothing has only drawn words, and wherever the same words come again on the
same net, it fires nothing again.
-/

namespace ProcessNet

namespace Net

def Fireable (net : Net) (t : TransitionId) : Prop :=
  ∃ x, net.transition? t = some x ∧ net.isEnabled x = true ∧ x.accepts net.vars = .ok true

/-- The transitions are fired by force one by one, each at a time when it is fireable. -/
inductive Replays : Net → List TransitionId → Net → Prop
  | nil (net : Net) : Replays net [] net
  | cons {net next last : Net} {t : TransitionId} {ts : List TransitionId} :
      net.Fireable t → net.force? t = some next → Replays next ts last → Replays net (t :: ts) last

variable {net net' net'' : Net} {ts us : List TransitionId} {M : PlaceId → ℕ}

theorem Replays.append (h : net.Replays ts net') (h' : net'.Replays us net'') :
    net.Replays (ts ++ us) net'' := by
  induction h with
  | nil => exact h'
  | cons fireable forced _ ih => exact .cons fireable forced (ih h')

theorem replays_of_runs (wf : net.WellFormed) (run : net.game.Runs net.tokens ts M)
    (accepting : ∀ t ∈ ts, ∀ x, net.transition? t = some x → x.accepts net.vars = .ok true) :
    net.Replays ts (net.withTokens M) := by
  induction ts generalizing net with
  | nil =>
    cases run
    rw [withTokens_tokens]
    exact .nil net
  | cons t rest ih =>
    cases run with
    | @cons _ N _ _ _ _ fires later =>
      have forced : net.force? t = some (net.withTokens N) :=
        (force?_eq_some wf).2 ⟨N, fires, rfl⟩
      have tokens := wf.tokens_of_fires fires
      obtain ⟨m, hm, fires⟩ := fires
      obtain ⟨x, hx, rfl⟩ := Option.map_eq_some_iff.1 hm
      have enabled : net.isEnabled x = true := isEnabled_iff.2 (Transition.fires_iff.1 fires).1
      have fireable : net.Fireable t := ⟨x, hx, enabled, accepting t List.mem_cons_self x hx⟩
      -- the guards still accept on the next net, which has the same transitions and variables
      have replays := ih (wf.withTokens N) (by rwa [tokens, game_withTokens])
        fun u hu => accepting u (List.mem_cons_of_mem t hu)
      rw [withTokens_withTokens] at replays
      exact .cons fireable forced replays

end Net

namespace Run

open Net (Retokens)

variable {words : Words} {s s' : Session} {fired : List TransitionId}

theorem step_replays (wf : s.net.WellFormed) (h : (step words).run s = .ok fired s') :
    s.net.Replays fired s'.net := by
  obtain ⟨votes, s₁, collected, rfl, done⟩ := step_eq_ok.1 h
  rcases run_collectVotes words wf with ⟨e, drawn, stopped, -⟩ |
    ⟨votes', drawn, ballots, collected', tally⟩
  · cases stopped.symm.trans collected
  · cases collected'.symm.trans collected
    obtain ⟨M, run, same⟩ := runs_of_forM_fire (s := { s with drawn := drawn }) wf done
    rw [same]
    refine Net.replays_of_runs wf run fun t ht x hx => ?_
    obtain ⟨y, hy, -, -, accepts⟩ := tally.commits.ready t ht
    obtain rfl := Option.some.inj (hy.symm.trans hx)
    exact accepts

/-- On the net of the session a step fires nothing whenever the next words are the `n` that come
next here, and it draws these words only. -/
def Still (words : Words) (s : Session) (n : ℕ) : Prop :=
  ∀ words' u, u.net = s.net → (∀ i < n, words' (u.drawn + i) = words (s.drawn + i)) →
    (step words').run u = .ok [] { u with drawn := u.drawn + n }

theorem still_of_step (h : (step words).run s = .ok [] s') :
    ∃ n, s' = { s with drawn := s.drawn + n } ∧ Still words s n := by
  obtain ⟨votes, s₁, collected, nothing, done⟩ := step_eq_ok.1 h
  obtain ⟨-, rfl⟩ := pure_eq_ok.1 done
  obtain ⟨n, rfl, again⟩ := collectVotes_onlyDraws words s votes s₁ collected
  refine ⟨n, rfl, fun words' u same agree => ?_⟩
  refine step_eq_ok.2 ⟨votes, _, again words' u same agree, ?_, pure_eq_ok.2 ⟨rfl, rfl⟩⟩
  rw [nothing, same]

inductive Rounds (words : Words) : Session → List (List TransitionId) → Session → Prop
  | nil (s : Session) : Rounds words s [] s
  | cons {s next last : Session} {fired : List TransitionId} {later : List (List TransitionId)} :
      (step words).run s = .ok fired next → fired ≠ [] → Rounds words next later last →
        Rounds words s (fired :: later) last

namespace Rounds

variable {rounds : List (List TransitionId)} {last : Session}

theorem ne_nil (h : Rounds words s rounds last) : ∀ fired ∈ rounds, fired ≠ [] := by
  induction h with
  | nil => exact fun _ hf => nomatch hf
  | cons _ some_fired _ ih => exact List.forall_mem_cons.2 ⟨some_fired, ih⟩

theorem wellFormed (h : Rounds words s rounds last) (wf : s.net.WellFormed) :
    last.net.WellFormed := by
  induction h with
  | nil => exact wf
  | cons stepped _ _ ih => exact ih (((step_retokens words).ok stepped).keepsForm wf)

theorem replays (h : Rounds words s rounds last) (wf : s.net.WellFormed) :
    s.net.Replays rounds.flatten last.net := by
  induction h with
  | nil s => exact .nil s.net
  | cons stepped _ _ ih =>
    have wf' := ((step_retokens words).ok stepped).keepsForm wf
    exact (step_replays wf stepped).append (ih wf')

end Rounds

theorem stepsUntilStill_eq_ok {bound steps n : ℕ} {earlier all : List (List TransitionId)}
    (h : (stepsUntilStill words bound steps earlier).run s = .ok (n, all) s') :
    ∃ rounds last, Rounds words s rounds last ∧ n = steps + rounds.length ∧
      all = earlier.reverse ++ rounds ∧
      (rounds.length = bound ∧ s' = last ∨
        rounds.length < bound ∧ (step words).run last = .ok [] s') := by
  induction bound generalizing s steps earlier with
  | zero =>
    obtain ⟨answer, rfl⟩ := pure_eq_ok.1 h
    cases answer
    exact ⟨[], s, .nil s, rfl, (List.append_nil _).symm, .inl ⟨rfl, rfl⟩⟩
  | succ bound ih =>
    obtain ⟨fired, s₁, stepped, h⟩ := bind_eq_ok.1 h
    by_cases nothing : fired.isEmpty = true
    · rw [if_pos nothing] at h
      obtain ⟨answer, rfl⟩ := pure_eq_ok.1 h
      cases answer
      rw [List.isEmpty_iff.1 nothing] at stepped
      exact ⟨[], s, .nil s, rfl, (List.append_nil _).symm, .inr ⟨Nat.succ_pos bound, stepped⟩⟩
    · rw [if_neg nothing] at h
      obtain ⟨rounds, last, run, rfl, rfl, ends⟩ := ih h
      refine ⟨fired :: rounds, last,
        .cons stepped (fun eq => nothing (List.isEmpty_iff.2 eq)) run, ?_, ?_, ?_⟩
      · rw [List.length_cons]
        omega
      · rw [List.reverse_cons, List.append_assoc, List.singleton_append]
      · rw [List.length_cons, Nat.add_right_cancel_iff, Nat.add_lt_add_iff_right]
        exact ends

theorem stepsUntilStill_eq_error {bound steps : ℕ} {earlier : List (List TransitionId)}
    {fault : Fault} (h : (stepsUntilStill words bound steps earlier).run s = .error fault s') :
    ∃ rounds last, Rounds words s rounds last ∧ rounds.length < bound ∧
      (step words).run last = .error fault s' := by
  induction bound generalizing s steps earlier with
  | zero => cases h
  | succ bound ih =>
    rcases bind_eq_error.1 h with stopped | ⟨fired, s₁, stepped, h⟩
    · exact ⟨[], s, .nil s, Nat.succ_pos bound, stopped⟩
    · by_cases nothing : fired.isEmpty = true
      · rw [if_pos nothing] at h
        cases h
      · rw [if_neg nothing] at h
        obtain ⟨rounds, last, run, below, stopped⟩ := ih h
        exact ⟨fired :: rounds, last,
          .cons stepped (fun eq => nothing (List.isEmpty_iff.2 eq)) run,
          Nat.succ_lt_succ below, stopped⟩

theorem simulate_eq_ok {bound : ℕ} {trace : Trace} :
    (simulate bound words).run s = .ok trace s' ↔ ∃ s₁,
      (stepsUntilStill words bound 0 []).run s = .ok (trace.steps, trace.fired) s₁ ∧
      s' = { s₁ with journal := s₁.journal.push (.simulated trace.steps) } ∧
      trace.final = s₁.net.marking := by
  constructor
  · intro h
    obtain ⟨⟨steps, fired⟩, s₁, ran, h⟩ := bind_eq_ok.1 h
    obtain ⟨_, s₂, recorded, h⟩ := bind_eq_ok.1 h
    obtain ⟨_, _, looked, h⟩ := bind_eq_ok.1 h
    obtain ⟨rfl, rfl⟩ := net_eq_ok.1 looked
    obtain ⟨rfl, rfl⟩ := pure_eq_ok.1 h
    obtain rfl := record_eq_ok.1 recorded
    exact ⟨s₁, ran, rfl, rfl⟩
  · rintro ⟨s₁, ran, rfl, final⟩
    refine bind_eq_ok.2 ⟨_, s₁, ran, bind_eq_ok.2 ⟨(), _, record_eq_ok.2 rfl, ?_⟩⟩
    refine bind_eq_ok.2 ⟨_, _, net_eq_ok.2 ⟨rfl, rfl⟩, pure_eq_ok.2 ⟨?_, rfl⟩⟩
    rw [← final]

theorem simulate_eq_error {bound : ℕ} {fault : Fault} :
    (simulate bound words).run s = .error fault s' ↔
      (stepsUntilStill words bound 0 []).run s = .error fault s' := by
  constructor
  · intro h
    rcases bind_eq_error.1 h with stopped | ⟨_, _, -, answered⟩
    · exact stopped
    · cases answered
  · exact fun h => bind_eq_error.2 (.inl h)

end Run

/-- A trace counts its steps, within the bound and each with something fired, and replays from the
net at the start to the net at the end: every transition is forced with its inputs marked and its
guard accepting. A run below its bound has ended in a step that fires nothing again on the same
words. A run that is refused has kept the net of its completed steps. -/
theorem Built.simulation_replays {net : Net} (built : Built (.net net)) (bound : ℕ)
    (words : Words) :
    (∀ trace s, (Run.simulate bound words).run (.start net) = .ok trace s →
      trace.steps = trace.fired.length ∧ trace.steps ≤ bound ∧ (∀ ts ∈ trace.fired, ts ≠ []) ∧
      net.Replays trace.fired.flatten s.net ∧ trace.final = s.net.marking ∧
      (trace.steps < bound → ∃ last n, Run.Rounds words (.start net) trace.fired last ∧
        last.net = s.net ∧ s.drawn = last.drawn + n ∧ Run.Still words last n)) ∧
    ∀ e s, (Run.simulate bound words).run (.start net) = .error (.refused e) s →
      ∃ rounds last, Run.Rounds words (.start net) rounds last ∧ rounds.length < bound ∧
        (Run.step words).run last = .error (.refused e) s ∧ s.net = last.net := by
  have wf : (Session.start net).net.WellFormed := built.wellFormed
  constructor
  · intro trace s h
    obtain ⟨s₁, ran, rfl, final⟩ := Run.simulate_eq_ok.1 h
    obtain ⟨rounds, last, run, steps, fired, ends⟩ := Run.stepsUntilStill_eq_ok ran
    rw [Nat.zero_add] at steps
    rw [List.reverse_nil, List.nil_append] at fired
    subst fired
    have replays := run.replays wf
    rcases ends with ⟨reached, rfl⟩ | ⟨below, still⟩
    · refine ⟨steps, by omega, run.ne_nil, replays, final, fun below => ?_⟩
      omega
    · obtain ⟨n, rfl, again⟩ := Run.still_of_step still
      exact ⟨steps, by omega, run.ne_nil, replays, final, fun _ => ⟨last, n, run, rfl, rfl, again⟩⟩
  · intro e s h
    obtain ⟨rounds, last, run, below, stopped⟩ :=
      Run.stepsUntilStill_eq_error (Run.simulate_eq_error.1 h)
    obtain ⟨⟨drawn, rfl⟩, -⟩ := Run.step_refused (run.wellFormed wf) stopped
    exact ⟨rounds, last, run, below, stopped, rfl⟩

/-- A free choice: one way ends at once, the other leads to a guard on a variable without a
value. -/
def Net.crossing : Net :=
  .after [.addPlace (.ofId ⟨"start"⟩ 1), .addPlace (.blank ⟨"middle"⟩), .addPlace (.blank ⟨"end"⟩),
    .addVariable (.declare "load" .int),
    .addTransition (.bare ⟨"enter"⟩ "enter" true), .connect ⟨"start"⟩ ⟨"enter"⟩ ⟨"middle"⟩,
    .addTransition (.bare ⟨"skip"⟩ "skip" true), .connect ⟨"start"⟩ ⟨"skip"⟩ ⟨"end"⟩,
    .addTransition (.bare ⟨"work"⟩ "work" true), .connect ⟨"middle"⟩ ⟨"work"⟩ ⟨"end"⟩,
    .setGuard ⟨"work"⟩ (.compare "load" .smaller (.int 4))]

set_option maxRecDepth 1000 in
theorem crossing_simulation_replays :
    (∃ net, Net.crossing.Replays [⟨"skip"⟩] net ∧ ∃ last n, last.net = net ∧
      Run.Rounds (fun _ => 0x80000000) (.start .crossing) [[⟨"skip"⟩]] last ∧
      Run.Still (fun _ => 0x80000000) last n) ∧
    ∃ rounds last e s, Run.Rounds (fun _ => 0) (.start .crossing) rounds last ∧
      (Run.step fun _ => 0).run last = .error (.refused e) s ∧ s.net = last.net ∧
      last.net.isMarked ⟨"middle"⟩ = true := by
  have built : Built (.net .crossing) := built_after _
  constructor
  · obtain ⟨trace, s, ran, steps, fired⟩ : ∃ trace s,
        (Run.simulate 5 fun _ => 0x80000000).run (.start .crossing) = .ok trace s ∧
          trace.steps = 1 ∧ trace.fired = [[⟨"skip"⟩]] := ⟨_, _, rfl, rfl, rfl⟩
    obtain ⟨-, -, -, replays, -, ends⟩ := (built.simulation_replays 5 _).1 trace s ran
    obtain ⟨last, n, rounds, same, -, still⟩ := ends (by omega)
    rw [fired] at replays rounds
    exact ⟨s.net, replays, last, n, same, rounds, still⟩
  · obtain ⟨e, s, stopped, marked⟩ : ∃ e s,
        (Run.simulate 5 fun _ => 0).run (.start .crossing) = .error (.refused e) s ∧
          s.net.isMarked ⟨"middle"⟩ = true := ⟨_, _, rfl, rfl⟩
    obtain ⟨rounds, last, run, -, refused, same⟩ := (built.simulation_replays 5 _).2 e s stopped
    exact ⟨rounds, last, e, s, run, refused, same, same ▸ marked⟩

end ProcessNet
