import ProcessNet.Proofs.Execution.Refusal

/-!
Being listed as enabled and being able to fire. The list goes through the transitions and asks each
whether all its inputs are marked; a firing looks up one transition and searches its inputs for one
that is not. Both say the same, so a firing that is not listed is refused with its cause, and one that
is listed moves its tokens unless an output has no room. Where guards are asked as well, the list is
what is left of the first one.
-/

namespace ProcessNet

namespace Net

def Room (net : Net) (t : TransitionId) : Prop :=
  ∀ x, net.transition? t = some x → ∀ p ∈ x.outputs,
    net.tokens p + 1 ≤ Place.capacity + if p ∈ x.inputs then 1 else 0

instance (net : Net) (t : TransitionId) : Decidable (net.Room t) :=
  decidable_of_iff ((net.transition? t).all fun x => x.outputs.toList.all fun p =>
      decide (net.tokens p + 1 ≤ Place.capacity + if p ∈ x.inputs then 1 else 0)) (by
    rw [Room]
    rcases net.transition? t with _ | x
    · simp
    · simp [OrderedSet.mem_def])

variable {net : Net} {t : TransitionId} {x : Transition}

theorem WellFormed.mem_map_enabled (wf : net.WellFormed) :
    t ∈ net.enabled.map (·.id) ↔ ∃ x, net.transition? t = some x ∧ net.isEnabled x = true := by
  simp only [List.mem_map, wf.mem_enabled]
  constructor
  · rintro ⟨x, ⟨hx, enabled⟩, rfl⟩
    exact ⟨x, hx, enabled⟩
  · rintro ⟨x, hx, enabled⟩
    obtain rfl := wf.transition_id hx
    exact ⟨x, ⟨hx, enabled⟩, rfl⟩

theorem exists_fires_iff (hx : net.transition? t = some x) :
    (∃ M, net.game.Fires net.tokens t M) ↔ net.isEnabled x = true ∧ net.Room t := by
  have room : net.Room t ↔ ∀ p ∈ x.outputs, net.tokens p + 1 ≤
      Place.capacity + if p ∈ x.inputs then 1 else 0 := by
    simp [Room, hx]
  rw [room, isEnabled_iff]
  constructor
  · rintro ⟨M, m, hm, fires⟩
    obtain rfl := Option.some.inj (hm.symm.trans (game_eq_some hx))
    obtain ⟨marked, room, -⟩ := Transition.fires_iff.1 fires
    refine ⟨marked, fun p hp => ?_⟩
    have := room p hp
    simp only [OrderedSet.mem_def]
    omega
  · rintro ⟨marked, room⟩
    refine ⟨_, x.move, game_eq_some hx, Transition.fires_iff.2 ⟨marked, fun p hp => ?_, rfl⟩⟩
    have := room p hp
    simp only [OrderedSet.mem_def] at this
    by_cases input : p ∈ x.inputs.toList
    · have := marked p input
      rw [if_pos input] at *
      omega
    · rw [if_neg input] at *
      omega

end Net

namespace Run

variable {s s' : Session} {t : TransitionId} {x : Transition} {fault : Fault}

theorem exists_run_fire_iff (wf : s.net.WellFormed) (hx : s.net.transition? t = some x) :
    (∃ s', (fire t).run s = .ok () s') ↔ s.net.isEnabled x = true ∧ s.net.Room t := by
  rw [← Net.exists_fires_iff hx]
  constructor
  · rintro ⟨s', run⟩
    obtain ⟨M, fires, -⟩ := fires_of_run_fire wf run
    exact ⟨M, fires⟩
  · rintro ⟨M, fires⟩
    exact ⟨_, run_fire_of_fires wf fires⟩

theorem not_room_of_overflow (wf : s.net.WellFormed)
    (h : (fire t).run s = .error .overflow s') : ¬s.net.Room t := by
  intro room
  rcases hx : s.net.transition? t with _ | x
  · cases (run_fire_unknown hx).symm.trans h
  · rcases missing : x.inputs.toList.find? (fun p => !s.net.isMarked p) with _ | p
    · have enabled := Net.find?_unmarked_eq_none.1 missing
      obtain ⟨s₁, run⟩ := (exists_run_fire_iff wf hx).2 ⟨enabled, room⟩
      cases run.symm.trans h
    · cases (run_fire_unmarked hx missing).symm.trans h

end Run

/-- A forced firing succeeds exactly for the transitions that are listed as enabled, as long as every
output has room; it takes one token from each input and puts one on each output, and changes nothing
else. It is refused for a transition that there is not, and else for the first input without a token.
The list that asks the guards as well has the accepting ones of the enabled transitions. -/
theorem Built.fire_exact {s : Session} (built : Built (.net s.net)) (t : TransitionId) :
    ((∃ s', (Run.fire t).run s = .ok () s') ↔ t ∈ s.net.enabled.map (·.id) ∧ s.net.Room t) ∧
    (∀ s', (Run.fire t).run s = .ok () s' → ∃ x, s.net.transition? t = some x ∧
      s.net.Retokens s'.net ∧ ∀ p, (s'.net.tokens p : ℤ) =
        s.net.tokens p - (if p ∈ x.inputs then 1 else 0) + if p ∈ x.outputs then 1 else 0) ∧
    (∀ fault s', (Run.fire t).run s = .error fault s' →
      (s.net.transition? t = none ∧ fault = .refused (.unknownTransition t)) ∨
      (∃ x p earlier later, s.net.transition? t = some x ∧
        x.inputs.toList = earlier ++ p :: later ∧ (∀ q ∈ earlier, 0 < s.net.tokens q) ∧
        s.net.tokens p = 0 ∧ fault = .refused (.noToken p)) ∨
      (fault = .overflow ∧ ¬s.net.Room t)) ∧
    ∀ ids, s.net.fireable = .ok ids →
      ids = (s.net.enabled.filter s.net.isAccepting).map (·.id) := by
  have wf : s.net.WellFormed := built.wellFormed
  refine ⟨?_, fun s' run => ?_, fun fault s' run => ?_, fun ids listed => ?_⟩
  · rw [wf.mem_map_enabled]
    rcases hx : s.net.transition? t with _ | x
    · have refused : ¬∃ s', (Run.fire t).run s = .ok () s' := by
        rintro ⟨s', run⟩
        cases (Run.run_fire_unknown hx).symm.trans run
      simp [refused]
    · rw [Run.exists_run_fire_iff wf hx]
      simp
  · obtain ⟨M, fires, rfl⟩ := Run.fires_of_run_fire wf run
    have tokens := wf.tokens_of_fires fires
    obtain ⟨m, hm, fires⟩ := fires
    obtain ⟨x, hx, rfl⟩ := Option.map_eq_some_iff.1 hm
    refine ⟨x, hx, ⟨M, rfl⟩, fun p => ?_⟩
    have balance := congrArg (Nat.cast : ℕ → ℤ) (fires.balance p)
    simp only [Transition.move] at balance
    push_cast at balance
    have same : (s.net.withTokens M).tokens p = M p := congrFun tokens p
    rw [same]
    linarith
  · rcases Run.fire_eq_error run with ⟨unknown, cause, -⟩ | ⟨x, p, hx, missing, cause, -⟩ | rfl
    · exact .inl ⟨unknown, cause⟩
    · obtain ⟨empty, earlier, later, split, marked⟩ := Net.find?_unmarked_eq_some.1 missing
      exact .inr (.inl ⟨x, p, earlier, later, hx, split, marked, empty, cause⟩)
    · exact .inr (.inr ⟨rfl, Run.not_room_of_overflow wf run⟩)
  · exact (Net.accepting_eq_ok_iff.1 listed).2

/-- A full place that is taken from and put into, and a second task behind it that finds no heat yet. The
guard of the first one rejects. -/
def Net.catalysed : Net :=
  .after [.addPlace (.ofId ⟨"fuel"⟩ 1), .addPlace (.ofId ⟨"engine"⟩ Place.capacity),
    .addPlace (.blank ⟨"heat"⟩),
    .addVariable { Variable.declare "load" .int with value := some (.int 3) },
    .addTransition (.bare ⟨"run"⟩ "run" true), .connect ⟨"fuel"⟩ ⟨"run"⟩ ⟨"engine"⟩,
    .connect ⟨"engine"⟩ ⟨"run"⟩ ⟨"heat"⟩, .setGuard ⟨"run"⟩ (.compare "load" .greater (.int 5)),
    .addTransition (.bare ⟨"vent"⟩ "vent" true), .addInputArc ⟨"engine"⟩ ⟨"vent"⟩,
    .addInputArc ⟨"heat"⟩ ⟨"vent"⟩]

theorem catalysed_fire_exact :
    (∃ s, (Run.fire ⟨"run"⟩).run (.start .catalysed) = .ok () s ∧
      s.net.tokens ⟨"engine"⟩ = Place.capacity) ∧
    (∃ s, (Run.fire ⟨"vent"⟩).run (.start .catalysed) =
      .error (.refused (.noToken ⟨"heat"⟩)) s) ∧
    Net.catalysed.fireable = .ok [] := by
  have built : Built (.net (Session.start .catalysed).net) := built_after _
  obtain ⟨succeeds, moves, -, listed⟩ := built.fire_exact ⟨"run"⟩
  obtain ⟨fires, -, refused, -⟩ := built.fire_exact ⟨"vent"⟩
  refine ⟨?_, ?_, ?_⟩
  · have enabled : (⟨"run"⟩ : TransitionId) ∈ Net.catalysed.enabled.map (·.id) := by decide +kernel
    have room : Net.catalysed.Room ⟨"run"⟩ := by decide +kernel
    obtain ⟨s, run⟩ := succeeds.2 ⟨enabled, room⟩
    obtain ⟨x, hx, -, moved⟩ := moves s run
    have arcs : (Net.catalysed.transition? ⟨"run"⟩).all
        (fun x => ⟨"engine"⟩ ∈ x.inputs ∧ ⟨"engine"⟩ ∈ x.outputs) = true := by decide +kernel
    have hx : Net.catalysed.transition? ⟨"run"⟩ = some x := hx
    rw [hx, Option.all_some] at arcs
    obtain ⟨input, output⟩ := of_decide_eq_true arcs
    have full : (Session.start .catalysed).net.tokens ⟨"engine"⟩ = Place.capacity := by
      decide +kernel
    have engine := moved ⟨"engine"⟩
    rw [if_pos input, if_pos output, full] at engine
    exact ⟨s, run, by omega⟩
  · obtain ⟨fault, s, run⟩ : ∃ fault s,
        (Run.fire ⟨"vent"⟩).run (.start .catalysed) = .error fault s := by
      rcases run : (Run.fire ⟨"vent"⟩).run (.start .catalysed) with ⟨⟨⟩, s⟩ | ⟨fault, s⟩
      · have listed : (⟨"vent"⟩ : TransitionId) ∉ Net.catalysed.enabled.map (·.id) := by
          decide +kernel
        exact absurd (fires.1 ⟨s, run⟩).1 listed
      · exact ⟨fault, s, rfl⟩
    rcases refused fault s run with ⟨unknown, -⟩ | ⟨x, p, earlier, later, hx, split, -, empty, rfl⟩ |
      ⟨-, full⟩
    · have known : (Net.catalysed.transition? ⟨"vent"⟩).isSome = true := by decide +kernel
      have unknown : Net.catalysed.transition? ⟨"vent"⟩ = none := unknown
      rw [unknown] at known
      cases known
    · have single : (Net.catalysed.transition? ⟨"vent"⟩).all (fun x => x.inputs.toList.all fun p =>
          0 < Net.catalysed.tokens p ∨ p = ⟨"heat"⟩) = true := by decide +kernel
      have hx : Net.catalysed.transition? ⟨"vent"⟩ = some x := hx
      rw [hx, Option.all_some, List.all_eq_true] at single
      have here := of_decide_eq_true (single p (by simp [split]))
      obtain rfl : p = ⟨"heat"⟩ := here.resolve_left (Nat.not_lt.2 empty.le)
      exact ⟨s, run⟩
    · exact absurd (by decide +kernel) full
  · have answers : Net.catalysed.fireable.toBool = true := by decide +kernel
    obtain ⟨ids, answer⟩ := exists_eq_ok answers
    have none : (Net.catalysed.enabled.filter Net.catalysed.isAccepting).map (·.id) = [] := by
      decide +kernel
    have ids_eq := listed ids answer
    exact answer.trans (congrArg Except.ok (ids_eq.trans none))

end ProcessNet
