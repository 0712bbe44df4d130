import ProcessNet.Proofs.Data.Leaves
import ProcessNet.Proofs.Execution.Replay

/-!
When guards answer. Guards read variables that the net has, so all that can fail is a variable without
a value, and it is the first leaf to read one that tells. Where every variable that is read has a value
all guards answer; marking and firing change nothing about that. Then neither listing what is fireable
nor a step nor a run is refused, and while there is room for the tokens each gives its answer.
-/

namespace ProcessNet

namespace Net

/-- Every guard gives an answer, which may be that it rejects. -/
def Answering (net : Net) : Prop :=
  ∀ t x, net.transition? t = some x → ∃ accepted, x.accepts net.vars = .ok accepted

/-- Every variable that a guard reads has a value. -/
def Supplied (net : Net) : Prop :=
  ∀ t x, net.transition? t = some x → ∀ name ∈ x.guard.reads,
    ∃ z v, net.namedVariable? name = some z ∧ z.value = some v

instance (net : Net) : Decidable net.Supplied :=
  decidable_of_iff (∀ x ∈ net.transitions.values, ∀ name ∈ x.guard.reads,
      (net.namedVariable? name).any (·.value.isSome) = true) (by
    simp only [OrderedMap.mem_values, Option.any_eq_true, Option.isSome_iff_exists]
    constructor
    · intro h t x hx name reads
      obtain ⟨z, hz, v, set⟩ := h x ⟨t, hx⟩ name reads
      exact ⟨z, v, hz, set⟩
    · rintro h x ⟨t, hx⟩ name reads
      obtain ⟨z, v, hz, set⟩ := h t x hx name reads
      exact ⟨z, hz, v, set⟩)

variable {net net' : Net} {t : TransitionId} {x : Transition} {e : NetError}

theorem WellFormed.accepts_eq_error_iff (wf : net.WellFormed) (hx : net.transition? t = some x) :
    x.accepts net.vars = .error e ↔ ∃ before leaf after name z,
      x.guard.leaves = before ++ leaf :: after ∧
      (∀ earlier ∈ before, earlier.accepts net.vars = .ok true) ∧ name ∈ leaf.reads ∧
      net.namedVariable? name = some z ∧ z.value = none ∧ e = .unsetVariable name := by
  unfold Transition.accepts
  rw [Guard.accepts_eq_error_iff]
  constructor
  · rintro ⟨before, leaf, after, leaves, accepted, name, reads, fails⟩
    rcases Variables.read_eq_error.1 fails with ⟨unknown, -⟩ | ⟨z, hz, unset, rfl⟩
    · have read : name ∈ x.guard.reads := by
        rw [Guard.reads_eq_flatMap_leaves, leaves]
        simp [reads]
      have declared := (wf.admits hx).reads name read
      exact absurd declared (OrderedMap.get?_eq_none.1 unknown)
    · exact ⟨before, leaf, after, name, z, leaves, accepted, reads, hz, unset, rfl⟩
  · rintro ⟨before, leaf, after, name, z, leaves, accepted, reads, hz, unset, rfl⟩
    have fails : net.vars.read name = .error (.unsetVariable name) :=
      Variables.read_eq_error.2 (.inr ⟨z, hz, unset, rfl⟩)
    exact ⟨before, leaf, after, leaves, accepted, name, reads, fails⟩

theorem Supplied.answering (h : net.Supplied) (wf : net.WellFormed) : net.Answering := by
  intro t x hx
  cases answer : x.accepts net.vars with
  | ok accepted => exact ⟨accepted, rfl⟩
  | error e =>
    obtain ⟨before, leaf, after, name, z, leaves, -, reads, hz, unset, -⟩ :=
      (wf.accepts_eq_error_iff hx).1 answer
    have read : name ∈ x.guard.reads := by
      rw [Guard.reads_eq_flatMap_leaves, leaves]
      simp [reads]
    obtain ⟨y, v, hy, set⟩ := h t x hx name read
    obtain rfl := Option.some.inj (hz.symm.trans hy)
    cases unset.symm.trans set

theorem accepting_of_answers {xs : List Transition}
    (h : ∀ x ∈ xs, ∃ accepted, x.accepts net.vars = .ok accepted) :
    ∃ ts, net.accepting xs = .ok ts :=
  ⟨_, accepting_eq_ok_iff.2 ⟨h, rfl⟩⟩

namespace Answering

theorem retokens (h : net.Answering) (same : net.Retokens net') : net'.Answering := by
  obtain ⟨M, rfl⟩ := same
  exact h

theorem fireable_eq_ok (h : net.Answering) : ∃ ready, net.fireable = .ok ready := by
  apply accepting_of_answers
  intro x hx
  obtain ⟨t, ht⟩ := OrderedMap.mem_values.1 (List.mem_filter.1 hx).1
  exact h t x ht

end Answering

end Net

namespace Run

variable {words : Words} {s last : Session} {rounds : List (List TransitionId)}

theorem Rounds.retokens (run : Rounds words s rounds last) : s.net.Retokens last.net := by
  induction run with
  | nil s => exact Std.Refl.refl s.net
  | cons stepped _ _ ih => exact IsTrans.trans _ _ _ ((step_retokens words).ok stepped) ih

end Run

namespace Net.Answering

variable {s s' : Session} {words : Words} {fault : Fault} {bound : ℕ}
  (h : s.net.Answering) (wf : s.net.WellFormed)

include h wf

theorem overflow_of_step (stopped : (Run.step words).run s = .error fault s') :
    fault = .overflow := by
  cases fault with
  | overflow => rfl
  | refused e =>
    obtain ⟨-, t, x, e', hx, fails, -⟩ := Run.step_refused wf stopped
    obtain ⟨accepted, answers⟩ := h t x hx
    cases fails.symm.trans answers

theorem overflow_of_simulate (stopped : (Run.simulate bound words).run s = .error fault s') :
    fault = .overflow := by
  obtain ⟨rounds, last, run, -, stopped⟩ :=
    Run.stepsUntilStill_eq_error (Run.simulate_eq_error.1 stopped)
  exact (h.retokens run.retokens).overflow_of_step (run.wellFormed wf) stopped

theorem step_answers (words : Words)
    (room : ∀ p, s.net.tokens p + s.net.transitions.size ≤ Place.capacity) :
    ∃ fired s', (Run.step words).run s = .ok fired s' ∧ s.net.Commits fired ∧
      s'.net = s.net.withTokens fun p =>
        s.net.tokens p - fired.countP (s.net.takes p) + fired.countP (s.net.puts p) := by
  rcases Run.run_step words wf room with ⟨e, s₁, stopped, -⟩ | answered
  · cases h.overflow_of_step wf stopped
  · exact answered

theorem stepsUntilStill_answers (words : Words)
    (room : ∀ p, s.net.tokens p + bound * s.net.transitions.size ≤ Place.capacity)
    (steps : ℕ) (earlier : List (List TransitionId)) :
    ∃ answer s', (Run.stepsUntilStill words bound steps earlier).run s = .ok answer s' := by
  induction bound generalizing s steps earlier with
  | zero => exact ⟨_, s, rfl⟩
  | succ bound ih =>
    have now : ∀ p, s.net.tokens p + s.net.transitions.size ≤ Place.capacity := fun p => by
      have := room p
      rw [Nat.succ_mul] at this
      omega
    obtain ⟨fired, s₁, stepped, commits, next⟩ := h.step_answers wf words now
    have same : s.net.Retokens s₁.net := ⟨_, next⟩
    -- a place gets at most one token from each transition, which leaves room for the other steps
    have later : ∀ p, s₁.net.tokens p + bound * s₁.net.transitions.size ≤ Place.capacity := by
      intro p
      have := room p
      have few := commits.length_le
      have puts := List.countP_le_length (p := s.net.puts p) (l := fired)
      have tokens : s₁.net.tokens p ≤ s.net.tokens p + fired.countP (s.net.puts p) := by
        rw [next, Net.tokens_withTokens]
        split <;> omega
      rw [Nat.succ_mul] at this
      rw [next, Net.transitions_withTokens]
      rw [next] at tokens
      omega
    rw [Run.stepsUntilStill, EStateM.run_bind, stepped]
    dsimp only
    split
    · exact ⟨_, s₁, rfl⟩
    · exact ih (h.retokens same) (same.keepsForm wf) later _ _

theorem simulate_answers (words : Words)
    (room : ∀ p, s.net.tokens p + bound * s.net.transitions.size ≤ Place.capacity) :
    ∃ trace s', (Run.simulate bound words).run s = .ok trace s' := by
  obtain ⟨⟨steps, fired⟩, s₁, ran⟩ := h.stepsUntilStill_answers wf words room 0 []
  exact ⟨⟨steps, fired, s₁.net.marking⟩, _, Run.simulate_eq_ok.2 ⟨s₁, ran, rfl, rfl⟩⟩

end Net.Answering

/-- However its conjunctions are nested, a guard answers as its leaves do from the left up to the first
that does not accept. In a net that is built no guard meets an undeclared variable: it fails exactly when
a leaf reads a variable without a value and all leaves before it accept, and then for this variable. When
every variable that is read has a value, neither the list of what is fireable nor a step nor a run is
refused; a full place is all that can stop the last two, and with room for the tokens nothing does. -/
theorem guards_fail_only_unset :
    (∀ (g : Guard) (vars : Variables), (∀ leaf ∈ g.leaves, ∀ guards, leaf ≠ .allOf guards) ∧
      g.accepts vars = Guard.firstObjection (g.leaves.map (·.accepts vars))) ∧
    ∀ s : Session, Built (.net s.net) →
      (∀ t x, s.net.transition? t = some x →
        (∀ kind name, x.accepts s.net.vars ≠ .error (.unknownReference kind name)) ∧
        ∀ e, x.accepts s.net.vars = .error e ↔ ∃ before leaf after name z,
          x.guard.leaves = before ++ leaf :: after ∧
          (∀ earlier ∈ before, earlier.accepts s.net.vars = .ok true) ∧ name ∈ leaf.reads ∧
          s.net.namedVariable? name = some z ∧ z.value = none ∧ e = .unsetVariable name) ∧
      (s.net.Supplied → (∃ ready, s.net.fireable = .ok ready) ∧ ∀ words bound,
        (∀ fault s', (Run.step words).run s = .error fault s' ∨
          (Run.simulate bound words).run s = .error fault s' → fault = .overflow) ∧
        ((∀ p, s.net.tokens p + s.net.transitions.size ≤ Place.capacity) →
          ∃ fired s', (Run.step words).run s = .ok fired s') ∧
        ((∀ p, s.net.tokens p + bound * s.net.transitions.size ≤ Place.capacity) →
          ∃ trace s', (Run.simulate bound words).run s = .ok trace s')) := by
  refine ⟨fun g vars => ⟨g.leaves_ne_allOf, g.accepts_eq_firstObjection⟩, fun s built => ?_⟩
  have wf : s.net.WellFormed := built.wellFormed
  refine ⟨fun t x hx => ⟨fun kind name fails => ?_, fun e => wf.accepts_eq_error_iff hx⟩,
    fun supplied => ?_⟩
  · obtain ⟨_, _, _, _, _, -, -, -, -, -, cause⟩ := (wf.accepts_eq_error_iff hx).1 fails
    cases cause
  · have answering := supplied.answering wf
    refine ⟨answering.fireable_eq_ok, fun words bound => ⟨?_, fun room => ?_, fun room => ?_⟩⟩
    · rintro fault s' (stopped | stopped)
      · exact answering.overflow_of_step wf stopped
      · exact answering.overflow_of_simulate wf stopped
    · obtain ⟨fired, s', stepped, -⟩ := answering.step_answers wf words room
      exact ⟨fired, s', stepped⟩
    · exact answering.simulate_answers wf words room

/-- A task with a guard on two limits, the second of them in an inner conjunction. Only the first
variable has a value before the further changes. -/
def Net.limited (further : List Change) : Net :=
  .after ([.addPlace (.ofId ⟨"start"⟩ 1), .addPlace (.blank ⟨"end"⟩),
    .addVariable (.declare "load" .int), .addVariable (.declare "cost" .int),
    .addTransition (.bare ⟨"work"⟩ "work" true), .connect ⟨"start"⟩ ⟨"work"⟩ ⟨"end"⟩,
    .setGuard ⟨"work"⟩ (.allOf [.compare "load" .smaller (.int 4),
      .allOf [.always, .compare "cost" .smaller (.int 9)]]),
    .setVariable "load" (.int 3)] ++ further)

theorem limited_fails_only_unset :
    (∃ x, (Net.limited []).transition? ⟨"work"⟩ = some x ∧
      x.accepts (Net.limited []).vars = .error (.unsetVariable "cost")) ∧
    ∃ trace s, (Run.simulate 5 fun _ => 0).run
      (.start (Net.limited [.setVariable "cost" (.int 8)])) = .ok trace s := by
  obtain ⟨-, nets⟩ := guards_fail_only_unset
  constructor
  · obtain ⟨failures, -⟩ := nets (.start (.limited [])) (built_after _)
    obtain ⟨x, hx, leaves⟩ : ∃ x, (Net.limited []).transition? ⟨"work"⟩ = some x ∧
        x.guard.leaves = [.compare "load" .smaller (.int 4), .always] ++
          .compare "cost" .smaller (.int 9) :: [] := ⟨_, rfl, rfl⟩
    have reads : "cost" ∈ (Guard.compare "cost" .smaller (.int 9)).reads := List.mem_singleton_self _
    refine ⟨x, hx, ((failures _ x hx).2 _).2 ⟨_, _, _, _, .declare "cost" .int, leaves, ?_, reads,
      rfl, rfl, rfl⟩⟩
    intro earlier mem
    simp only [List.mem_cons, List.not_mem_nil, or_false] at mem
    rcases mem with rfl | rfl <;> rfl
  · obtain ⟨net, limited⟩ : ∃ net, net = Net.limited [.setVariable "cost" (.int 8)] := ⟨_, rfl⟩
    have supplied : net.Supplied := limited ▸ by decide +kernel
    have size : net.transitions.size = 1 := limited ▸ by decide +kernel
    have few : ∀ x ∈ net.places.values, x.tokens ≤ 1 := limited ▸ by decide +kernel
    obtain ⟨-, runs⟩ := nets (.start net) (limited ▸ built_after _)
    rw [← limited]
    refine ((runs supplied).2 (fun _ => 0) 5).2.2 fun p => ?_
    have tokens : net.tokens p ≤ 1 := Net.tokens_le_of_places few p
    show net.tokens p + 5 * net.transitions.size ≤ Place.capacity
    rw [size, Place.capacity_value]
    omega

end ProcessNet
