import ProcessNet.Proofs.Pattern.Built

/-!
A refusal leaves everything as it was. An edit is refused by its checks, and they come before its
change; a firing is refused before its first token moves, since from then on only a full place can
stop it. In a step the refusal comes from a guard, while the votes are still being cast: what is
committed afterwards has its tokens, because no two of the committed transitions take from one
place.
-/

namespace ProcessNet

/-- The state that an error shows is the one given. -/
def Unspoiled {ε σ α : Type} (s : σ) : EStateM.Result ε σ α → Prop
  | .ok _ _ => True
  | .error _ s' => s' = s

/-- What is refused has changed nothing. -/
def Atomic {ε σ α : Type} (x : EStateM ε σ α) : Prop := ∀ s, Unspoiled s (x.run s)

namespace Atomic

variable {ε σ α : Type} {x : EStateM ε σ α}

theorem eq_of_error (hx : Atomic x) {s s' : σ} {e : ε} (h : x.run s = .error e s') : s' = s := by
  have unspoiled := hx s
  rwa [h] at unspoiled

theorem discard (hx : Atomic x) : Atomic (discard x) := by
  intro s
  have unspoiled := hx s
  rw [run_discard]
  rcases h : x.run s with ⟨a, s₁⟩ | ⟨e, s₁⟩
  · trivial
  · rwa [h] at unspoiled

end Atomic

namespace Edit

theorem addPlace_atomic (p : Place) : Atomic (addPlace p) := by
  intro net
  rw [run_addPlace]
  split
  · rfl
  · trivial

theorem addTransition_atomic (t : Transition) : Atomic (addTransition t) := by
  intro net
  rw [run_addTransition]
  split
  · rfl
  rcases t.inputs.toList.find? _ with _ | p
  · rcases t.outputs.toList.find? _ with _ | q
    · rcases t.guard.reads.find? _ with _ | name
      · trivial
      · rfl
    · rfl
  · rfl

theorem addVariable_atomic (x : Variable) : Atomic (addVariable x) := by
  intro net
  rw [run_addVariable]
  split
  · rfl
  · rcases x.value.bind x.unsuitable? with _ | reason
    · trivial
    · rfl

theorem updateTransition_atomic (t : TransitionId) (f : Transition → Transition) :
    Atomic (updateTransition t f) := by
  intro net
  rw [run_updateTransition]
  split
  · trivial
  · rfl

theorem connect_atomic (input : PlaceId) (t : TransitionId) (output : PlaceId) :
    Atomic (connect input t output) := by
  intro net
  rw [run_connect]
  split
  · split
    · exact updateTransition_atomic t _ net
    · rfl
  · rfl

theorem addInputArc_atomic (p : PlaceId) (t : TransitionId) : Atomic (addInputArc p t) := by
  intro net
  rw [run_addInputArc]
  split
  · exact updateTransition_atomic t _ net
  · rfl

theorem addOutputArc_atomic (t : TransitionId) (p : PlaceId) : Atomic (addOutputArc t p) := by
  intro net
  rw [run_addOutputArc]
  split
  · exact updateTransition_atomic t _ net
  · rfl

theorem setGuard_atomic (t : TransitionId) (g : Guard) : Atomic (setGuard t g) := by
  intro net
  rw [run_setGuard]
  rcases g.reads.find? _ with _ | name
  · exact updateTransition_atomic t _ net
  · rfl

theorem setVariable_atomic (name : String) (v : Value) : Atomic (setVariable name v) := by
  intro net
  rw [run_setVariable]
  rcases net.namedVariable? name with _ | x
  · rfl
  · dsimp only
    rcases x.unsuitable? v with _ | reason
    · trivial
    · rfl

theorem setMarking_atomic (m : Marking) : Atomic (setMarking m) := by
  intro net
  rw [run_setMarking]
  rcases m.entries.find? _ with _ | entry
  · trivial
  · rfl

end Edit

theorem Change.edit_atomic (c : Change) : Atomic c.edit := by
  cases c with
  | addPlace p => exact (Edit.addPlace_atomic p).discard
  | addTransition t => exact (Edit.addTransition_atomic t).discard
  | addVariable x => exact (Edit.addVariable_atomic x).discard
  | connect input t output => exact Edit.connect_atomic input t output
  | addInputArc p t => exact Edit.addInputArc_atomic p t
  | addOutputArc t p => exact Edit.addOutputArc_atomic t p
  | setGuard t g => exact Edit.setGuard_atomic t g
  | setVariable name v => exact Edit.setVariable_atomic name v
  | setMarking m => exact Edit.setMarking_atomic m

theorem Net.find?_unmarked_eq_some {net : Net} {ps : List PlaceId} {p : PlaceId} :
    ps.find? (fun p => !net.isMarked p) = some p ↔ net.tokens p = 0 ∧
      ∃ earlier later, ps = earlier ++ p :: later ∧ ∀ q ∈ earlier, 0 < net.tokens q := by
  have unmarked : (!net.isMarked p) = true ↔ net.tokens p = 0 := by
    rw [Bool.not_eq_true', ← Bool.not_eq_true, isMarked_iff, Nat.pos_iff_ne_zero, not_not]
  simp only [List.find?_eq_some_iff_append, unmarked, Bool.not_not, isMarked_iff]

theorem Net.find?_unmarked_eq_none {net : Net} {x : Transition} :
    x.inputs.toList.find? (fun p => !net.isMarked p) = none ↔ net.isEnabled x = true := by
  simp [isEnabled]

namespace Run

open Net (GuardFault)

variable {s s' : Session} {t : TransitionId} {x : Transition} {fault : Fault}

theorem run_fire_unknown (hx : s.net.transition? t = none) :
    (fire t).run s = .error (.refused (.unknownTransition t)) s := by
  rw [fire, run_net_bind, hx]
  rfl

theorem run_fire_unmarked {p : PlaceId} (hx : s.net.transition? t = some x)
    (missing : x.inputs.toList.find? (fun p => !s.net.isMarked p) = some p) :
    (fire t).run s = .error (.refused (.noToken p)) s := by
  rw [fire, run_net_bind, hx]
  dsimp only
  rw [missing]
  rfl

theorem fault_of_putToken {p : PlaceId} (h : (putToken p).run s = .error fault s') :
    fault = .overflow := by
  rw [putToken, run_updatePlace] at h
  split at h
  · cases h
  · next x _ =>
    rw [Place.increment, Place.add] at h
    by_cases full : Place.capacity < x.tokens + 1
    · rw [if_pos full] at h
      cases h
      rfl
    · rw [if_neg full] at h
      cases h

theorem fault_of_forM_putToken {ps : List PlaceId}
    (h : (ps.forM putToken).run s = .error fault s') : fault = .overflow := by
  induction ps generalizing s with
  | nil => cases h
  | cons p rest ih =>
    rw [List.forM_eq_forM] at ih h
    rw [List.forM_cons] at h
    rcases bind_eq_error.1 h with now | ⟨_, s₁, -, later⟩
    · exact fault_of_putToken now
    · exact ih later

theorem fire_eq_error (h : (fire t).run s = .error fault s') :
    (s.net.transition? t = none ∧ fault = .refused (.unknownTransition t) ∧ s' = s) ∨
    (∃ x p, s.net.transition? t = some x ∧
      x.inputs.toList.find? (fun p => !s.net.isMarked p) = some p ∧
      fault = .refused (.noToken p) ∧ s' = s) ∨
    fault = .overflow := by
  rcases hx : s.net.transition? t with _ | x
  · cases (run_fire_unknown hx).symm.trans h
    exact .inl ⟨rfl, rfl, rfl⟩
  rcases hmissing : x.inputs.toList.find? (fun p => !s.net.isMarked p) with _ | p
  swap
  · cases (run_fire_unmarked hx hmissing).symm.trans h
    exact .inr (.inl ⟨x, p, rfl, hmissing, rfl, rfl⟩)
  rw [fire, run_net_bind, hx] at h
  dsimp only at h
  rw [hmissing] at h
  have marked := Net.isEnabled_iff.1 (Net.find?_unmarked_eq_none.1 hmissing)
  refine .inr (.inr ?_)
  rcases bind_eq_error.1 h with taking | ⟨_, s₁, -, h⟩
  · cases (run_forM_takeToken x.inputs.nodup marked).symm.trans taking
  rcases bind_eq_error.1 h with putting | ⟨_, s₂, -, recording⟩
  · exact fault_of_forM_putToken putting
  · cases recording

theorem fire_refused {e : NetError} (h : (fire t).run s = .error (.refused e) s') : s' = s := by
  rcases fire_eq_error h with ⟨-, -, same⟩ | ⟨_, _, -, -, -, same⟩ | overflow
  · exact same
  · exact same
  · cases overflow

theorem fault_of_forM_fire {ts : List TransitionId} (wf : s.net.WellFormed)
    (known : ∀ t ∈ ts, ∃ x, s.net.transition? t = some x)
    (enough : ∀ p, ts.countP (s.net.takes p) ≤ s.net.tokens p)
    (h : (ts.forM fire).run s = .error fault s') : fault = .overflow := by
  induction ts generalizing s with
  | nil => cases h
  | cons t rest ih =>
    obtain ⟨x, hx⟩ := known t List.mem_cons_self
    have takes : ∀ p, s.net.takes p t = decide (p ∈ x.inputs) := fun p => by
      rw [Net.takes, hx, Option.any_some]
    simp only [List.countP_cons, takes, decide_eq_true_eq] at enough
    rw [List.forM_eq_forM] at ih h
    rw [List.forM_cons] at h
    rcases bind_eq_error.1 h with now | ⟨_, s₁, fired, later⟩
    · rcases fire_eq_error now with ⟨unknown, -⟩ | ⟨y, p, hy, missing, -⟩ | overflow
      · cases hx.symm.trans unknown
      · obtain rfl := Option.some.inj (hx.symm.trans hy)
        have empty := (Net.find?_unmarked_eq_some.1 missing).1
        have input : p ∈ x.inputs := List.mem_of_find?_eq_some missing
        have := enough p
        rw [if_pos input] at this
        omega
      · exact overflow
    · obtain ⟨M, fires, rfl⟩ := fires_of_run_fire wf fired
      have tokens := wf.tokens_of_fires fires
      -- induction carries that each place holds a token for every later firing that takes from it
      refine ih (s := { s with net := s.net.withTokens M, journal := _ }) (wf.withTokens M)
        (fun u hu => known u (List.mem_cons_of_mem t hu)) (fun p => ?_) later
      obtain ⟨m, hm, fires⟩ := fires
      obtain rfl := Option.some.inj (hm.symm.trans (Net.game_eq_some hx))
      have balance := fires.balance p
      have := enough p
      simp only [Transition.move] at balance
      rw [tokens]
      show rest.countP (s.net.takes p) ≤ M p
      omega

theorem step_refused {words : Words} {e : NetError} (wf : s.net.WellFormed)
    (h : (step words).run s = .error (.refused e) s') :
    (∃ drawn, s' = { s with drawn := drawn }) ∧ s.net.GuardFault (.refused e) := by
  rcases run_collectVotes words wf with ⟨_, drawn, stopped, fails⟩ |
    ⟨votes, drawn, ballots, collected, tally⟩
  · rcases step_eq_error.1 h with now | ⟨_, _, collected, -⟩
    · cases stopped.symm.trans now
      exact ⟨⟨drawn, rfl⟩, fails⟩
    · cases stopped.symm.trans collected
  · rcases step_eq_error.1 h with now | ⟨_, _, collected', firing⟩
    · cases collected.symm.trans now
    · cases collected.symm.trans collected'
      have committed := tally.commits
      have known : ∀ t ∈ (votes.filter (commits s.net)).keys, ∃ x, s.net.transition? t = some x :=
        fun t ht => by
          obtain ⟨x, hx, -⟩ := committed.ready t ht
          exact ⟨x, hx⟩
      cases fault_of_forM_fire (s := { s with drawn := drawn }) wf known
        committed.countP_takes_le firing

end Run

/-- Whatever refuses, be it an edit, a forced firing or a step with any random words, leaves the net
as it was, and nothing is recorded. -/
theorem Built.refused_untouched {s : Session} (built : Built (.net s.net)) :
    (∀ (c : Change) e net, c.edit.run s.net = .error e net → net = s.net) ∧
    (∀ t e s', (Run.fire t).run s = .error (.refused e) s' →
      s'.net = s.net ∧ s'.journal = s.journal) ∧
    ∀ words e s', (Run.step words).run s = .error (.refused e) s' →
      s'.net = s.net ∧ s'.journal = s.journal := by
  refine ⟨fun c e net h => c.edit_atomic.eq_of_error h, fun t e s' h => ?_, fun words e s' h => ?_⟩
  · rw [Run.fire_refused h]
    exact ⟨rfl, rfl⟩
  · obtain ⟨⟨drawn, rfl⟩, -⟩ := Run.step_refused built.wellFormed h
    exact ⟨rfl, rfl⟩

/-- A marked task whose guard reads a variable that has no value, and a way back from its empty
output. -/
def Net.stalled : Net :=
  .after [.addPlace (.ofId ⟨"start"⟩ 1), .addPlace (.blank ⟨"end"⟩),
    .addVariable (.declare "load" .int),
    .addTransition (.bare ⟨"work"⟩ "work" true), .connect ⟨"start"⟩ ⟨"work"⟩ ⟨"end"⟩,
    .setGuard ⟨"work"⟩ (.compare "load" .smaller (.int 4)),
    .addTransition (.silent ⟨"back"⟩), .connect ⟨"end"⟩ ⟨"back"⟩ ⟨"start"⟩]

theorem stalled_refused_untouched :
    (∃ e, (Change.addOutputArc ⟨"work"⟩ ⟨"store"⟩).edit.run .stalled = .error e .stalled) ∧
    (∃ e s, (Run.fire ⟨"back"⟩).run (.start .stalled) = .error (.refused e) s ∧ s.net = .stalled) ∧
    ∃ e s, (Run.step fun _ => 0).run (.start .stalled) = .error (.refused e) s ∧
      s.net = .stalled := by
  have built : Built (.net (Session.start .stalled).net) := built_after _
  obtain ⟨edits, firings, steps⟩ := built.refused_untouched
  obtain ⟨e₁, net, edited⟩ : ∃ e net,
      (Change.addOutputArc ⟨"work"⟩ ⟨"store"⟩).edit.run .stalled = .error e net := ⟨_, _, rfl⟩
  obtain ⟨e₂, s₂, fired⟩ : ∃ e s,
      (Run.fire ⟨"back"⟩).run (.start .stalled) = .error (.refused e) s := ⟨_, _, rfl⟩
  obtain ⟨e₃, s₃, stepped⟩ : ∃ e s,
      (Run.step fun _ => 0).run (.start .stalled) = .error (.refused e) s := ⟨_, _, rfl⟩
  obtain rfl := edits _ e₁ net edited
  exact ⟨⟨e₁, edited⟩, ⟨e₂, s₂, fired, (firings _ e₂ s₂ fired).1⟩,
    e₃, s₃, stepped, (steps _ e₃ s₃ stepped).1⟩

end ProcessNet
