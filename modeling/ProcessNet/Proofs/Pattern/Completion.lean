import ProcessNet.Proofs.Net.Marking
import ProcessNet.Proofs.Pattern.WellFormed

/-!
Runs of a pattern. A pattern is started by setting its initial marking, run by forced firings, and
complete when its marking is the final one. Of a well-formed pattern these runs are the runs of its
token game from one token on the source, and completion is one token on the sink.
-/

namespace ProcessNet.Pattern

variable {P : Pattern} {net : Net} {ts : List TransitionId} {M : PlaceId → ℕ}

/-- The net of the pattern after its initial marking has been set. -/
def started (P : Pattern) : Net := endState ((Edit.setMarking P.initialMarking).run P.net)

def Reaches (P : Pattern) (net : Net) : Prop := ∃ ts, P.started.forceAll? ts = some net

def Takes (P : Pattern) : Prop := ∀ t x, P.net.transition? t = some x → x.inputs.toList ≠ []

def Finished (P : Pattern) (net : Net) : Prop := (net.marking == P.finalMarking) = true

/-- Once the sink is marked nothing else is. -/
def Proper (P : Pattern) : Prop :=
  ∀ net, P.Reaches net → 0 < net.tokens P.sink → P.Finished net

/-- All firings succeed, and they end in the final marking. -/
def Completes (P : Pattern) (ts : List TransitionId) : Prop :=
  ∃ net, P.started.forceAll? ts = some net ∧ P.Finished net

instance (P : Pattern) (ts : List TransitionId) : Decidable (P.Completes ts) :=
  decidable_of_iff ((P.started.forceAll? ts).any fun net => net.marking == P.finalMarking) (by
    rw [Option.any_eq_true]
    rfl)

def visibleActivity? (P : Pattern) (t : TransitionId) : Option String :=
  (P.net.transition? t).bind fun x => if x.visible then P.activity? t else none

/-- The names of the visible transitions that are fired in a complete run. -/
def CompletedTrace (P : Pattern) (names : List String) : Prop :=
  ∃ ts, P.Completes ts ∧ ts.filterMap P.visibleActivity? = names

theorem keys_set_zeroMarking {p : PlaceId} (hp : p ∈ P.net.places.keys) :
    (P.zeroMarking.set p 1).counts.keys = P.net.places.keys := by
  have zero : P.zeroMarking.counts.keys = P.net.places.keys := OrderedMap.keys_mapValues _ _
  rw [Marking.set, OrderedMap.keys_insert, zero, if_pos hp]

theorem tokens_set_zeroMarking (P : Pattern) (p : PlaceId) :
    (P.zeroMarking.set p 1).tokens = Pi.single p 1 := by
  funext q
  rw [Marking.tokens, Marking.set, OrderedMap.get?_insert]
  by_cases h : q = p
  · rw [if_pos h, h, Pi.single_eq_same, Option.getD_some]
  · rw [if_neg h, Pi.single_eq_of_ne h, zeroMarking, OrderedMap.get?_mapValues]
    cases P.net.places.get? q <;> rfl

theorem single_support {p : PlaceId} (hp : p ∈ P.net.places.keys) :
    ∀ q ∉ P.net.places.keys, (Pi.single p 1 : PlaceId → ℕ) q = 0 :=
  fun q hq => by
    have : q ≠ p := fun eq => hq (eq ▸ hp)
    exact Pi.single_eq_of_ne this 1

theorem game_takes (takes : P.Takes) : P.net.game.Takes := by
  intro t m h
  obtain ⟨x, hx, rfl⟩ := Option.map_eq_some_iff.1 h
  obtain ⟨p, hp⟩ := List.exists_mem_of_ne_nil _ (takes t x hx)
  exact ⟨p, Transition.take_move_pos.2 hp⟩

namespace WellFormed

variable (wf : P.WellFormed)

include wf

theorem run_setMarking_initialMarking : (Edit.setMarking P.initialMarking).run P.net =
    .ok () (P.net.withTokens (Pi.single P.source 1)) := by
  have keys := keys_set_zeroMarking (wf.ends.source_mem wf.net)
  have run := Net.run_setMarking_of_keys keys
  rwa [tokens_set_zeroMarking] at run

theorem started_eq : P.started = P.net.withTokens (Pi.single P.source 1) := by
  rw [started, wf.run_setMarking_initialMarking, endState]

theorem started_wellFormed : P.started.WellFormed := by
  rw [wf.started_eq]
  exact wf.net.withTokens _

theorem tokens_started : P.started.tokens = Pi.single P.source 1 := by
  rw [wf.started_eq]
  exact Net.tokens_withTokens_of_support (single_support (wf.ends.source_mem wf.net))

theorem forceAll?_started : P.started.forceAll? ts = some net ↔
    ∃ M, P.net.game.Runs (Pi.single P.source 1) ts M ∧ net = P.net.withTokens M := by
  rw [Net.forceAll?_eq_some wf.started_wellFormed, wf.tokens_started, wf.started_eq]
  simp only [Net.game_withTokens, Net.withTokens_withTokens]

theorem support (run : P.net.game.Runs (Pi.single P.source 1) ts M) :
    ∀ p ∉ P.net.places.keys, M p = 0 :=
  wf.net.support_runs run (single_support (wf.ends.source_mem wf.net))

theorem finished_iff (support : ∀ p ∉ P.net.places.keys, M p = 0) :
    P.Finished (P.net.withTokens M) ↔ M = Pi.single P.sink 1 := by
  have keys : (P.net.withTokens M).marking.counts.keys = P.finalMarking.counts.keys := by
    rw [Net.keys_marking (wf.net.withTokens M), Net.keys_places_withTokens, finalMarking,
      keys_set_zeroMarking (wf.ends.sink_mem wf.net)]
  rw [Finished, Marking.beq_iff keys, Net.tokens_marking (wf.net.withTokens M),
    Net.tokens_withTokens_of_support support, finalMarking, tokens_set_zeroMarking]

theorem completes_iff :
    P.Completes ts ↔ P.net.game.Runs (Pi.single P.source 1) ts (Pi.single P.sink 1) := by
  constructor
  · rintro ⟨net, forced, finished⟩
    obtain ⟨M, run, rfl⟩ := wf.forceAll?_started.1 forced
    rwa [(wf.finished_iff (wf.support run)).1 finished] at run
  · intro run
    exact ⟨_, wf.forceAll?_started.2 ⟨_, run, rfl⟩, (wf.finished_iff (wf.support run)).2 rfl⟩

theorem reaches_iff {net : Net} : P.Reaches net ↔
    ∃ M, P.net.game.Reaches (Pi.single P.source 1) M ∧ net = P.net.withTokens M := by
  constructor
  · rintro ⟨ts, forced⟩
    obtain ⟨M, run, rfl⟩ := wf.forceAll?_started.1 forced
    exact ⟨M, ⟨ts, run⟩, rfl⟩
  · rintro ⟨M, ⟨ts, run⟩, rfl⟩
    exact ⟨ts, wf.forceAll?_started.2 ⟨M, run, rfl⟩⟩

theorem tokens_reached {M : PlaceId → ℕ} (h : P.net.game.Reaches (Pi.single P.source 1) M) :
    (P.net.withTokens M).tokens = M := by
  obtain ⟨ts, run⟩ := h
  exact Net.tokens_withTokens_of_support (wf.support run)

theorem game_proper (proper : P.Proper) : P.net.game.Proper P.source P.sink := by
  intro M reach marked
  have finished := proper _ (wf.reaches_iff.2 ⟨M, reach, rfl⟩) (by rwa [wf.tokens_reached reach])
  obtain ⟨ts, run⟩ := reach
  exact (wf.finished_iff (wf.support run)).1 finished

theorem completedTrace_iff {names : List String} : P.CompletedTrace names ↔
    P.net.game.Spells P.source P.sink P.visibleActivity? names := by
  simp only [CompletedTrace, wf.completes_iff, Game.Spells]

end WellFormed

end ProcessNet.Pattern
