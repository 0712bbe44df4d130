import ProcessNet.Proofs.Net.Marking
import ProcessNet.Proofs.Pattern.Built
import ProcessNet.Proofs.TokenGame.Apart

/-!
The marking equation. Each firing moves the same tokens wherever it stands in a run, so the marking
at the end is read off the number of firings, and the order in which they came leaves no trace.
Tokens that are put aside do not take part: with them the run is the same run. Nothing but the
marking has changed, so the marking from before the run brings back the net from before the run.
-/

namespace ProcessNet

namespace Game

variable {P T : Type} {G : Game P T} {ok ok' : (P → ℕ) → Prop} {M N O : P → ℕ} {t : T}
  {ts us : List T}

theorem taken_cons {m : Move P} (h : G t = some m) (ts : List T) (p : P) :
    G.taken (t :: ts) p = m.take p + G.taken ts p := by
  rw [taken, List.map_cons, List.sum_cons, h, Option.elim_some, taken]

theorem given_cons {m : Move P} (h : G t = some m) (ts : List T) (p : P) :
    G.given (t :: ts) p = m.put p + G.given ts p := by
  rw [given, List.map_cons, List.sum_cons, h, Option.elim_some, given]

theorem RunsWhile.balance (run : G.RunsWhile ok M ts N) (p : P) :
    N p + G.taken ts p = M p + G.given ts p := by
  induction run with
  | nil => rfl
  | cons _ fires _ ih =>
    obtain ⟨m, hm, fires⟩ := fires
    have first := fires.balance p
    rw [taken_cons hm, given_cons hm]
    omega

theorem RunsWhile.eq_of_perm (run : G.RunsWhile ok M ts N) (run' : G.RunsWhile ok' M us O)
    (perm : us.Perm ts) : O = N := by
  funext p
  have balance := run.balance p
  have balance' := run'.balance p
  rw [taken_perm perm, given_perm perm] at balance'
  omega

theorem RunsWhile.more {L : P → Prop} {D : P → ℕ}
    (lands : ∀ t m p, G t = some m → 0 < m.put p → L p)
    (run : G.RunsWhile (fun O => ∀ p, L p → O p + D p ≤ Place.capacity) M ts N) :
    G.Runs (fun p => M p + D p) ts fun p => N p + D p := by
  induction run with
  | nil => exact .nil trivial
  | cons _ fires rest ih =>
    obtain ⟨m, hm, fires⟩ := fires
    have room := rest.start
    exact .cons trivial ⟨m, hm, fires.more D fun p hp => room p (lands _ m p hm hp)⟩ ih

end Game

namespace Net

variable {net net' : Net} {ts : List TransitionId} {D : PlaceId → ℕ}

theorem runs_of_forceAll? (wf : net.WellFormed) (h : net.forceAll? ts = some net') :
    net.game.Runs net.tokens ts net'.tokens ∧ net' = net.withTokens net'.tokens := by
  obtain ⟨M, run, rfl⟩ := (forceAll?_eq_some wf).1 h
  have support : ∀ p ∉ net.places.keys, M p = 0 := wf.support_runs run fun p => tokens_of_not_mem
  rw [tokens_withTokens_of_support support]
  exact ⟨run, rfl⟩

theorem WellFormed.lands (wf : net.WellFormed) (t : TransitionId) (m : Move PlaceId) (p : PlaceId)
    (h : net.game t = some m) (puts : 0 < m.put p) : p ∈ net.places.keys := by
  obtain ⟨x, hx, rfl⟩ := Option.map_eq_some_iff.1 h
  exact (wf.admits hx).outputs p (Transition.put_move_pos.1 puts)

theorem tokens_withTokens_add (D : PlaceId → ℕ) (p : PlaceId) :
    (net.withTokens fun p => net.tokens p + D p).tokens p =
      net.tokens p + (net.withTokens D).tokens p := by
  rw [tokens_withTokens, tokens_withTokens]
  by_cases hp : p ∈ net.places.keys
  · rw [if_pos hp, if_pos hp]
  · rw [if_neg hp, if_neg hp, tokens_of_not_mem hp]

theorem forceAll?_more (wf : net.WellFormed) (h : net.forceAll? ts = some net')
    (room : ∀ us mid, us <+: ts → net.forceAll? us = some mid →
      ∀ p ∈ net.places.keys, mid.tokens p + D p ≤ Place.capacity) :
    (net.withTokens fun p => net.tokens p + D p).forceAll? ts =
      some (net'.withTokens fun p => net'.tokens p + D p) := by
  obtain ⟨run, same⟩ := runs_of_forceAll? wf h
  have there : ∀ p ∈ net.places.keys, (net.withTokens D).tokens p = D p := fun p hp => by
    rw [tokens_withTokens, if_pos hp]
  have along : net.game.RunsWhile (fun O => ∀ p, p ∈ net.places.keys →
      O p + (net.withTokens D).tokens p ≤ Place.capacity) net.tokens ts net'.tokens := by
    refine run.along fun us O before part p hp => ?_
    have reached : net.forceAll? us = some (net.withTokens O) :=
      (forceAll?_eq_some wf).2 ⟨O, part, rfl⟩
    have := room us _ before reached p hp
    rwa [tokens_withTokens, if_pos hp, ← there p hp] at this
  refine (forceAll?_eq_some (wf.withTokens _)).2
    ⟨fun p => net'.tokens p + (net.withTokens D).tokens p, ?_, ?_⟩
  · rw [funext (tokens_withTokens_add D), game_withTokens]
    exact along.more wf.lands
  · have last : (net'.withTokens fun p => net'.tokens p + D p) =
        net.withTokens fun p => net'.tokens p + D p := by
      nth_rewrite 1 [same]
      exact withTokens_withTokens
    rw [last, withTokens_withTokens]
    exact withTokens_congr fun p hp => by rw [there p hp]

end Net

/-- Of every run of forced firings on a net that can be built: the marking equation, the order
without effect, the same run with more tokens, and the way back by the marking from before. -/
theorem Built.marking_equation {net net' : Net} {ts : List TransitionId} (built : Built (.net net))
    (h : net.forceAll? ts = some net') :
    (∀ p, (net'.marking.tokens p : ℤ) =
      net.marking.tokens p + ts.countP (net.puts p) - ts.countP (net.takes p)) ∧
    (∀ us last, us.Perm ts → net.forceAll? us = some last → last = net') ∧
    (∀ D : PlaceId → ℕ, (∀ us mid, us <+: ts → net.forceAll? us = some mid →
        ∀ p ∈ net.places.keys, mid.tokens p + D p ≤ Place.capacity) →
      (net.withTokens fun p => net.tokens p + D p).forceAll? ts =
        some (net'.withTokens fun p => net'.tokens p + D p)) ∧
    (Edit.setMarking net.marking).run net' = .ok () net := by
  have wf : net.WellFormed := built.wellFormed
  obtain ⟨run, same⟩ := Net.runs_of_forceAll? wf h
  have wf' : net'.WellFormed := same ▸ wf.withTokens _
  have keys : net'.places.keys = net.places.keys := by
    rw [same, Net.keys_places_withTokens]
  refine ⟨fun p => ?_, fun us last perm h' => ?_, fun D room => ?_, ?_⟩
  · have balance := run.balance p
    rw [Net.taken_eq_countP, Net.given_eq_countP] at balance
    rw [Net.tokens_marking wf, Net.tokens_marking wf']
    omega
  · obtain ⟨run', same'⟩ := Net.runs_of_forceAll? wf h'
    rw [same', run.eq_of_perm run' perm, ← same]
  · exact Net.forceAll?_more wf h room
  · rw [Net.run_setMarking_of_keys (by rw [Net.keys_marking wf, keys]), Net.tokens_marking wf, same,
      Net.withTokens_withTokens, Net.withTokens_tokens]

def Net.stock : Net :=
  .after [.addPlace (.ofId ⟨"stock"⟩ 2), .addPlace (.blank ⟨"output"⟩),
    .addTransition (.bare ⟨"sell"⟩ "sell" true), .connect ⟨"stock"⟩ ⟨"sell"⟩ ⟨"output"⟩,
    .addTransition (.bare ⟨"copy"⟩ "copy" true), .connect ⟨"stock"⟩ ⟨"copy"⟩ ⟨"output"⟩,
    .addOutputArc ⟨"copy"⟩ ⟨"stock"⟩]

theorem stock_marking_equation : ∃ net,
    Net.stock.forceAll? [⟨"copy"⟩, ⟨"sell"⟩, ⟨"sell"⟩] = some net ∧
    (net.marking.tokens ⟨"stock"⟩ : ℤ) = 2 + 1 - 3 ∧
    Net.stock.forceAll? [⟨"sell"⟩, ⟨"copy"⟩, ⟨"sell"⟩] = some net ∧
    (Net.stock.withTokens fun p => Net.stock.tokens p + 5).forceAll?
      [⟨"copy"⟩, ⟨"sell"⟩, ⟨"sell"⟩] = some (net.withTokens fun p => net.tokens p + 5) ∧
    (Edit.setMarking Net.stock.marking).run net = .ok () .stock := by
  obtain ⟨net, run⟩ : ∃ net, Net.stock.forceAll? [⟨"copy"⟩, ⟨"sell"⟩, ⟨"sell"⟩] = some net :=
    ⟨_, rfl⟩
  obtain ⟨other, run'⟩ : ∃ net, Net.stock.forceAll? [⟨"sell"⟩, ⟨"copy"⟩, ⟨"sell"⟩] = some net :=
    ⟨_, rfl⟩
  have built : Built (.net .stock) := built_after _
  obtain ⟨equation, order, more, back⟩ := built.marking_equation run
  obtain rfl := order _ other (by decide) run'
  refine ⟨other, run, equation ⟨"stock"⟩, run',
    more (fun _ => 5) fun us mid before reached p hp => ?_, back⟩
  have room : ([⟨"copy"⟩, ⟨"sell"⟩, ⟨"sell"⟩] : List TransitionId).inits.all (fun us =>
      (Net.stock.forceAll? us).all fun mid => Net.stock.places.keys.all fun p =>
        mid.tokens p + 5 ≤ Place.capacity) = true := by decide +kernel
  have part := List.all_eq_true.1 room us ((List.mem_inits _ _).2 before)
  rw [reached, Option.all_some] at part
  exact of_decide_eq_true (List.all_eq_true.1 part p hp)

end ProcessNet
