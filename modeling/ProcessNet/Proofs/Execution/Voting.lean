import ProcessNet.Execution.Simulation
import ProcessNet.Proofs.Execution.Firing

/-!
One step by votes. Every marked place casts at most one ballot, for a transition that takes from it
and whose guard accepts. A transition with as many ballots as it has inputs has one from each of
them, so its inputs are all marked; and since a place votes once, the committed transitions share no
input. They are therefore enabled together, and fire in any order.
-/

namespace ProcessNet

namespace Net

/-- A transition of the net has a guard that fails in this way. -/
def GuardFault (net : Net) (fault : Fault) : Prop :=
  ∃ t x e, net.transition? t = some x ∧ x.accepts net.vars = .error e ∧ fault = .refused e

def Candidate (net : Net) (p : PlaceId) (t : TransitionId) : Prop :=
  ∃ x, net.transition? t = some x ∧ p ∈ x.inputs ∧ x.accepts net.vars = .ok true

variable {net : Net} {p : PlaceId} {t : TransitionId}

def isAccepting (net : Net) (x : Transition) : Bool := (x.accepts net.vars).toOption == some true

theorem isAccepting_of_accepts {x : Transition} {accepted : Bool}
    (h : x.accepts net.vars = .ok accepted) : net.isAccepting x = accepted := by
  rw [isAccepting, h]
  cases accepted <;> rfl

theorem isAccepting_iff {x : Transition} :
    net.isAccepting x = true ↔ x.accepts net.vars = .ok true := by
  rw [isAccepting]
  rcases x.accepts net.vars with e | accepted <;> simp [Except.toOption]

theorem accepting_cons_eq_ok {x : Transition} {rest : List Transition} {ts : List TransitionId} :
    net.accepting (x :: rest) = .ok ts ↔
      ∃ accepted others, x.accepts net.vars = .ok accepted ∧ net.accepting rest = .ok others ∧
        ts = if accepted then x.id :: others else others := by
  rw [accepting]
  rcases x.accepts net.vars with e | accepted
  · simp [bind, Except.bind]
  rcases net.accepting rest with e | others
  · simp [bind, Except.bind]
  · simp [bind, Except.bind, pure, Except.pure, eq_comm]

theorem accepting_eq_ok_iff {xs : List Transition} {ts : List TransitionId} :
    net.accepting xs = .ok ts ↔
      (∀ x ∈ xs, ∃ accepted, x.accepts net.vars = .ok accepted) ∧
        ts = (xs.filter net.isAccepting).map Transition.id := by
  induction xs generalizing ts with
  | nil => simp [accepting, eq_comm]
  | cons x rest ih =>
    have listed {accepted : Bool} (hx : x.accepts net.vars = .ok accepted) :
        ((x :: rest).filter net.isAccepting).map Transition.id =
          if accepted then x.id :: (rest.filter net.isAccepting).map Transition.id
          else (rest.filter net.isAccepting).map Transition.id := by
      rw [List.filter_cons, isAccepting_of_accepts hx]
      cases accepted <;> rfl
    rw [accepting_cons_eq_ok, List.forall_mem_cons]
    constructor
    · rintro ⟨accepted, others, hx, hrest, rfl⟩
      obtain ⟨all, rfl⟩ := ih.1 hrest
      exact ⟨⟨⟨accepted, hx⟩, all⟩, (listed hx).symm⟩
    · rintro ⟨⟨⟨accepted, hx⟩, all⟩, rfl⟩
      exact ⟨accepted, _, hx, ih.2 ⟨all, rfl⟩, listed hx⟩

theorem accepting_eq_ok {xs : List Transition} {ts : List TransitionId}
    (h : net.accepting xs = .ok ts) :
    ∀ t ∈ ts, ∃ x ∈ xs, x.id = t ∧ x.accepts net.vars = .ok true := by
  obtain ⟨-, rfl⟩ := accepting_eq_ok_iff.1 h
  intro t ht
  obtain ⟨x, hx, rfl⟩ := List.mem_map.1 ht
  obtain ⟨listed, accepts⟩ := List.mem_filter.1 hx
  exact ⟨x, listed, rfl, isAccepting_iff.1 accepts⟩

theorem accepting_eq_error {xs : List Transition} {e : NetError} (h : net.accepting xs = .error e) :
    ∃ x ∈ xs, x.accepts net.vars = .error e := by
  induction xs with
  | nil => cases h
  | cons x rest ih =>
    rw [accepting] at h
    rcases hx : x.accepts net.vars with e' | accepted <;> rw [hx] at h
    · cases h
      exact ⟨x, List.mem_cons_self, hx⟩
    rcases hrest : net.accepting rest with e' | others <;> rw [hrest] at h
    · cases h
      obtain ⟨y, hy, fails⟩ := ih hrest
      exact ⟨y, List.mem_cons_of_mem x hy, fails⟩
    · cases h

end Net

/-- The ballots cast so far: each place once, each for a candidate, and counted one by one. -/
structure Tally (net : Net) (votes : Votes) (ballots : List (PlaceId × TransitionId)) : Prop where
  once : (ballots.map Prod.fst).Nodup
  marked : ∀ b ∈ ballots, 0 < net.tokens b.1
  candidate : ∀ b ∈ ballots, net.Candidate b.1 b.2
  count : ∀ t, votes.count t = ballots.countP fun b => b.2 = t
  voted : ∀ t ∈ votes.keys, 0 < votes.count t

namespace Tally

variable {net : Net} {votes : Votes} {ballots : List (PlaceId × TransitionId)} {p : PlaceId}
  {t : TransitionId} {x : Transition}

theorem empty : Tally net ∅ [] where
  once := List.nodup_nil
  marked := by simp
  candidate := by simp
  count t := rfl
  voted := by simp

theorem count_cast (u : TransitionId) :
    (votes.cast t).count u = votes.count u + if u = t then 1 else 0 := by
  rw [Votes.count, Votes.cast, OrderedMap.get?_insert]
  by_cases h : u = t
  · subst h
    simp
  · simp [h, Votes.count]

theorem cast (h : Tally net votes ballots) (fresh : p ∉ ballots.map Prod.fst)
    (marked : 0 < net.tokens p) (candidate : net.Candidate p t) :
    Tally net (votes.cast t) ((p, t) :: ballots) where
  once := List.nodup_cons.2 ⟨fresh, h.once⟩
  marked b hb := by
    rcases List.mem_cons.1 hb with rfl | hb
    · exact marked
    · exact h.marked b hb
  candidate b hb := by
    rcases List.mem_cons.1 hb with rfl | hb
    · exact candidate
    · exact h.candidate b hb
  count u := by
    rw [count_cast, h.count, List.countP_cons]
    by_cases eq : u = t
    · simp [eq]
    · have : ¬t = u := fun eq' => eq eq'.symm
      simp [eq, this]
  voted u hu := by
    rw [count_cast]
    by_cases eq : u = t
    · simp [eq]
    · have : u ∈ votes.keys := by
        obtain ⟨c, hc⟩ := OrderedMap.mem_keys.1 hu
        rw [Votes.cast, OrderedMap.get?_insert, if_neg eq] at hc
        exact OrderedMap.mem_keys_of_get? hc
      exact Nat.add_pos_left (h.voted u this) _

def voters (ballots : List (PlaceId × TransitionId)) (t : TransitionId) : List PlaceId :=
  (ballots.filter fun b => b.2 = t).map Prod.fst

theorem mem_voters : p ∈ voters ballots t ↔ (p, t) ∈ ballots := by
  simp [voters]

theorem length_voters (h : Tally net votes ballots) (t : TransitionId) :
    (voters ballots t).length = votes.count t := by
  rw [voters, List.length_map, h.count, List.countP_eq_length_filter]

theorem voters_eq (h : Tally net votes ballots) (hx : net.transition? t = some x)
    (enough : x.inputs.size ≤ votes.count t) : ∀ p, p ∈ x.inputs ↔ (p, t) ∈ ballots := by
  have subset : voters ballots t ⊆ x.inputs.toList := by
    intro p hp
    obtain ⟨y, hy, mem, -⟩ := h.candidate _ (mem_voters.1 hp)
    rw [hx] at hy
    exact Option.some.inj hy ▸ mem
  have nodup : (voters ballots t).Nodup := h.once.sublist (List.filter_sublist.map _)
  have perm : (voters ballots t).Perm x.inputs.toList := by
    refine (List.subperm_of_subset nodup subset).perm_of_length_le ?_
    rw [h.length_voters]
    exact enough
  intro p
  rw [OrderedSet.mem_def, ← perm.mem_iff, mem_voters]

end Tally

namespace Run

open Net (GuardFault Candidate)

theorem run_nextWord (words : Words) (s : Session) :
    (nextWord words).run s = .ok (words s.drawn).toNat { s with drawn := s.drawn + 1 } := rfl

theorem run_drawIndex (words : Words) (n : ℕ) (s : Session) :
    ∃ i drawn, (drawIndex words n).run s = .ok i { s with drawn := drawn } := by
  rw [drawIndex, EStateM.run_bind, run_nextWord]
  dsimp only
  split
  · exact ⟨_, _, rfl⟩
  · exact ⟨_, _, rfl⟩

theorem run_drawFrom {α : Type} (words : Words) (candidates : List α) (s : Session) :
    ∃ chosen drawn, (drawFrom words candidates).run s = .ok chosen { s with drawn := drawn } ∧
      ∀ a, chosen = some a → a ∈ candidates := by
  rw [drawFrom]
  split
  · exact ⟨none, s.drawn, rfl, nofun⟩
  · obtain ⟨i, drawn, hi⟩ := run_drawIndex words candidates.length s
    refine ⟨candidates[i]?, drawn, ?_, fun a => List.mem_of_getElem?⟩
    rw [EStateM.run_bind, hi]
    rfl

theorem run_vote (words : Words) (votes : Votes) (place : Place) {s : Session}
    (wf : s.net.WellFormed) : (∃ e, (vote words votes place).run s = .error (.refused e) s ∧
      s.net.GuardFault (.refused e)) ∨
    ∃ votes' drawn, (vote words votes place).run s = .ok votes' { s with drawn := drawn } ∧
      (votes' = votes ∨ ∃ t, s.net.Candidate place.id t ∧ votes' = votes.cast t) := by
  rw [vote, run_net_bind]
  rcases accepted : s.net.accepting (s.net.consumers place.id) with e | candidates
  · obtain ⟨x, hx, fails⟩ := Net.accepting_eq_error accepted
    obtain ⟨t, ht⟩ := OrderedMap.mem_values.1 (List.mem_filter.1 hx).1
    exact .inl ⟨e, rfl, t, x, e, ht, fails, rfl⟩
  · refine .inr ?_
    obtain ⟨chosen, drawn, draw, mem⟩ := run_drawFrom words candidates s
    have ofOk : (ofExcept (.ok candidates) : Run (List TransitionId)).run s = .ok candidates s := rfl
    rw [EStateM.run_bind, ofOk]
    dsimp only
    rw [EStateM.run_bind, draw]
    rcases chosen with _ | t
    · exact ⟨votes, drawn, rfl, .inl rfl⟩
    · obtain ⟨x, hx, rfl, accepts⟩ := Net.accepting_eq_ok accepted t (mem t rfl)
      obtain ⟨known, input⟩ := List.mem_filter.1 hx
      obtain ⟨u, hu⟩ := OrderedMap.mem_values.1 known
      obtain rfl := wf.transition_id hu
      exact ⟨votes.cast x.id, drawn, rfl, .inr ⟨x.id, ⟨x, hu, of_decide_eq_true input, accepts⟩, rfl⟩⟩

theorem run_foldlM_vote (words : Words) {places : List Place} {votes : Votes}
    {ballots : List (PlaceId × TransitionId)} {s : Session} (wf : s.net.WellFormed)
    (tally : Tally s.net votes ballots) (nodup : (places.map Place.id).Nodup)
    (fresh : ∀ p ∈ places, p.id ∉ ballots.map Prod.fst)
    (marked : ∀ p ∈ places, 0 < s.net.tokens p.id) :
    (∃ e drawn, (places.foldlM (vote words) votes).run s =
      .error (.refused e) { s with drawn := drawn } ∧ s.net.GuardFault (.refused e)) ∨
    ∃ votes' drawn ballots', (places.foldlM (vote words) votes).run s =
      .ok votes' { s with drawn := drawn } ∧ Tally s.net votes' ballots' := by
  induction places generalizing votes ballots s with
  | nil => exact .inr ⟨votes, s.drawn, ballots, rfl, tally⟩
  | cons p rest ih =>
    obtain ⟨absent, nodup⟩ := List.nodup_cons.1 nodup
    have later : ∀ q ∈ rest, q.id ≠ p.id := fun q hq eq =>
      absent (eq ▸ List.mem_map_of_mem hq)
    rw [List.foldlM_cons, EStateM.run_bind]
    rcases run_vote words votes p wf with ⟨e, stopped, fails⟩ | ⟨votes', drawn, voted, outcome⟩
    · rw [stopped]
      exact .inl ⟨e, s.drawn, rfl, fails⟩
    rw [voted]
    rcases outcome with rfl | ⟨t, candidate, rfl⟩
    · exact ih (s := { s with drawn := drawn }) wf tally nodup
        (fun q hq => fresh q (List.mem_cons_of_mem p hq))
        fun q hq => marked q (List.mem_cons_of_mem p hq)
    · refine ih (s := { s with drawn := drawn }) wf
        (tally.cast (fresh p List.mem_cons_self) (marked p List.mem_cons_self) candidate) nodup
        (fun q hq mem => ?_) fun q hq => marked q (List.mem_cons_of_mem p hq)
      rcases List.mem_cons.1 mem with eq | mem
      · exact later q hq eq
      · exact fresh q (List.mem_cons_of_mem p hq) mem

theorem run_collectVotes (words : Words) {s : Session} (wf : s.net.WellFormed) :
    (∃ e drawn, (collectVotes words).run s = .error (.refused e) { s with drawn := drawn } ∧
      s.net.GuardFault (.refused e)) ∨
    ∃ votes drawn ballots, (collectVotes words).run s = .ok votes { s with drawn := drawn } ∧
      Tally s.net votes ballots := by
  have ids : s.net.places.values.map Place.id = s.net.places.keys := by
    rw [OrderedMap.values, OrderedMap.keys, List.map_map]
    exact List.map_congr_left fun e he => wf.place_id (OrderedMap.get?_eq_some.2 he)
  refine run_foldlM_vote words wf .empty ?_ (by simp) fun p hp => ?_
  · have : (s.net.places.values.map Place.id).Nodup := ids ▸ s.net.places.nodup_keys
    exact this.sublist (List.filter_sublist.map _)
  · obtain ⟨known, marked⟩ := List.mem_filter.1 hp
    obtain ⟨q, hq⟩ := OrderedMap.mem_values.1 known
    obtain rfl := wf.place_id hq
    rw [Net.tokens_of_place? hq]
    exact of_decide_eq_true marked

end Run

namespace Net

def takes (net : Net) (p : PlaceId) (t : TransitionId) : Bool :=
  (net.transition? t).any fun x => p ∈ x.inputs

def puts (net : Net) (p : PlaceId) (t : TransitionId) : Bool :=
  (net.transition? t).any fun x => p ∈ x.outputs

/-- The listed transitions are marked and accepting, and no two of them share an input. -/
structure Commits (net : Net) (ts : List TransitionId) : Prop where
  nodup : ts.Nodup
  ready : ∀ t ∈ ts, ∃ x, net.transition? t = some x ∧ x.inputs.toList ≠ [] ∧
    (∀ p ∈ x.inputs, 0 < net.tokens p) ∧ x.accepts net.vars = .ok true
  disjoint : ts.Pairwise fun t u => ∀ p, ¬(net.takes p t = true ∧ net.takes p u = true)

variable {net : Net} {ts us : List TransitionId} {p : PlaceId}

theorem sum_eq_countP {count : TransitionId → ℕ} {touches : TransitionId → Bool}
    (one : ∀ t, count t = if touches t = true then 1 else 0) (ts : List TransitionId) :
    (ts.map count).sum = ts.countP touches := by
  induction ts with
  | nil => rfl
  | cons t rest ih => rw [List.map_cons, List.sum_cons, List.countP_cons, ih, one, Nat.add_comm]

theorem taken_eq_countP : net.game.taken ts p = ts.countP (net.takes p) := by
  refine sum_eq_countP (fun t => ?_) ts
  rw [game, takes]
  rcases net.transition? t with _ | x
  · rfl
  · simp [Transition.move]

theorem given_eq_countP : net.game.given ts p = ts.countP (net.puts p) := by
  refine sum_eq_countP (fun t => ?_) ts
  rw [game, puts]
  rcases net.transition? t with _ | x
  · rfl
  · simp [Transition.move]

namespace Commits

variable (h : net.Commits ts)

include h

theorem countP_takes_le (p : PlaceId) : ts.countP (net.takes p) ≤ net.tokens p := by
  have one : ts.countP (net.takes p) ≤ 1 := by
    have disjoint := h.disjoint
    clear h
    induction ts with
    | nil => exact Nat.zero_le 1
    | cons t rest ih =>
      obtain ⟨first, disjoint⟩ := List.pairwise_cons.1 disjoint
      rw [List.countP_cons]
      split
      · next takes =>
        have : rest.countP (net.takes p) = 0 :=
          List.countP_eq_zero.2 fun u hu also => first u hu p ⟨takes, also⟩
        omega
      · exact ih disjoint
  by_cases taken : ∃ t ∈ ts, net.takes p t = true
  · obtain ⟨t, ht, takes⟩ := taken
    obtain ⟨x, hx, -, marked, -⟩ := h.ready t ht
    rw [Net.takes, hx] at takes
    have := marked p (of_decide_eq_true takes)
    omega
  · have : ts.countP (net.takes p) = 0 :=
      List.countP_eq_zero.2 fun t ht takes => taken ⟨t, ht, takes⟩
    omega

theorem length_le : ts.length ≤ net.transitions.size := by
  rw [← OrderedMap.length_keys]
  refine (List.subperm_of_subset h.nodup fun t ht => ?_).length_le
  obtain ⟨x, hx, -⟩ := h.ready t ht
  exact OrderedMap.mem_keys_of_get? hx

theorem runs (room : ∀ p, net.tokens p + net.transitions.size ≤ Place.capacity)
    (perm : us.Perm ts) : net.game.Runs net.tokens us fun p =>
      net.tokens p - ts.countP (net.takes p) + ts.countP (net.puts p) := by
  have known : ∀ t ∈ us, ∃ m, net.game t = some m := fun t ht => by
    obtain ⟨x, hx, -⟩ := h.ready t (perm.mem_iff.1 ht)
    exact ⟨x.move, game_eq_some hx⟩
  have together := Game.runs_together (M := net.tokens) known (fun p => ?_) fun p => ?_
  · rw [Game.taken_perm perm, Game.given_perm perm] at together
    simpa only [taken_eq_countP, given_eq_countP] using together
  · rw [Game.taken_perm perm, taken_eq_countP]
    exact h.countP_takes_le p
  · rw [Game.given_perm perm, given_eq_countP]
    have := room p
    have := h.length_le
    have := List.countP_le_length (p := net.puts p) (l := ts)
    omega

end Commits

end Net

theorem Tally.commits {net : Net} {votes : Votes} {ballots : List (PlaceId × TransitionId)}
    (h : Tally net votes ballots) : net.Commits (votes.filter (Run.commits net)).keys := by
  have elected : ∀ t ∈ (votes.filter (Run.commits net)).keys, ∃ x, net.transition? t = some x ∧
      (∀ p, p ∈ x.inputs ↔ (p, t) ∈ ballots) ∧ t ∈ votes.keys := by
    intro t ht
    obtain ⟨count, hcount, commits⟩ := OrderedMap.mem_keys_filter.1 ht
    rw [Run.commits] at commits
    rcases hx : net.transition? t with _ | x <;> rw [hx] at commits
    · cases commits
    · have enough : x.inputs.size ≤ votes.count t := by
        rw [Votes.count, hcount]
        exact of_decide_eq_true commits
      exact ⟨x, rfl, h.voters_eq hx enough, OrderedMap.mem_keys_of_get? hcount⟩
  refine ⟨OrderedMap.nodup_keys _, fun t ht => ?_, ?_⟩
  · obtain ⟨x, hx, voters, voted⟩ := elected t ht
    have positive := h.voted t voted
    rw [h.count, List.countP_pos_iff] at positive
    obtain ⟨⟨p, u⟩, hb, eq⟩ := positive
    obtain rfl : u = t := of_decide_eq_true eq
    obtain ⟨y, hy, mem, accepts⟩ := h.candidate _ hb
    obtain rfl := Option.some.inj (hx.symm.trans hy)
    exact ⟨x, hx, List.ne_nil_of_mem mem, fun q hq => h.marked _ ((voters q).1 hq), accepts⟩
  · refine (OrderedMap.nodup_keys _).imp_of_mem fun {t u} ht hu ne p both => ?_
    obtain ⟨x, hx, voters, -⟩ := elected t ht
    obtain ⟨y, hy, voters', -⟩ := elected u hu
    rw [Net.takes, Net.takes, hx, hy] at both
    have first := (voters p).1 (of_decide_eq_true both.1)
    have second := (voters' p).1 (of_decide_eq_true both.2)
    exact ne (OrderedMap.eq_of_mem_entries h.once first second)

namespace Run

open Net (Retokens GuardFault)

theorem run_forM_fire {ts : List TransitionId} {s : Session} (wf : s.net.WellFormed)
    {M : PlaceId → ℕ} (run : s.net.game.Runs s.net.tokens ts M) :
    ∃ journal, (ts.forM fire).run s =
      .ok () { s with net := s.net.withTokens M, journal := journal } := by
  induction ts generalizing s with
  | nil =>
    cases run
    exact ⟨s.journal, by rw [Net.withTokens_tokens]; rfl⟩
  | cons t rest ih =>
    cases run with
    | @cons _ N _ _ _ _ fires later =>
      obtain ⟨journal, done⟩ := ih (s := { s with
        net := s.net.withTokens N, journal := s.journal.push (.fired t) }) (wf.withTokens N) (by
          dsimp only
          rwa [wf.tokens_of_fires fires, Net.game_withTokens])
      refine ⟨journal, ?_⟩
      rw [List.forM_eq_forM] at done ⊢
      rw [List.forM_cons, EStateM.run_bind, run_fire_of_fires wf fires]
      dsimp only
      rw [done]
      dsimp only
      rw [Net.withTokens_withTokens]

theorem runs_of_forM_fire {ts : List TransitionId} {s s' : Session} (wf : s.net.WellFormed)
    (h : (ts.forM fire).run s = .ok () s') :
    ∃ M, s.net.game.Runs s.net.tokens ts M ∧ s'.net = s.net.withTokens M := by
  induction ts generalizing s with
  | nil =>
    obtain ⟨-, rfl⟩ := pure_eq_ok.1 h
    exact ⟨s.net.tokens, .nil trivial, Net.withTokens_tokens.symm⟩
  | cons t rest ih =>
    rw [List.forM_eq_forM] at ih h
    rw [List.forM_cons] at h
    obtain ⟨_, s₁, first, later⟩ := bind_eq_ok.1 h
    obtain ⟨N, fires, rfl⟩ := fires_of_run_fire wf first
    obtain ⟨M, run, same⟩ := ih (s := { s with net := s.net.withTokens N, journal := _ })
      (wf.withTokens N) later
    dsimp only at run same
    rw [wf.tokens_of_fires fires, Net.game_withTokens] at run
    exact ⟨M, .cons trivial fires run, by rw [same, Net.withTokens_withTokens]⟩

section

variable {words : Words} {s s' : Session} {fired : List TransitionId} {fault : Fault}

theorem step_eq_ok : (step words).run s = .ok fired s' ↔ ∃ votes s₁,
    (collectVotes words).run s = .ok votes s₁ ∧ fired = (votes.filter (commits s₁.net)).keys ∧
      (fired.forM fire).run s₁ = .ok () s' := by
  constructor
  · intro h
    obtain ⟨votes, s₁, collected, h⟩ := bind_eq_ok.1 h
    obtain ⟨_, _, looked, h⟩ := bind_eq_ok.1 h
    obtain ⟨rfl, rfl⟩ := net_eq_ok.1 looked
    obtain ⟨_, s₂, done, h⟩ := bind_eq_ok.1 h
    obtain ⟨rfl, rfl⟩ := pure_eq_ok.1 h
    exact ⟨votes, s₁, collected, rfl, done⟩
  · rintro ⟨votes, s₁, collected, rfl, done⟩
    refine bind_eq_ok.2 ⟨votes, s₁, collected, bind_eq_ok.2 ⟨_, s₁, net_eq_ok.2 ⟨rfl, rfl⟩, ?_⟩⟩
    exact bind_eq_ok.2 ⟨(), s', done, pure_eq_ok.2 ⟨rfl, rfl⟩⟩

theorem step_eq_error : (step words).run s = .error fault s' ↔
    (collectVotes words).run s = .error fault s' ∨ ∃ votes s₁,
      (collectVotes words).run s = .ok votes s₁ ∧
        ((votes.filter (commits s₁.net)).keys.forM fire).run s₁ = .error fault s' := by
  constructor
  · intro h
    rcases bind_eq_error.1 h with stopped | ⟨votes, s₁, collected, h⟩
    · exact .inl stopped
    · rcases bind_eq_error.1 h with looking | ⟨_, _, looked, h⟩
      · cases looking
      · obtain ⟨rfl, rfl⟩ := net_eq_ok.1 looked
        rcases bind_eq_error.1 h with firing | ⟨_, _, -, answering⟩
        · exact .inr ⟨votes, s₁, collected, firing⟩
        · cases answering
  · rintro (stopped | ⟨votes, s₁, collected, firing⟩)
    · exact bind_eq_error.2 (.inl stopped)
    · refine bind_eq_error.2 (.inr ⟨votes, s₁, collected, ?_⟩)
      exact bind_eq_error.2 (.inr ⟨_, s₁, net_eq_ok.2 ⟨rfl, rfl⟩, bind_eq_error.2 (.inl firing)⟩)

/-- A step fails only by a guard and before any token has moved; otherwise the committed transitions
fire, and nothing but the marking changes. -/
theorem run_step (words : Words) {s : Session} (wf : s.net.WellFormed)
    (room : ∀ p, s.net.tokens p + s.net.transitions.size ≤ Place.capacity) :
    (∃ e s', (step words).run s = .error (.refused e) s' ∧ s'.net = s.net ∧
      s.net.GuardFault (.refused e)) ∨
    ∃ fired s', (step words).run s = .ok fired s' ∧ s.net.Commits fired ∧
      s'.net = s.net.withTokens fun p =>
        s.net.tokens p - fired.countP (s.net.takes p) + fired.countP (s.net.puts p) := by
  rcases run_collectVotes words wf with ⟨e, drawn, stopped, fails⟩ |
    ⟨votes, drawn, ballots, collected, tally⟩
  · exact .inl ⟨e, _, step_eq_error.2 (.inl stopped), rfl, fails⟩
  · have committed := tally.commits
    obtain ⟨journal, done⟩ := run_forM_fire (s := { s with drawn := drawn }) wf
      (committed.runs room (List.Perm.refl _))
    exact .inr ⟨_, _, step_eq_ok.2 ⟨votes, _, collected, rfl, done⟩, committed, rfl⟩

end

variable (words : Words)

theorem ofExcept_retokens {α : Type} (x : Except NetError α) :
    Evolves (OnNet Retokens) (ofExcept x) := by
  cases x with
  | ok a => exact Evolves.pure a
  | error e => exact refuse_retokens e

theorem drawFrom_retokens {α : Type} (candidates : List α) :
    Evolves (OnNet Retokens) (drawFrom words candidates) := by
  intro s
  obtain ⟨chosen, drawn, draw, -⟩ := run_drawFrom words candidates s
  rw [draw]
  exact Std.Refl.refl s.net

theorem vote_retokens (votes : Votes) (place : Place) :
    Evolves (OnNet Retokens) (vote words votes place) := by
  refine net_retokens.bind fun net => (ofExcept_retokens _).bind fun candidates => ?_
  refine (drawFrom_retokens words candidates).bind fun chosen => ?_
  cases chosen <;> exact Evolves.pure _

theorem step_retokens : Evolves (OnNet Retokens) (step words) := by
  have collect : Evolves (OnNet Retokens) (collectVotes words) :=
    net_retokens.bind fun net => Evolves.foldlM (fun votes p _ => vote_retokens words votes p) _
  exact collect.bind fun votes => net_retokens.bind fun net =>
    (Evolves.forM fun t _ => fire_retokens t).bind fun _ => Evolves.pure _

theorem stepsUntilStill_retokens (bound steps : ℕ) (earlier : List (List TransitionId)) :
    Evolves (OnNet Retokens) (stepsUntilStill words bound steps earlier) := by
  induction bound generalizing steps earlier with
  | zero => exact Evolves.pure _
  | succ bound ih =>
    refine (step_retokens words).bind fun fired => ?_
    split
    · exact Evolves.pure _
    · exact ih _ _

theorem simulate_retokens (bound : ℕ) : Evolves (OnNet Retokens) (simulate bound words) :=
  (stepsUntilStill_retokens words bound 0 []).bind fun _ => (record_retokens _).bind fun _ =>
    net_retokens.bind fun _ => Evolves.pure _

end Run

end ProcessNet
