import ProcessNet.Proofs.Net.Marking
import ProcessNet.Proofs.Reduction.Behaviour

/-!
Tokens in a reduction. All tokens together are as many after tokens have been moved, and no place that
has tokens of its own is more than dropped, so they never become more. As long as they are a token
count together, what is moved to a place has room there, and the reduction does not stop before its
end.
-/

namespace ProcessNet

open Game (Holds)

namespace Net

/-- All tokens of the net together are a token count. -/
def Fits (net : Net) : Prop := ∃ n, net.marking.total = .ok n

variable {net : Net} {M : PlaceId → ℕ} {p q : PlaceId}

theorem total_withTokens (wf : net.WellFormed) : (net.withTokens M).marking.total =
    if Place.capacity < ∑ p ∈ net.places.keys.toFinset, M p then .error .overflow
    else .ok (∑ p ∈ net.places.keys.toFinset, M p) := by
  have values : (net.withTokens M).marking.counts.values = net.places.keys.map M := by
    rw [counts_marking (wf.withTokens M), OrderedMap.values_mapValues, withTokens,
      OrderedMap.mapValues, List.map_map, OrderedMap.keys, List.map_map]
    rfl
  have sum : ∑ p ∈ net.places.keys.toFinset, M p = (net.places.keys.map M).sum :=
    List.sum_toFinset M net.places.nodup_keys
  rw [Marking.total, values, sum]
  rfl

theorem fits_withTokens (wf : net.WellFormed) :
    (net.withTokens M).Fits ↔ Holds net.places.keys.toFinset M := by
  rw [Fits, total_withTokens wf, Holds]
  split
  · next full =>
    constructor
    · rintro ⟨n, h⟩
      cases h
    · exact fun fits => absurd fits (Nat.not_le.2 full)
  · next fits => exact ⟨fun _ => Nat.not_lt.1 fits, fun _ => ⟨_, rfl⟩⟩

theorem toBool_total : net.marking.total.toBool = true ↔ net.Fits := by
  rw [Fits]
  rcases net.marking.total with e | n <;> simp [Except.toBool]

instance (net : Net) : Decidable net.Fits := decidable_of_iff _ toBool_total

theorem fits_iff (wf : net.WellFormed) :
    net.Fits ↔ Holds net.places.keys.toFinset net.tokens := by
  rw [← fits_withTokens wf, withTokens_tokens]

theorem Fits.total_eq (fits : net.Fits) (wf : net.WellFormed) :
    net.marking.total = .ok (∑ p ∈ net.places.keys.toFinset, net.tokens p) := by
  have total := @total_withTokens net net.tokens wf
  rwa [withTokens_tokens, if_neg (Nat.not_lt.2 ((fits_iff wf).1 fits))] at total

theorem Fits.lumped (fits : net.Fits) (wf : net.WellFormed) (ne : p ≠ q) (hp : p ∈ net.places.keys)
    (hq : q ∈ net.places.keys) : (net.withTokens (lump p q net.tokens)).Fits := by
  rw [fits_withTokens wf, Holds, sum_lump ne (List.mem_toFinset.2 hp) (List.mem_toFinset.2 hq)]
  exact (fits_iff wf).1 fits

theorem Fits.room (fits : net.Fits) (wf : net.WellFormed) (ne : p ≠ q) (hp : p ∈ net.places.keys)
    (hq : q ∈ net.places.keys) : net.tokens q + net.tokens p ≤ Place.capacity := by
  have holds := (fits_withTokens wf).1 (fits.lumped wf ne hp hq)
  have le := Finset.single_le_sum (f := lump p q net.tokens) (fun _ _ => Nat.zero_le _)
    (List.mem_toFinset.2 hq)
  rw [lump_there ne] at le
  exact le.trans holds

theorem tokens_dropUnconnected (hp : p ∈ net.dropUnconnected.places.keys) :
    net.dropUnconnected.tokens p = net.tokens p := by
  obtain ⟨x, hx⟩ := OrderedMap.mem_keys.1 hp
  have hx : net.dropUnconnected.place? p = some x := hx
  rw [tokens_of_place? hx]
  rw [place?_dropUnconnected] at hx
  rw [tokens_of_place? (Option.filter_eq_some_iff.1 hx).1]

theorem Fits.dropUnconnected (fits : net.Fits) (wf : net.WellFormed) : net.dropUnconnected.Fits := by
  refine (fits_iff (dropUnconnected_wellFormed wf)).2 (Nat.le_trans ?_ ((fits_iff wf).1 fits))
  have sub : net.dropUnconnected.places.keys.toFinset ⊆ net.places.keys.toFinset := fun p hp =>
    List.mem_toFinset.2 (mem_keys_dropUnconnected.1 (List.mem_toFinset.1 hp)).1
  calc ∑ p ∈ net.dropUnconnected.places.keys.toFinset, net.dropUnconnected.tokens p
      = ∑ p ∈ net.dropUnconnected.places.keys.toFinset, net.tokens p :=
        Finset.sum_congr rfl fun p hp => tokens_dropUnconnected (List.mem_toFinset.1 hp)
    _ ≤ ∑ p ∈ net.places.keys.toFinset, net.tokens p := Finset.sum_le_sum_of_subset sub

theorem tokens_withTokens_update (hq : q ∈ net.places.keys) (n : ℕ) :
    (net.withTokens (Function.update net.tokens q n)).tokens = Function.update net.tokens q n := by
  refine tokens_withTokens_of_support fun r hr => ?_
  have : r ≠ q := fun eq => hr (eq ▸ hq)
  rw [Function.update_of_ne this, tokens_of_not_mem hr]

/-- A well-formed net with all its sources known and no more tokens than a count can tell. -/
structure Ready (sources : OrderedSet PlaceId) (net : Net) : Prop where
  wellFormed : net.WellFormed
  known : ∀ p, p ∈ net.sources → p ∈ sources
  fits : net.Fits

end Net

namespace Run

open Net (Ready)

variable {sources : OrderedSet PlaceId} {p q : PlaceId} {s : Session}

theorem run_updatePlace_tokens {change : Place → Except Fault Place} {x : Place} {n : ℕ}
    (hx : s.net.place? p = some x) (changed : change x = .ok { x with tokens := n }) :
    (updatePlace p change).run s =
      .ok () { s with net := s.net.withTokens (Function.update s.net.tokens p n) } := by
  rw [run_updatePlace, hx]
  dsimp only
  rw [changed]
  dsimp only
  rw [Net.modify_place hx]

theorem run_moveTokens (ne : p ≠ q) (hp : p ∈ s.net.places.keys) (hq : q ∈ s.net.places.keys)
    (room : s.net.tokens q + s.net.tokens p ≤ Place.capacity) :
    (moveTokens p q).run s =
      .ok () { s with net := s.net.withTokens (lump p q s.net.tokens) } := by
  obtain ⟨x, hx⟩ := OrderedMap.mem_keys.1 hp
  obtain ⟨y, hy⟩ := OrderedMap.mem_keys.1 hq
  have hx : s.net.place? p = some x := hx
  have hy : s.net.place? q = some y := hy
  have at_p := Net.tokens_of_place? hx
  have at_q := Net.tokens_of_place? hy
  have added : y.add x.tokens = .ok { y with tokens := y.tokens + x.tokens } := by
    rw [at_p, at_q] at room
    rw [Place.add, if_neg (Nat.not_lt.2 room)]
  have still : (s.net.withTokens
      (Function.update s.net.tokens q (y.tokens + x.tokens))).place? p = some x := by
    rw [Net.place?_withTokens_of_place? hx, Function.update_of_ne ne, at_p]
  have moved : Function.update (Function.update s.net.tokens q (y.tokens + x.tokens)) p 0 =
      lump p q s.net.tokens := by
    funext r
    rw [lump, Function.update_apply, Function.update_apply, at_p, at_q]
  rw [moveTokens, run_net_bind, hx, Option.elim_some]
  dsimp only
  by_cases none : x.tokens = 0
  · rw [if_pos none, lump_eq_self (at_p.trans none), Net.withTokens_tokens]
    rfl
  · rw [if_neg none, EStateM.run_bind, run_updatePlace_tokens hy added]
    dsimp only
    rw [run_updatePlace_tokens still rfl]
    dsimp only
    rw [Net.tokens_withTokens_update hq, moved, Net.withTokens_withTokens]

theorem moveTokens_answers (ne : p ≠ q) : Answers (fun s => Ready sources s.net ∧
    p ∈ s.net.places.keys ∧ q ∈ s.net.places.keys) (moveTokens p q) := by
  rintro s ⟨ready, hp, hq⟩
  have room := ready.fits.room ready.wellFormed ne hp hq
  refine ⟨(), _, run_moveTokens ne hp hq room, ⟨ready.wellFormed.withTokens _, ready.known,
    ready.fits.lumped ready.wellFormed ne hp hq⟩, ?_, ?_⟩ <;> rwa [Net.keys_places_withTokens]

theorem record_answers {I : Session → Prop} {e : Event}
    (keep : ∀ s journal, I s → I { s with journal := journal }) : Answers I (record e) :=
  .modify fun s => keep s _

theorem removeSilent_answers (t : TransitionId) :
    Answers (fun s => Ready sources s.net) (removeSilent sources t) := by
  intro s ready
  rw [removeSilent, run_net_bind]
  rcases h : s.net.bypass? sources t with _ | ⟨p, q⟩
  · exact ⟨none, s, rfl, ready⟩
  · have bypasses := Net.bypasses_of_bypass? ready.wellFormed ready.known h
    have rest : Answers (fun s => Ready sources s.net ∧ p ∈ s.net.places.keys ∧
        q ∈ s.net.places.keys) (do
        moveTokens p q
        record (.bypassed ⟨t, p, q⟩)
        return some ⟨t, p, q⟩ : Run (Option Bypass)) :=
      (moveTokens_answers bypasses.ne).bind fun _ =>
        (record_answers fun _ _ => id).bind fun _ => .pure _
    have ready' : Ready sources (s.net.bypass t p q) :=
      ⟨bypasses.bypass_wellFormed ready.wellFormed,
        fun r hr => ready.known r (bypasses.sources_bypass.1 hr), ready.fits⟩
    obtain ⟨removed, s', run, ready'', -⟩ := rest { s with net := s.net.bypass t p q }
      ⟨ready', ready.wellFormed.consumes_mem bypasses.consumes,
        ready.wellFormed.produces_mem bypasses.produces⟩
    exact ⟨removed, s', run, ready''⟩

theorem removeSilents_answers (ts : List TransitionId) :
    Answers (fun s => Ready sources s.net) (removeSilents sources ts) := by
  induction ts with
  | nil => exact .pure _
  | cons t rest ih =>
    exact (removeSilent_answers t).bind fun _ => ih.bind fun _ => .pure _

theorem prune_answers : Answers (fun s => s.net.WellFormed ∧ s.net.Fits) prune := by
  rintro s ⟨wf, fits⟩
  have rest : Answers (fun s' => Ready s.net.sources s'.net) (do
      let steps ← removeSilents s.net.sources s.net.transitions.keys
      let places := (← Run.net).unconnected
      modifyNet Net.dropUnconnected
      record (.pruned steps.length places.length)
      return ⟨steps, steps.map (·.transition), places⟩ : Run PruneReport) := by
    refine (removeSilents_answers _).bind fun steps => ?_
    refine Answers.bind (fun s ready => ⟨_, s, rfl, ready⟩) fun net => ?_
    refine Answers.bind (.modify fun s ready => ?_) fun _ =>
      (record_answers fun _ _ => id).bind fun _ => .pure _
    exact ⟨Net.dropUnconnected_wellFormed ready.wellFormed, ready.known,
      ready.fits.dropUnconnected ready.wellFormed⟩
  obtain ⟨report, s', run, ready⟩ := rest s ⟨wf, fun _ => id, fits⟩
  exact ⟨report, s', run, ready.wellFormed, ready.fits⟩

theorem pruneUntilStill_answers (earlier : PruneReport) :
    Answers (fun s => s.net.WellFormed ∧ s.net.Fits) (pruneUntilStill earlier) := by
  rintro s ready
  rw [EStateM.run]
  fun_induction pruneUntilStill earlier s with
  | case1 _ s fault s' stopped =>
    obtain ⟨_, _, run, -⟩ := prune_answers s ready
    cases stopped.symm.trans run
  | case2 earlier s report s' done still =>
    obtain ⟨_, _, run, ready'⟩ := prune_answers s ready
    cases done.symm.trans run
    exact ⟨earlier, s', rfl, ready'⟩
  | case3 _ s report s' done _ ih =>
    obtain ⟨_, _, run, ready'⟩ := prune_answers s ready
    cases done.symm.trans run
    exact ih ready'

theorem pruneExhaustively_answers :
    Answers (fun s => s.net.WellFormed ∧ s.net.Fits) pruneExhaustively :=
  pruneUntilStill_answers _

end Run

end ProcessNet
