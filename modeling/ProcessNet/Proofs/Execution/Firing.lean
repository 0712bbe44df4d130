import ProcessNet.Execution.Firing
import ProcessNet.Proofs.Net.WellFormed

/-!
Firing plays the token game. On a well-formed net a firing succeeds exactly when the transition's
move fires at the marking of the net, and then it replaces the marking and nothing else; whatever
stops it, only token counts have changed. A run of forced firings is a run of the game, so
statements about runs can be made about markings alone.
-/

namespace ProcessNet

namespace Net

def Retokens (net net' : Net) : Prop := ∃ M, net' = net.withTokens M

instance : Std.Refl Retokens := ⟨fun net => ⟨net.tokens, withTokens_tokens.symm⟩⟩

instance : IsTrans Net Retokens := ⟨by
  rintro net _ _ ⟨M, rfl⟩ ⟨N, rfl⟩
  exact ⟨N, withTokens_withTokens⟩⟩

theorem Retokens.keepsForm {net net' : Net} (h : net.Retokens net') : net.KeepsForm net' := by
  obtain ⟨M, rfl⟩ := h
  exact fun wf => wf.withTokens M

end Net

def OnNet (R : Net → Net → Prop) (s s' : Session) : Prop := R s.net s'.net

instance {R : Net → Net → Prop} [Std.Refl R] : Std.Refl (OnNet R) := ⟨fun s => Std.Refl.refl s.net⟩

instance {R : Net → Net → Prop} [IsTrans Net R] : IsTrans Session (OnNet R) :=
  ⟨fun s s' s'' => IsTrans.trans s.net s'.net s''.net⟩

namespace Run

open Net (Retokens)

theorem run_updatePlace (p : PlaceId) (change : Place → Except Fault Place) (s : Session) :
    (updatePlace p change).run s =
      match s.net.place? p with
      | none => .ok () s
      | some x => match change x with
        | .ok y => .ok () { s with net := { s.net with places := s.net.places.modify p fun _ => y } }
        | .error fault => .error fault s := by
  rw [updatePlace, EStateM.run_bind]
  show EStateM.run (match s.net.place? p with | none => _ | some x => _) s = _
  rcases s.net.place? p with _ | x
  · rfl
  · rcases h : change x with _ | y <;> simp only [h] <;> rfl

theorem record_retokens (e : Event) : Evolves (OnNet Retokens) (record e) :=
  Evolves.modify fun s => Std.Refl.refl s.net

theorem net_retokens : Evolves (OnNet Retokens) net := fun s => Std.Refl.refl s.net

theorem refuse_retokens {α : Type} (e : NetError) : Evolves (OnNet Retokens) (refuse e : Run α) :=
  Evolves.throw _

theorem updatePlace_retokens {p : PlaceId} {change : Place → Except Fault Place}
    (h : ∀ x y, change x = .ok y → y = { x with tokens := y.tokens }) :
    Evolves (OnNet Retokens) (updatePlace p change) := by
  intro s
  rw [run_updatePlace]
  rcases hx : s.net.place? p with _ | x
  · exact Std.Refl.refl s.net
  · dsimp only
    rcases hy : change x with _ | y
    · exact Std.Refl.refl s.net
    · refine ⟨Function.update s.net.tokens p y.tokens, ?_⟩
      rw [← Net.modify_place hx, ← h x y hy]
      rfl

theorem takeToken_retokens (p : PlaceId) : Evolves (OnNet Retokens) (takeToken p) := by
  refine updatePlace_retokens fun x y h => ?_
  by_cases hz : x.tokens = 0 <;> simp only [Place.decrement, hz, if_true, if_false,
    Except.mapError, reduceCtorEq, Except.ok.injEq] at h
  rw [← h]

theorem putToken_retokens (p : PlaceId) : Evolves (OnNet Retokens) (putToken p) := by
  refine updatePlace_retokens fun x y h => ?_
  by_cases hz : Place.capacity < x.tokens + 1 <;> simp only [Place.increment, Place.add, hz,
    if_true, if_false, reduceCtorEq, Except.ok.injEq] at h
  rw [← h]

theorem fire_retokens (t : TransitionId) : Evolves (OnNet Retokens) (fire t) := by
  refine net_retokens.bind fun net => ?_
  rcases net.transition? t with _ | x
  · exact refuse_retokens _
  · dsimp only
    rcases x.inputs.toList.find? _ with _ | p
    · exact (Evolves.forM fun p _ => takeToken_retokens p).bind fun _ =>
        (Evolves.forM fun p _ => putToken_retokens p).bind fun _ => record_retokens _
    · exact (refuse_retokens _).bind fun _ =>
        (Evolves.forM fun p _ => takeToken_retokens p).bind fun _ =>
          (Evolves.forM fun p _ => putToken_retokens p).bind fun _ => record_retokens _

theorem run_takeToken {p : PlaceId} {s : Session} (h : 0 < s.net.tokens p) :
    (takeToken p).run s = .ok () { s with
      net := s.net.withTokens (Function.update s.net.tokens p (s.net.tokens p - 1)) } := by
  rw [takeToken, run_updatePlace]
  rcases hx : s.net.place? p with _ | x
  · rw [Net.tokens, hx] at h
    exact absurd h (Nat.lt_irrefl 0)
  · rw [Net.tokens_of_place? hx] at h ⊢
    simp only [Place.decrement, h.ne', if_false, Except.mapError]
    rw [← Net.modify_place hx]

theorem run_putToken {p : PlaceId} {s : Session} (known : p ∈ s.net.places.keys) :
    (putToken p).run s =
      if s.net.tokens p < Place.capacity then .ok () { s with
        net := s.net.withTokens (Function.update s.net.tokens p (s.net.tokens p + 1)) }
      else .error .overflow s := by
  obtain ⟨x, hx⟩ := OrderedMap.mem_keys.1 known
  have hx : s.net.place? p = some x := hx
  rw [putToken, run_updatePlace, hx, Net.tokens_of_place? hx]
  by_cases h : x.tokens < Place.capacity
  · have : ¬Place.capacity < x.tokens + 1 := by omega
    simp only [Place.increment, Place.add, this, h, if_true, if_false]
    rw [← Net.modify_place hx]
  · have : Place.capacity < x.tokens + 1 := by omega
    simp only [Place.increment, Place.add, this, h, if_true, if_false]

theorem run_forM_update {change : PlaceId → Run Unit} {f : ℕ → ℕ} {Q : ℕ → Prop}
    (one : ∀ {p : PlaceId} {s : Session}, p ∈ s.net.places.keys → Q (s.net.tokens p) →
      (change p).run s = .ok () { s with
        net := s.net.withTokens (Function.update s.net.tokens p (f (s.net.tokens p))) })
    {ps : List PlaceId} (nodup : ps.Nodup) {s : Session}
    (known : ∀ p ∈ ps, p ∈ s.net.places.keys) (all : ∀ p ∈ ps, Q (s.net.tokens p)) :
    (ps.forM change).run s = .ok () { s with
      net := s.net.withTokens fun p => if p ∈ ps then f (s.net.tokens p) else s.net.tokens p } := by
  induction ps generalizing s with
  | nil => simp [List.forM]
  | cons q rest ih =>
    obtain ⟨absent, nodup⟩ := List.nodup_cons.1 nodup
    rw [List.forM_eq_forM] at ih ⊢
    rw [List.forM_cons, EStateM.run_bind,
      one (known q List.mem_cons_self) (all q List.mem_cons_self)]
    dsimp only
    rw [ih nodup]
    · dsimp only
      rw [Net.withTokens_withTokens]
      refine congrArg (fun n => EStateM.Result.ok () { s with net := n }) ?_
      refine Net.withTokens_congr fun p hp => ?_
      rw [Net.tokens_withTokens, if_pos hp]
      by_cases h : p = q
      · subst h
        simp [absent]
      · simp [h]
    · simpa using fun p hp => known p (List.mem_cons_of_mem q hp)
    · intro p hp
      have hne : p ≠ q := fun eq => absent (eq ▸ hp)
      rw [Net.tokens_withTokens, if_pos (known p (List.mem_cons_of_mem q hp)),
        Function.update_of_ne hne]
      exact all p (List.mem_cons_of_mem q hp)

theorem run_forM_takeToken {ps : List PlaceId} (nodup : ps.Nodup) {s : Session}
    (marked : ∀ p ∈ ps, 0 < s.net.tokens p) :
    (ps.forM takeToken).run s = .ok () { s with
      net := s.net.withTokens fun p => s.net.tokens p - if p ∈ ps then 1 else 0 } := by
  have known : ∀ p ∈ ps, p ∈ s.net.places.keys := by
    intro p hp
    by_contra none
    have := marked p hp
    rw [Net.tokens_of_not_mem none] at this
    exact Nat.lt_irrefl 0 this
  rw [run_forM_update (f := (· - 1)) (fun _ => run_takeToken) nodup known marked]
  refine congrArg (fun M => EStateM.Result.ok () { s with net := s.net.withTokens M }) ?_
  funext p
  split <;> rfl

theorem run_forM_putToken {ps : List PlaceId} (nodup : ps.Nodup) {s : Session}
    (known : ∀ p ∈ ps, p ∈ s.net.places.keys) (room : ∀ p ∈ ps, s.net.tokens p < Place.capacity) :
    (ps.forM putToken).run s = .ok () { s with
      net := s.net.withTokens fun p => s.net.tokens p + if p ∈ ps then 1 else 0 } := by
  rw [run_forM_update (f := (· + 1)) (Q := (· < Place.capacity))
    (fun known room => (run_putToken known).trans (if_pos room)) nodup known room]
  refine congrArg (fun M => EStateM.Result.ok () { s with net := s.net.withTokens M }) ?_
  funext p
  split <;> rfl

theorem room_of_forM_putToken {ps : List PlaceId} (nodup : ps.Nodup) {s s' : Session}
    (known : ∀ p ∈ ps, p ∈ s.net.places.keys) (h : (ps.forM putToken).run s = .ok () s') :
    ∀ p ∈ ps, s.net.tokens p < Place.capacity := by
  induction ps generalizing s with
  | nil => simp
  | cons q rest ih =>
    obtain ⟨absent, nodup⟩ := List.nodup_cons.1 nodup
    rw [List.forM_eq_forM] at ih h
    rw [List.forM_cons, EStateM.run_bind, run_putToken (known q List.mem_cons_self)] at h
    by_cases hq : s.net.tokens q < Place.capacity
    · rw [if_pos hq] at h
      have later := ih nodup (by simpa using fun p hp => known p (List.mem_cons_of_mem q hp)) h
      intro p hp
      rcases List.mem_cons.1 hp with rfl | hp
      · exact hq
      · have hne : p ≠ q := fun eq => absent (eq ▸ hp)
        have := later p hp
        rwa [Net.tokens_withTokens, if_pos (known p (List.mem_cons_of_mem q hp)),
          Function.update_of_ne hne] at this
    · rw [if_neg hq] at h
      cases h

end Run

theorem Transition.fires_iff {x : Transition} {M N : PlaceId → ℕ} : x.move.Fires M N ↔
    (∀ p ∈ x.inputs.toList, 0 < M p) ∧
      (∀ p ∈ x.outputs.toList, M p - (if p ∈ x.inputs.toList then 1 else 0) < Place.capacity) ∧
      N = fun p => M p - (if p ∈ x.inputs.toList then 1 else 0) +
        if p ∈ x.outputs.toList then 1 else 0 := by
  constructor
  · rintro ⟨enabled, balance, fits⟩
    simp only [move, OrderedSet.mem_def] at enabled balance fits
    refine ⟨fun p hp => ?_, fun p hp => ?_, ?_⟩
    · have := enabled p
      rwa [if_pos hp] at this
    · have enabled := enabled p
      have balance := balance p
      have fits := fits p (by rw [if_pos hp]; exact Nat.one_pos)
      rw [if_pos hp] at balance
      omega
    · funext p
      have := enabled p
      have := balance p
      omega
  · rintro ⟨marked, room, rfl⟩
    have enabled : ∀ p, (if p ∈ x.inputs.toList then 1 else 0) ≤ M p := by
      intro p
      split
      · next hp => exact marked p hp
      · exact Nat.zero_le _
    refine ⟨enabled, fun p => ?_, fun p hp => ?_⟩
    · have := enabled p
      simp only [move, OrderedSet.mem_def]
      omega
    · have hp : p ∈ x.outputs.toList := put_move_pos.1 hp
      have := room p hp
      rw [if_pos hp]
      omega

namespace Run

variable {s s' : Session} {t : TransitionId} {x : Transition}

theorem known_afterTaking (wf : s.net.WellFormed) (hx : s.net.transition? t = some x)
    (M : PlaceId → ℕ) : ∀ p ∈ x.outputs.toList, p ∈ (s.net.withTokens M).places.keys := by
  intro p hp
  rw [Net.keys_places_withTokens]
  exact (wf.admits hx).outputs p hp

theorem room_afterTaking (wf : s.net.WellFormed) (hx : s.net.transition? t = some x)
    {M : PlaceId → ℕ} : (∀ p ∈ x.outputs.toList, (s.net.withTokens M).tokens p < Place.capacity) ↔
      ∀ p ∈ x.outputs.toList, M p < Place.capacity := by
  refine forall₂_congr fun p hp => ?_
  rw [Net.tokens_withTokens, if_pos ((wf.admits hx).outputs p hp)]

theorem withTokens_afterTaking (net : Net) (M N : PlaceId → ℕ) :
    (net.withTokens M).withTokens (fun p => (net.withTokens M).tokens p + N p) =
      net.withTokens fun p => M p + N p := by
  rw [Net.withTokens_withTokens]
  refine Net.withTokens_congr fun p hp => ?_
  rw [Net.tokens_withTokens, if_pos hp]

theorem fires_of_run_fire (wf : s.net.WellFormed) (h : (fire t).run s = .ok () s') :
    ∃ M, s.net.game.Fires s.net.tokens t M ∧
      s' = { s with net := s.net.withTokens M, journal := s.journal.push (.fired t) } := by
  obtain ⟨_, _, hn, h⟩ := bind_eq_ok.1 h
  obtain ⟨rfl, rfl⟩ := net_eq_ok.1 hn
  rcases hx : s.net.transition? t with _ | x
  · rw [hx] at h
    cases h
  rw [hx] at h
  dsimp only at h
  rcases hmissing : x.inputs.toList.find? (fun p => !s.net.isMarked p) with _ | p
  swap
  · rw [hmissing] at h
    cases h
  rw [hmissing] at h
  have marked : ∀ p ∈ x.inputs.toList, 0 < s.net.tokens p := fun p hp =>
    Net.isMarked_iff.1 (by simpa using List.find?_eq_none.1 hmissing p hp)
  obtain ⟨_, s₁, htake, h⟩ := bind_eq_ok.1 h
  obtain ⟨_, s₂, hput, h⟩ := bind_eq_ok.1 h
  have htake := (run_forM_takeToken x.inputs.nodup marked).symm.trans htake
  obtain rfl := (EStateM.Result.ok.inj htake).2
  have known := known_afterTaking wf hx
    fun p => s.net.tokens p - if p ∈ x.inputs.toList then 1 else 0
  have room := room_of_forM_putToken x.outputs.nodup known hput
  have hput := (run_forM_putToken x.outputs.nodup known room).symm.trans hput
  obtain rfl := (EStateM.Result.ok.inj hput).2
  have fires := Transition.fires_iff.2 ⟨marked, (room_afterTaking wf hx).1 room, rfl⟩
  refine ⟨_, ⟨x.move, Net.game_eq_some hx, fires⟩, ?_⟩
  rw [record_eq_ok.1 h]
  dsimp only
  rw [withTokens_afterTaking]

theorem run_fire_of_fires (wf : s.net.WellFormed) {M : PlaceId → ℕ}
    (h : s.net.game.Fires s.net.tokens t M) : (fire t).run s = .ok () { s with
      net := s.net.withTokens M, journal := s.journal.push (.fired t) } := by
  obtain ⟨m, hm, fires⟩ := h
  obtain ⟨x, hx, rfl⟩ := Option.map_eq_some_iff.1 hm
  obtain ⟨marked, room, rfl⟩ := Transition.fires_iff.1 fires
  have missing : x.inputs.toList.find? (fun p => !s.net.isMarked p) = none :=
    List.find?_eq_none.2 fun p hp => by simpa using Net.isMarked_iff.2 (marked p hp)
  refine bind_eq_ok.2 ⟨_, _, net_eq_ok.2 ⟨rfl, rfl⟩, ?_⟩
  rw [hx]
  dsimp only
  rw [missing]
  refine bind_eq_ok.2 ⟨_, _, run_forM_takeToken x.inputs.nodup marked, ?_⟩
  refine bind_eq_ok.2 ⟨_, _, run_forM_putToken x.outputs.nodup (known_afterTaking wf hx _)
    ((room_afterTaking wf hx).2 room), ?_⟩
  refine record_eq_ok.2 ?_
  dsimp only
  rw [withTokens_afterTaking]

end Run

namespace Net

/-- The net after firing a transition whatever its guard says, if that succeeds. -/
def force? (net : Net) (t : TransitionId) : Option Net :=
  match (Run.fire t).run (.start net) with
  | .ok _ s => some s.net
  | .error _ _ => none

def forceAll? (net : Net) : List TransitionId → Option Net
  | [] => some net
  | t :: ts => (net.force? t).bind fun next => next.forceAll? ts

variable {net net' : Net} {t : TransitionId} {ts : List TransitionId} {M N : PlaceId → ℕ}

theorem force?_eq_some (wf : net.WellFormed) :
    net.force? t = some net' ↔
      ∃ M, net.game.Fires net.tokens t M ∧ net' = net.withTokens M := by
  constructor
  · intro h
    rw [force?] at h
    rcases hs : (Run.fire t).run (.start net) with ⟨_, s⟩ | ⟨e, s⟩ <;> rw [hs] at h
    · obtain ⟨M, fires, rfl⟩ := Run.fires_of_run_fire (s := .start net) wf hs
      exact ⟨M, fires, (Option.some.inj h).symm⟩
    · cases h
  · rintro ⟨M, fires, rfl⟩
    rw [force?, Run.run_fire_of_fires (s := .start net) wf fires]
    rfl

theorem WellFormed.support (wf : net.WellFormed) (fires : net.game.Fires M t N)
    (hM : ∀ p ∉ net.places.keys, M p = 0) : ∀ p ∉ net.places.keys, N p = 0 := by
  intro p hp
  obtain ⟨m, hm, fires⟩ := fires
  obtain ⟨x, hx, rfl⟩ := Option.map_eq_some_iff.1 hm
  have balance := fires.balance p
  have absent : p ∉ x.outputs := fun mem => hp ((wf.admits hx).outputs p mem)
  simp only [Transition.move, absent, if_false] at balance
  have := hM p hp
  omega

theorem WellFormed.tokens_of_fires (wf : net.WellFormed) (fires : net.game.Fires net.tokens t M) :
    (net.withTokens M).tokens = M :=
  tokens_withTokens_of_support (wf.support fires fun _ => tokens_of_not_mem)

theorem WellFormed.support_runs (wf : net.WellFormed) {ok : (PlaceId → ℕ) → Prop}
    (run : net.game.RunsWhile ok M ts N) (hM : ∀ p ∉ net.places.keys, M p = 0) :
    ∀ p ∉ net.places.keys, N p = 0 := by
  induction run with
  | nil => exact hM
  | cons _ fires _ ih => exact ih (wf.support fires hM)

theorem forceAll?_eq_some (wf : net.WellFormed) :
    net.forceAll? ts = some net' ↔
      ∃ M, net.game.Runs net.tokens ts M ∧ net' = net.withTokens M := by
  induction ts generalizing net with
  | nil =>
    constructor
    · intro h
      exact ⟨net.tokens, .nil trivial, by simpa [forceAll?, eq_comm] using h⟩
    · rintro ⟨M, h, rfl⟩
      cases h
      rw [forceAll?, withTokens_tokens]
  | cons t ts ih =>
    rw [forceAll?, Option.bind_eq_some_iff]
    constructor
    · rintro ⟨next, h, rest⟩
      obtain ⟨M, fires, rfl⟩ := (force?_eq_some wf).1 h
      obtain ⟨N, run, rfl⟩ := (ih (wf.withTokens M)).1 rest
      rw [wf.tokens_of_fires fires, game_withTokens] at run
      exact ⟨N, .cons trivial fires run, withTokens_withTokens⟩
    · rintro ⟨N, h, rfl⟩
      cases h with
      | @cons _ M _ _ _ _ fires run =>
        refine ⟨net.withTokens M, (force?_eq_some wf).2 ⟨M, fires, rfl⟩, ?_⟩
        refine (ih (wf.withTokens M)).2 ⟨N, ?_, withTokens_withTokens.symm⟩
        rwa [wf.tokens_of_fires fires, game_withTokens]

end Net

end ProcessNet
