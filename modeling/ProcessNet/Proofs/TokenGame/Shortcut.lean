import ProcessNet.Proofs.TokenGame.Collecting
import ProcessNet.Proofs.TokenGame.Skeleton

/-!
A move taken out of a game. The move passes tokens on from `p` to `q` and is the only one that takes
from `p`, so tokens on `p` are as good as tokens on `q`: runs are compared by the markings in which
what lies on `p` is counted on `q`. A run loses the move and stays a run as long as no other move puts
on both places at once, where only one token would be left of two, and the counts together have room
on one place. In the other direction the move is made up for at once whenever something is put on `p`.
In a sound game with at most one token a place no move puts on both, and what is left is as sound.
-/

namespace ProcessNet

variable {P T : Type} [DecidableEq P]

/-- The counts with those of `p` on `q`. -/
def lump (p q : P) (M : P → ℕ) : P → ℕ := fun r =>
  if r = p then 0 else if r = q then M q + M p else M r

def held (p q : P) (N : P → ℕ) : P → ℕ := fun r =>
  if r = p then 1 else if r = q then N q - 1 else N r

section Lump

variable {p q r : P} {M : P → ℕ}

theorem lump_here (p q : P) (M : P → ℕ) : lump p q M p = 0 := if_pos rfl

theorem lump_there (ne : p ≠ q) : lump p q M q = M q + M p := by
  rw [lump, if_neg ne.symm, if_pos rfl]

theorem lump_elsewhere (hp : r ≠ p) (hq : r ≠ q) : lump p q M r = M r := by
  rw [lump, if_neg hp, if_neg hq]

theorem held_here (p q : P) (N : P → ℕ) : held p q N p = 1 := if_pos rfl

theorem held_there (ne : p ≠ q) (N : P → ℕ) : held p q N q = N q - 1 := by
  rw [held, if_neg ne.symm, if_pos rfl]

theorem held_elsewhere (N : P → ℕ) (hp : r ≠ p) (hq : r ≠ q) : held p q N r = N r := by
  rw [held, if_neg hp, if_neg hq]

theorem held_lump (ne : p ≠ q) (one : M p = 1) : held p q (lump p q M) = M := by
  funext r
  by_cases hp : r = p
  · rw [hp, held_here, one]
  · by_cases hq : r = q
    · rw [hq, held_there ne, lump_there ne, one, Nat.add_sub_cancel]
    · rw [held_elsewhere _ hp hq, lump_elsewhere hp hq]

theorem lump_held {N : P → ℕ} (ne : p ≠ q) (none : N p = 0) (some : 0 < N q) :
    lump p q (held p q N) = N := by
  funext r
  by_cases hp : r = p
  · rw [hp, lump_here, none]
  · by_cases hq : r = q
    · rw [hq, lump_there ne, held_there ne, held_here]
      omega
    · rw [lump_elsewhere hp hq, held_elsewhere N hp hq]

theorem lump_eq_self (h : M p = 0) : lump p q M = M := by
  funext r
  by_cases hp : r = p
  · rw [hp, lump_here, h]
  · by_cases hq : r = q
    · rw [hq, lump_there (fun eq => hp (hq.trans eq.symm)), h, Nat.add_zero]
    · exact lump_elsewhere hp hq

theorem lump_add (p q : P) (M N : P → ℕ) : lump p q (M + N) = lump p q M + lump p q N := by
  funext r
  simp only [lump, Pi.add_apply]
  split
  · rfl
  · split <;> omega

theorem lump_balance (ne : p ≠ q) (M : P → ℕ) (r : P) :
    lump p q M r + (Pi.single p (M p) : P → ℕ) r = M r + (Pi.single q (M p) : P → ℕ) r := by
  by_cases hp : r = p
  · subst hp
    rw [lump_here, Pi.single_eq_same, Pi.single_eq_of_ne ne]
    omega
  · rw [Pi.single_eq_of_ne hp]
    by_cases hq : r = q
    · subst hq
      rw [lump_there ne, Pi.single_eq_same]
      omega
    · rw [lump_elsewhere hp hq, Pi.single_eq_of_ne hq]

theorem lump_le_capacity (one : ∀ r, M r ≤ 1) (r : P) : lump p q M r ≤ Place.capacity := by
  have := one p
  have := one q
  have := one r
  rw [lump, Place.capacity_value]
  split
  · omega
  · split <;> omega

theorem sum_lump (ne : p ≠ q) {L : Finset P} (hp : p ∈ L) (hq : q ∈ L) (M : P → ℕ) :
    ∑ r ∈ L, lump p q M r = ∑ r ∈ L, M r := by
  have balance := Finset.sum_congr (rfl : L = L) fun r _ => lump_balance ne M r
  rw [Finset.sum_add_distrib, Finset.sum_add_distrib, Finset.sum_pi_single', Finset.sum_pi_single',
    if_pos hp, if_pos hq] at balance
  omega

end Lump

namespace Game

/-- The second game is the first without the move `t`, which passes tokens on from `p` to `q`. -/
structure Shortcut (G H : Game P T) (t : T) (p q : P) : Prop where
  ne : p ≠ q
  passes : G t = some (.ofLists [p] [q])
  gone : H t = none
  sends : ∀ u m, u ≠ t → G u = some m → ∃ m', H u = some m' ∧ m'.take = m.take
  onto : ∀ u m', H u = some m' → ∃ m, G u = some m
  only : ∀ u m, u ≠ t → G u = some m → m.take p = 0
  single : ∀ u m, G u = some m → m.put p ≤ 1

/-- What the move puts on the places is put on the places that are left. -/
def KeepsPuts (G H : Game P T) (p q : P) (u : T) : Prop :=
  ∀ m m', G u = some m → H u = some m' → m'.put = lump p q m.put

/-- The counts on the listed places together have room on one place. -/
def Holds (L : Finset P) (M : P → ℕ) : Prop := ∑ p ∈ L, M p ≤ Place.capacity

namespace Shortcut

variable {G H : Game P T} {t u : T} {ts : List T} {p q : P} {M N : P → ℕ}
  (h : G.Shortcut H t p q)

include h

theorem survives {m : Move P} (hu : u ≠ t) (hm : G u = some m) : H.known u = true := by
  obtain ⟨m', hm', -⟩ := h.sends u m hu hm
  exact known_of_eq_some hm'

theorem not_known : ¬H.known t = true := by
  rw [known, h.gone]
  exact Bool.false_ne_true

theorem ne_of_survives {m' : Move P} (hm' : H u = some m') : u ≠ t := by
  rintro rfl
  rw [h.gone] at hm'
  cases hm'

theorem collects (keeps : ∀ u ∈ ts, G.KeepsPuts H p q u) : G.Collects H (lump p q) ts where
  add := lump_add p q
  made u hu m' hm' := by
    obtain ⟨m, hm⟩ := h.onto u m' hm'
    have ne := h.ne_of_survives hm'
    obtain ⟨_, eq, take⟩ := h.sends u m ne hm
    obtain rfl := Option.some.inj (hm'.symm.trans eq)
    exact ⟨m, hm, by rw [take, lump_eq_self (h.only u m ne hm)], keeps u hu m m' hm hm'⟩
  gone u _ m hm none := by
    obtain rfl : u = t := by
      by_contra hu
      exact absurd (h.survives hu hm) (by simp [known, none])
    obtain rfl := Option.some.inj (h.passes.symm.trans hm)
    have ne := h.ne
    funext r
    by_cases hp : r = p
    · rw [hp, lump_here, lump_here]
    · by_cases hq : r = q
      · simp [hq, lump_there ne, Move.ofLists, ne, ne.symm]
      · simp [lump_elsewhere hp hq, Move.ofLists, hp, hq]

theorem keepsPuts_self : G.KeepsPuts H p q t := fun _ _ _ hm' =>
  absurd rfl (h.ne_of_survives hm')

theorem lump_passes (fires : G.Fires M t N) : lump p q N = lump p q M :=
  (h.collects (List.forall_mem_singleton.2 h.keepsPuts_self)).stays (List.mem_singleton_self t) fires
    h.not_known

theorem fires_lump (hu : u ≠ t) (keeps : G.KeepsPuts H p q u) (fires : G.Fires M u N)
    (room : Roomy (lump p q N)) : H.Fires (lump p q M) u (lump p q N) := by
  have ⟨m, hm, _⟩ := fires
  exact (h.collects (List.forall_mem_singleton.2 keeps)).fires (List.mem_singleton_self u) fires
    (h.survives hu hm) room

theorem fires_held {m : Move P} (hu : u ≠ t) (hm : G u = some m) (one : m.put p = 1)
    (none : M p = 0) (fires : Move.Fires ⟨m.take, lump p q m.put⟩ M N) :
    0 < N q ∧ G.Fires M u (held p q N) := by
  obtain ⟨enabled, balance, fits⟩ := fires
  dsimp only at enabled balance fits
  have only := h.only u m hu hm
  have ne := h.ne
  have at_q := balance q
  have enabled_q := enabled q
  have fits_q := fits q (by rw [lump_there ne]; omega)
  rw [lump_there ne, one] at at_q
  refine ⟨by omega, m, hm, enabled, fun r => ?_, fun r hr => ?_⟩
  · by_cases hp : r = p
    · rw [hp, held_here, only, none, one]
    · by_cases hq : r = q
      · rw [hq, held_there ne]
        omega
      · have := balance r
        rwa [lump_elsewhere hp hq, ← held_elsewhere N hp hq] at this
  · by_cases hp : r = p
    · rw [hp, held_here, Place.capacity_value]
      omega
    · by_cases hq : r = q
      · rw [hq, held_there ne]
        omega
      · rw [held_elsewhere N hp hq]
        exact fits r (by rwa [lump_elsewhere hp hq])

theorem passes_held (none : N p = 0) (some : 0 < N q) (room : N q ≤ Place.capacity) :
    G.Fires (held p q N) t N := by
  have ne := h.ne
  refine ⟨_, h.passes, fun r => ?_, fun r => ?_, fun r hr => ?_⟩
  · by_cases hp : r = p
    · simp [hp, held_here, Move.ofLists]
    · simp [hp, Move.ofLists]
  · by_cases hp : r = p
    · simp [hp, held_here, ne, none, Move.ofLists]
    · by_cases hq : r = q
      · simp only [hq, held_there ne, ne.symm, Move.ofLists, List.mem_singleton, if_true, if_false]
        omega
      · simp [hp, hq, held_elsewhere N hp hq, Move.ofLists]
  · have hq : r = q := by
      by_contra hq
      simp [hq, Move.ofLists] at hr
    rwa [hq]

theorem fires_unpassed (keeps : G.KeepsPuts H p q u) (fires : H.Fires M u N) (none : M p = 0) :
    N p = 0 ∧ (G.Fires M u N ∨ 0 < N q ∧ N q ≤ Place.capacity ∧ G.Fires M u (held p q N)) := by
  obtain ⟨m', hm', fires⟩ := fires
  obtain ⟨m, hm⟩ := h.onto u m' hm'
  have hu := h.ne_of_survives hm'
  obtain ⟨m'', hm'', take⟩ := h.sends u m hu hm
  obtain rfl := Option.some.inj (hm'.symm.trans hm'')
  have same : m' = ⟨m.take, lump p q m.put⟩ := congrArg₂ Move.mk take (keeps m m' hm hm')
  rw [same] at fires
  refine ⟨?_, ?_⟩
  · have := fires.balance p
    simp only [lump_here] at this
    omega
  · rcases Nat.eq_zero_or_pos (m.put p) with zero | pos
    · rw [lump_eq_self zero] at fires
      exact .inl ⟨m, hm, fires⟩
    -- of the tokens that it puts on `q` now, one was meant for `p`
    · have one : m.put p = 1 := Nat.le_antisymm (h.single u m hm) pos
      have room : N q ≤ Place.capacity := fires.fits q (by simp only [lump_there h.ne]; omega)
      obtain ⟨some, first⟩ := h.fires_held hu hm one none fires
      exact .inr ⟨some, room, first⟩

theorem exists_fires_lump (keeps : G.KeepsPuts H p q u) (fires : H.Fires M u N) (none : M p = 0) :
    ∃ O, G.Fires M u O ∧ lump p q O = N := by
  obtain ⟨none', first | ⟨some, -, first⟩⟩ := h.fires_unpassed keeps fires none
  · exact ⟨N, first, lump_eq_self none'⟩
  · exact ⟨held p q N, first, lump_held h.ne none' some⟩

theorem passes_all (room : ∀ r, M r ≤ Place.capacity) (together : M q + M p ≤ Place.capacity) :
    G.Runs M (List.replicate (M p) t) (lump p q M) := by
  have ne := h.ne
  have taken : ∀ r, G.taken (List.replicate (M p) t) r = if r = p then M p else 0 := fun r => by
    simp [Game.taken, h.passes, Move.ofLists]
  have given : ∀ r, G.given (List.replicate (M p) t) r = if r = q then M p else 0 := fun r => by
    simp [Game.given, h.passes, Move.ofLists]
  have known : ∀ u ∈ List.replicate (M p) t, ∃ m, G u = some m := fun u hu =>
    ⟨_, (List.eq_of_mem_replicate hu) ▸ h.passes⟩
  have run := Game.runs_together known (M := M) (fun r => ?_) fun r => ?_
  · have last : (fun r => M r - G.taken (List.replicate (M p) t) r +
        G.given (List.replicate (M p) t) r) = lump p q M := by
      funext r
      rw [taken, given]
      by_cases hp : r = p
      · simp [hp, ne, lump_here]
      · by_cases hq : r = q
        · simp [hq, ne.symm, lump_there ne]
        · simp [hp, hq, lump_elsewhere hp hq]
    rwa [last] at run
  · rw [taken]
    by_cases hp : r = p
    · rw [if_pos hp, hp]
    · rw [if_neg hp]
      exact Nat.zero_le _
  · rw [given]
    by_cases hq : r = q
    · rwa [if_pos hq, hq]
    · rw [if_neg hq]
      exact room r

theorem fires_back (keeps : G.KeepsPuts H p q u) (fires : H.Fires M u N) (none : M p = 0) :
    N p = 0 ∧ ∃ us, G.Runs M us N ∧ us.filter H.known = [u] := by
  have ⟨_, left, _⟩ := fires
  have kept : H.known u = true := known_of_eq_some left
  obtain ⟨none', first | ⟨some, room, first⟩⟩ := h.fires_unpassed keeps fires none
  · exact ⟨none', [u], .cons trivial first (.nil trivial), List.filter_cons_of_pos kept⟩
  · have second := h.passes_held none' some room
    refine ⟨none', [u, t], .cons trivial first (.cons trivial second (.nil trivial)), ?_⟩
    rw [List.filter_cons_of_pos kept, List.filter_cons_of_neg h.not_known, List.filter_nil]

theorem runs_back (keeps : ∀ u ∈ ts, G.KeepsPuts H p q u) (run : H.Runs M ts N)
    (none : M p = 0) : ∃ us, G.Runs M us N ∧ us.filter H.known = ts := by
  induction run with
  | nil _ => exact ⟨[], .nil trivial, rfl⟩
  | @cons _ _ _ u rest _ fires _ ih =>
    obtain ⟨first, later⟩ := List.forall_mem_cons.1 keeps
    obtain ⟨none', us, run, kept⟩ := h.fires_back first fires none
    obtain ⟨vs, run', kept'⟩ := ih later none'
    refine ⟨us ++ vs, run.append run', ?_⟩
    rw [List.filter_append, kept, kept', List.singleton_append]

theorem reaches_back (keeps : ∀ u, G.KeepsPuts H p q u) (reach : H.Reaches M N) (none : M p = 0) :
    N p = 0 ∧ G.Reaches M N := by
  refine reach.invariant (I := fun N => N p = 0 ∧ G.Reaches M N) ⟨none, .refl M⟩
    fun N u O before fires => ?_
  obtain ⟨none, us, run, -⟩ := h.fires_back (keeps u) fires before.1
  exact ⟨none, before.2.trans ⟨us, run⟩⟩

section Sound

variable {source sink : P} (whole : G.Sound source sink)

include whole

/-- No move puts on `p` and on `q`: it could be made, and one token passed on from `p` would be the
second on `q`. -/
theorem puts_apart {m : Move P} (hm : G u = some m) : ¬(0 < m.put p ∧ 0 < m.put q) := by
  rintro ⟨put_p, put_q⟩
  obtain ⟨M, N, reach, fires⟩ := whole.live u m hm
  have reach_N : G.Reaches (Pi.single source 1) N := reach.trans (.step ⟨m, hm, fires⟩)
  have ne := h.ne
  have hu : u ≠ t := by
    rintro rfl
    obtain rfl := Option.some.inj (h.passes.symm.trans hm)
    simp [Move.ofLists, ne] at put_p
  have safe := whole.safe N reach_N
  have one : N p = 1 := by
    have := fires.balance p
    have := h.only u m hu hm
    have := safe p
    omega
  have marked : 0 < N q := by
    have := fires.balance q
    have := fires.enabled q
    omega
  have two : lump p q N q = N q + 1 := by rw [lump_there ne, one]
  have passed := h.passes_held (lump_here p q N) (two ▸ Nat.succ_pos _) (lump_le_capacity safe q)
  rw [held_lump ne one] at passed
  have := whole.safe _ (reach_N.trans (.step passed)) q
  omega

theorem runs_of_sound (keeps : ∀ u, G.KeepsPuts H p q u) (reach : G.Reaches (Pi.single source 1) M)
    (run : G.Runs M ts N) : H.Runs (lump p q M) (ts.filter H.known) (lump p q N) := by
  have safe : G.RunsWhile (fun M => ∀ r, M r ≤ 1) M ts N :=
    run.along fun us O _ run => whole.safe O (reach.trans ⟨us, run⟩)
  have room : ∀ M : P → ℕ, (∀ r, M r ≤ 1) → Roomy (lump p q M) := fun _ => lump_le_capacity
  exact ((h.collects fun u _ => keeps u).runs_iff run (room M safe.start)).2 (safe.mono room)

theorem sound (keeps : ∀ u, G.KeepsPuts H p q u) (not_source : p ≠ source) (not_sink : p ≠ sink) :
    H.Sound source sink := by
  have empty_source : (Pi.single source 1 : P → ℕ) p = 0 := Pi.single_eq_of_ne not_source 1
  have empty_sink : (Pi.single sink 1 : P → ℕ) p = 0 := Pi.single_eq_of_ne not_sink 1
  have back := fun {M} (reach : H.Reaches (Pi.single source 1) M) =>
    h.reaches_back keeps reach empty_source
  constructor
  · intro u m' hm'
    obtain ⟨m, hm⟩ := h.onto u m' hm'
    obtain ⟨m'', hm'', take⟩ := h.sends u m (h.ne_of_survives hm') hm
    obtain rfl := Option.some.inj (hm'.symm.trans hm'')
    rw [take]
    exact whole.takes u m hm
  · exact fun M reach => whole.safe M (back reach).2
  · exact fun M reach => whole.proper M (back reach).2
  · intro M reach
    obtain ⟨none, reach⟩ := back reach
    obtain ⟨ts, run⟩ := whole.completes M reach
    have run := h.runs_of_sound whole keeps reach run
    rw [lump_eq_self none, lump_eq_self empty_sink] at run
    exact ⟨_, run⟩
  · intro u m' hm'
    obtain ⟨m, hm⟩ := h.onto u m' hm'
    obtain ⟨M, N, reach, fires⟩ := whole.live u m hm
    have room := lump_le_capacity (p := p) (q := q)
      (whole.safe N (reach.trans (.step ⟨m, hm, fires⟩)))
    obtain ⟨m'', hm'', fires'⟩ :=
      h.fires_lump (h.ne_of_survives hm') (keeps u) ⟨m, hm, fires⟩ room
    obtain rfl := Option.some.inj (hm'.symm.trans hm'')
    obtain ⟨ts, run⟩ := reach
    have run := h.runs_of_sound whole keeps (.refl _) run
    rw [lump_eq_self empty_source] at run
    exact ⟨lump p q M, lump p q N, ⟨_, run⟩, fires'⟩

end Sound

end Shortcut

end Game

end ProcessNet
