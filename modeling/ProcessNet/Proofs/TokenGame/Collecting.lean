import ProcessNet.Proofs.TokenGame.Basic

/-!
Games compared by a map of markings that adds up. What the second game does along the listed moves is
what the first one does, counted so: a move that is left takes and puts the counts of what it took
and put, and a move that is gone has changed no counts. A run of the first game, without the moves
that are gone, is then a run of the second one exactly when the counts have room all along.
-/

namespace ProcessNet.Game

variable {P T : Type} {G H K : Game P T} {c d : (P → ℕ) → P → ℕ} {M N O : P → ℕ} {t : T}
  {ts us : List T}

def Roomy (M : P → ℕ) : Prop := ∀ p, M p ≤ Place.capacity

theorem roomy_single [DecidableEq P] (p : P) : Roomy (Pi.single p 1) := fun r => by
  rw [Pi.single_apply, Place.capacity_value]
  split <;> omega

theorem Reaches.roomy (h : G.Reaches M N) (start : Roomy M) : Roomy N := by
  refine h.invariant start fun M t N room fires p => ?_
  obtain ⟨m, -, -, balance, fits⟩ := fires
  have := balance p
  have := room p
  rcases Nat.eq_zero_or_pos (m.put p) with zero | pos
  · omega
  · exact fits p pos

/-- Along the listed moves the second game does what the first one does, counted by `c`. -/
structure Collects (G H : Game P T) (c : (P → ℕ) → P → ℕ) (ts : List T) : Prop where
  add : ∀ M N, c (M + N) = c M + c N
  made : ∀ t ∈ ts, ∀ m', H t = some m' →
    ∃ m, G t = some m ∧ m'.take = c m.take ∧ m'.put = c m.put
  gone : ∀ t ∈ ts, ∀ m, G t = some m → H t = none → c m.put = c m.take

namespace Collects

theorem refl (G : Game P T) (ts : List T) : G.Collects G id ts where
  add _ _ := rfl
  made _ _ m hm := ⟨m, hm, rfl, rfl⟩
  gone _ _ _ hm none := by rw [hm] at none; cases none

theorem trans (h : G.Collects H c ts) (h' : H.Collects K d ts) :
    G.Collects K (fun M => d (c M)) ts where
  add M N := by rw [h.add, h'.add]
  made t ht m'' hm'' := by
    obtain ⟨m', hm', take', put'⟩ := h'.made t ht m'' hm''
    obtain ⟨m, hm, take, put⟩ := h.made t ht m' hm'
    exact ⟨m, hm, by rw [take', take], by rw [put', put]⟩
  gone t ht m hm none := by
    rcases hm' : H t with _ | m'
    · rw [h.gone t ht m hm hm']
    · obtain ⟨_, eq, take, put⟩ := h.made t ht m' hm'
      obtain rfl := Option.some.inj (hm.symm.trans eq)
      rw [← take, ← put, h'.gone t ht m' hm' none]

theorem mono (h : G.Collects H c ts) (sub : us ⊆ ts) : G.Collects H c us where
  add := h.add
  made t ht := h.made t (sub ht)
  gone t ht := h.gone t (sub ht)

variable (h : G.Collects H c ts)

include h

theorem balance {m : Move P} (fires : m.Fires M N) : c N + c m.take = c M + c m.put := by
  rw [← h.add, ← h.add]
  exact congrArg c (funext fires.balance)

theorem stays (ht : t ∈ ts) (fires : G.Fires M t N) (gone : ¬H.known t = true) : c N = c M := by
  obtain ⟨m, hm, fires⟩ := fires
  have none : H t = none := by rwa [known, Option.isSome_iff_ne_none, not_not] at gone
  have balance := h.balance fires
  rw [h.gone t ht m hm none] at balance
  exact add_right_cancel balance

theorem fires (ht : t ∈ ts) (fires : G.Fires M t N) (left : H.known t = true)
    (room : Roomy (c N)) : H.Fires (c M) t (c N) := by
  obtain ⟨m', hm'⟩ := Option.isSome_iff_exists.1 left
  obtain ⟨m, hm, fires⟩ := fires
  obtain ⟨_, eq, take, put⟩ := h.made t ht m' hm'
  obtain rfl := Option.some.inj (hm.symm.trans eq)
  have balance := h.balance fires
  rw [← take, ← put] at balance
  refine ⟨m', hm', fun p => ?_, congrFun balance, fun p _ => room p⟩
  -- the counts of what is taken are part of the counts of all
  have rest : m.take + (M - m.take) = M := funext fun p => Nat.add_sub_cancel' (fires.enabled p)
  have whole := congrFun (h.add m.take (M - m.take)) p
  rw [rest, ← take, Pi.add_apply] at whole
  omega

theorem roomy_of_fires (ht : t ∈ ts) (fires : G.Fires M t N) (fires' : H.Fires (c M) t O)
    (room : Roomy (c M)) : O = c N ∧ Roomy (c N) := by
  obtain ⟨m', hm', _, balance', fits⟩ := fires'
  obtain ⟨m, hm, fires⟩ := fires
  obtain ⟨_, eq, take, put⟩ := h.made t ht m' hm'
  obtain rfl := Option.some.inj (hm.symm.trans eq)
  have balance := h.balance fires
  rw [← take, ← put] at balance
  have same : O = c N := add_right_cancel ((funext balance').trans balance.symm)
  refine ⟨same, fun p => ?_⟩
  rcases Nat.eq_zero_or_pos (m'.put p) with zero | pos
  · have := congrFun balance p
    have := room p
    simp only [Pi.add_apply] at *
    omega
  · exact same ▸ fits p pos

/-- A run, without the moves that are gone, stays one exactly when the counts have room all along. -/
theorem runs_iff (run : G.Runs M ts N) (room : Roomy (c M)) :
    H.Runs (c M) (ts.filter H.known) (c N) ↔ G.RunsWhile (fun M => Roomy (c M)) M ts N := by
  induction run with
  | nil _ => exact ⟨fun _ => .nil room, fun _ => .nil trivial⟩
  | @cons M N O t rest _ fires _ ih =>
    have ih := ih (h.mono (List.subset_cons_self t rest))
    by_cases left : H.known t = true
    · rw [List.filter_cons_of_pos left]
      constructor
      · rintro (_ | ⟨-, fires', later⟩)
        obtain ⟨rfl, room'⟩ := h.roomy_of_fires List.mem_cons_self fires fires' room
        exact .cons room fires ((ih room').1 later)
      · rintro (_ | ⟨-, fires', later⟩)
        obtain rfl := fires.unique fires'
        have first := h.fires List.mem_cons_self fires left later.start
        exact .cons trivial first ((ih later.start).2 later)
    · have same := h.stays List.mem_cons_self fires left
      rw [List.filter_cons_of_neg left, ← same, ih (by rwa [same])]
      constructor
      · exact .cons room fires
      · rintro (_ | ⟨-, fires', later⟩)
        obtain rfl := fires.unique fires'
        exact later

end Collects

end ProcessNet.Game
