import ProcessNet.Net.Basic
import ProcessNet.Proofs.TokenGame.Basic

/-!
The token game of a net. The marking is read as a function of places, zero where the net has no such
place, and replacing all counts at once leaves everything else of the net alone. Arcs become moves:
one token is taken from every input and one put on every output, and a place that is both keeps its
count.
-/

namespace ProcessNet

def Transition.move (x : Transition) : Move PlaceId where
  take p := if p ∈ x.inputs then 1 else 0
  put p := if p ∈ x.outputs then 1 else 0

theorem Transition.take_move_pos {x : Transition} {p : PlaceId} :
    0 < x.move.take p ↔ p ∈ x.inputs := by
  by_cases h : p ∈ x.inputs <;> simp [move, h]

theorem Transition.put_move_pos {x : Transition} {p : PlaceId} :
    0 < x.move.put p ↔ p ∈ x.outputs := by
  by_cases h : p ∈ x.outputs <;> simp [move, h]

namespace Net

def tokens (net : Net) (p : PlaceId) : ℕ := (net.place? p).elim 0 Place.tokens

def withTokens (net : Net) (M : PlaceId → ℕ) : Net :=
  { net with places := net.places.mapValues fun p x => { x with tokens := M p } }

def game (net : Net) : Game PlaceId TransitionId := fun t => (net.transition? t).map Transition.move

variable {net : Net} {M N : PlaceId → ℕ} {p : PlaceId} {t : TransitionId} {x : Place}

theorem game_eq_some {y : Transition} (h : net.transition? t = some y) :
    net.game t = some y.move := by
  rw [game, h, Option.map_some]

theorem tokens_of_place? (h : net.place? p = some x) : net.tokens p = x.tokens := by
  rw [tokens, h, Option.elim_some]

theorem tokens_of_not_mem (h : p ∉ net.places.keys) : net.tokens p = 0 := by
  rw [tokens, place?, OrderedMap.get?_eq_none.2 h, Option.elim_none]

theorem tokens_le_of_places {n : ℕ} (few : ∀ x ∈ net.places.values, x.tokens ≤ n) (p : PlaceId) :
    net.tokens p ≤ n := by
  cases hx : net.place? p with
  | none =>
    rw [tokens, hx, Option.elim_none]
    exact Nat.zero_le n
  | some x =>
    rw [tokens_of_place? hx]
    exact few x (OrderedMap.mem_values.2 ⟨p, hx⟩)

theorem isMarked_iff : net.isMarked p ↔ 0 < net.tokens p := by
  rw [isMarked, tokens]
  cases net.place? p <;> simp

theorem isEnabled_iff {x : Transition} :
    net.isEnabled x = true ↔ ∀ p ∈ x.inputs, 0 < net.tokens p := by
  simp only [isEnabled, List.all_eq_true, isMarked_iff]
  rfl

@[simp] theorem transitions_withTokens : (net.withTokens M).transitions = net.transitions := rfl

@[simp] theorem vars_withTokens : (net.withTokens M).vars = net.vars := rfl

@[simp] theorem game_withTokens : (net.withTokens M).game = net.game := rfl

theorem place?_withTokens :
    (net.withTokens M).place? p = (net.place? p).map fun x => { x with tokens := M p } :=
  OrderedMap.get?_mapValues _ _ _

theorem place?_withTokens_of_place? (h : net.place? p = some x) :
    (net.withTokens M).place? p = some { x with tokens := M p } := by
  rw [place?_withTokens, h, Option.map_some]

@[simp] theorem keys_places_withTokens : (net.withTokens M).places.keys = net.places.keys :=
  OrderedMap.keys_mapValues _ _

theorem tokens_withTokens :
    (net.withTokens M).tokens p = if p ∈ net.places.keys then M p else 0 := by
  split
  · next h =>
    obtain ⟨x, hx⟩ := OrderedMap.mem_keys.1 h
    exact tokens_of_place? (place?_withTokens_of_place? hx)
  · next h => exact tokens_of_not_mem (by simpa using h)

theorem tokens_withTokens_of_support (support : ∀ p ∉ net.places.keys, M p = 0) :
    (net.withTokens M).tokens = M := by
  funext p
  rw [tokens_withTokens]
  split
  · rfl
  · next h => exact (support p h).symm

@[simp] theorem withTokens_withTokens : (net.withTokens M).withTokens N = net.withTokens N := by
  simp only [withTokens]
  congr 1
  exact OrderedMap.ext (by simp [OrderedMap.mapValues, Function.comp_def])

theorem withTokens_congr (h : ∀ p ∈ net.places.keys, M p = N p) :
    net.withTokens M = net.withTokens N := by
  simp only [withTokens]
  congr 1
  refine OrderedMap.mapValues_congr fun e he => ?_
  rw [h e.1 (List.mem_map_of_mem he)]

@[simp] theorem withTokens_tokens : net.withTokens net.tokens = net := by
  rw [withTokens, OrderedMap.mapValues_self fun e he => ?_]
  rw [tokens_of_place? (OrderedMap.get?_eq_some.2 he)]

theorem modify_place (h : net.place? p = some x) (n : ℕ) :
    { net with places := net.places.modify p fun _ => { x with tokens := n } } =
      net.withTokens (Function.update net.tokens p n) := by
  simp only [withTokens, OrderedMap.modify]
  congr 1
  refine OrderedMap.mapValues_congr fun e he => ?_
  have hv := OrderedMap.get?_eq_some.2 he
  by_cases hk : e.1 = p
  · have : x = e.2 := Option.some.inj (h.symm.trans (hk ▸ hv))
    simp [hk, this]
  · simp [hk, tokens_of_place? hv]

end Net

end ProcessNet
