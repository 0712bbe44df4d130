import ProcessNet.Proofs.TokenGame.Refinement

/-!
An operand seen apart from the whole. What the routes put at its entry is counted as there from the
beginning, and what they take from its exit as there until the end. More tokens hinder no move, nothing
but routes puts at an entry, and nothing but routes takes from an exit; so the moves within an operand
are a run of it by itself, however they lie between the moves of others and even where a route has left
the operand before its last move. In the other direction, moves of two operands do not disturb each
other, so that any shuffle of a run of the one and a run of the other is a run of both.
-/

namespace ProcessNet

/-- The third list has the elements of the first and of the second, each in their order. -/
inductive Shuffle {α : Type} : List α → List α → List α → Prop
  | nil : Shuffle [] [] []
  | left {a : α} {u v w : List α} : Shuffle u v w → Shuffle (a :: u) v (a :: w)
  | right {a : α} {u v w : List α} : Shuffle u v w → Shuffle u (a :: v) (a :: w)

namespace Shuffle

variable {α β : Type} {u v w : List α}

theorem append_left (xs : List α) (h : Shuffle u v w) : Shuffle (xs ++ u) v (xs ++ w) := by
  induction xs with
  | nil => exact h
  | cons x rest ih => exact .left ih

theorem append_right (ys : List α) (h : Shuffle u v w) : Shuffle u (ys ++ v) (ys ++ w) := by
  induction ys with
  | nil => exact h
  | cons y rest ih => exact .right ih

theorem filterMap {f g h : α → Option β} (share : ∀ a, f a = h a ∧ g a = none ∨ f a = none ∧ g a = h a)
    (l : List α) : Shuffle (l.filterMap f) (l.filterMap g) (l.filterMap h) := by
  induction l with
  | nil => exact .nil
  | cons a rest ih =>
    rcases hb : h a with _ | b
    · have hf : f a = none := by
        rcases share a with ⟨eq, -⟩ | ⟨eq, -⟩
        · rw [eq, hb]
        · exact eq
      have hg : g a = none := by
        rcases share a with ⟨-, eq⟩ | ⟨-, eq⟩
        · exact eq
        · rw [eq, hb]
      rwa [List.filterMap_cons_none hf, List.filterMap_cons_none hg, List.filterMap_cons_none hb]
    · rw [List.filterMap_cons_some hb]
      rcases share a with ⟨hf, hg⟩ | ⟨hf, hg⟩
      · rw [List.filterMap_cons_some (hf.trans hb), List.filterMap_cons_none hg]
        exact .left ih
      · rw [List.filterMap_cons_none hf, List.filterMap_cons_some (hg.trans hb)]
        exact .right ih

theorem append (u v : List α) : Shuffle u v (u ++ v) := by
  have second := append_right v Shuffle.nil
  have both := append_left u second
  rwa [List.append_nil, List.append_nil] at both

theorem exists_of_filterMap {f : α → Option β} {l l' : List α} {w : List β}
    (h : Shuffle (l.filterMap f) (l'.filterMap f) w) :
    ∃ z, Shuffle l l' z ∧ z.filterMap f = w := by
  generalize hu : l.filterMap f = u, hv : l'.filterMap f = v at h
  induction h generalizing l l' with
  | nil =>
    refine ⟨l ++ l', append l l', ?_⟩
    rw [List.filterMap_append, hu, hv, List.append_nil]
  | @left b u v w _ ih =>
    obtain ⟨silent, a, l, rfl, none, some, rest⟩ := List.filterMap_eq_cons_iff.1 hu
    obtain ⟨z, shuffled, read⟩ := ih rest hv
    refine ⟨silent ++ a :: z, append_left silent (.left shuffled), ?_⟩
    rw [List.filterMap_append, List.filterMap_eq_nil_iff.2 none, List.filterMap_cons_some some, read,
      List.nil_append]
  | @right b u v w _ ih =>
    obtain ⟨silent, a, l', rfl, none, some, rest⟩ := List.filterMap_eq_cons_iff.1 hv
    obtain ⟨z, shuffled, read⟩ := ih hu rest
    refine ⟨silent ++ a :: z, append_right silent (.right shuffled), ?_⟩
    rw [List.filterMap_append, List.filterMap_eq_nil_iff.2 none, List.filterMap_cons_some some, read,
      List.nil_append]

end Shuffle

theorem Move.Fires.more {P : Type} {m : Move P} {M N : P → ℕ} (h : m.Fires M N) (F : P → ℕ)
    (room : ∀ p, 0 < m.put p → N p + F p ≤ Place.capacity) :
    m.Fires (fun p => M p + F p) fun p => N p + F p := by
  refine ⟨fun p => ?_, fun p => ?_, room⟩
  · have := h.enabled p
    omega
  · have := h.balance p
    omega

theorem Game.RunsWhile.le_of_kept {P T : Type} {G : Game P T} {ok : (P → ℕ) → Prop} {M N : P → ℕ}
    {ts : List T} {p : P} (kept : ∀ t m, G t = some m → m.take p = 0)
    (run : G.RunsWhile ok M ts N) : M p ≤ N p := by
  induction run with
  | nil _ => exact Nat.le_refl _
  | cons _ fires _ ih =>
    obtain ⟨m, hm, fires⟩ := fires
    have := fires.balance p
    have := kept _ m hm
    omega

namespace Action

variable {I S T R : Type} [DecidableEq I]

def of? (i : I) : Action I T R → Option T
  | .inner j t => if j = i then some t else none
  | .route _ => none

def touches [DecidableEq S] (side : R → List (Port I S)) (x : Port I S) : Action I T R → Bool
  | .inner _ _ => false
  | .route r => decide (x ∈ side r)

theorem touches_iff [DecidableEq S] {side : R → List (Port I S)} {x : Port I S}
    {a : Action I T R} : touches side x a = true ↔ ∃ r, a = .route r ∧ x ∈ side r := by
  cases a with
  | inner i t => simp [touches]
  | route r => simp [touches]

theorem of?_inner (i : I) (t : T) : of? i (.inner i t : Action I T R) = some t := if_pos rfl

theorem of?_inner_of_ne {i j : I} (h : j ≠ i) (t : T) : of? i (.inner j t : Action I T R) = none :=
  if_neg h

end Action

namespace Skeleton

variable {I S R P T : Type} [DecidableEq I] [DecidableEq S] [DecidableEq P]

/-- What the routes among the moves take from a port. -/
def drawn (k : Skeleton I S R) (x : Port I S) (as : List (Action I T R)) : ℕ :=
  as.countP (Action.touches k.take x)

def given (k : Skeleton I S R) (x : Port I S) (as : List (Action I T R)) : ℕ :=
  as.countP (Action.touches k.put x)

variable {k : Skeleton I S R} {A : I → Game P T} {s e : I → P} {M N : Site I P S → ℕ}
  {as : List (Action I T R)} {x y z : Port I S}

theorem drawn_route (x : Port I S) (r : R) (as : List (Action I T R)) :
    k.drawn x (.route r :: as) =
      (Move.ofLists (k.take r) (k.put r)).take x + k.drawn x as := by
  simp only [drawn, List.countP_cons, Action.touches, decide_eq_true_iff, Move.ofLists, Nat.add_comm]

theorem given_route (x : Port I S) (r : R) (as : List (Action I T R)) :
    k.given x (.route r :: as) =
      (Move.ofLists (k.take r) (k.put r)).put x + k.given x as := by
  simp only [given, List.countP_cons, Action.touches, decide_eq_true_iff, Move.ofLists, Nat.add_comm]

section Touches

variable {side side' : R → List (Port I S)}

theorem countP_touches_eq_zero (h : ∀ r, x ∉ side r) (as : List (Action I T R)) :
    as.countP (Action.touches side x) = 0 := by
  refine List.countP_eq_zero.2 fun a _ touched => ?_
  obtain ⟨r, -, mem⟩ := Action.touches_iff.1 touched
  exact h r mem

theorem countP_touches_le (h : ∀ r, x ∈ side r → y ∈ side' r) (as : List (Action I T R)) :
    as.countP (Action.touches side x) ≤ as.countP (Action.touches side' y) := by
  refine List.countP_mono_left fun a _ touched => ?_
  obtain ⟨r, rfl, mem⟩ := Action.touches_iff.1 touched
  exact Action.touches_iff.2 ⟨r, rfl, h r mem⟩

theorem countP_touches_add_le (h : ∀ r, x ∈ side r → z ∈ side' r)
    (h' : ∀ r, y ∈ side r → z ∈ side' r) (apart : ∀ r, x ∈ side r → y ∉ side r)
    (as : List (Action I T R)) :
    as.countP (Action.touches side x) + as.countP (Action.touches side y) ≤
      as.countP (Action.touches side' z) := by
  induction as with
  | nil => exact Nat.le_refl 0
  | cons a rest ih =>
    cases a with
    | inner i t => exact ih
    | route r =>
      have := h r
      have := h' r
      have := apart r
      simp only [List.countP_cons, Action.touches, decide_eq_true_iff]
      by_cases hx : x ∈ side r <;> by_cases hy : y ∈ side r <;> by_cases hz : z ∈ side' r <;>
        simp_all <;> omega

theorem exists_touches (h : 0 < as.countP (Action.touches side x)) :
    ∃ r, Action.route r ∈ as ∧ x ∈ side r := by
  obtain ⟨a, mem, touched⟩ := List.countP_pos_iff.1 h
  obtain ⟨r, rfl, hx⟩ := Action.touches_iff.1 touched
  exact ⟨r, mem, hx⟩

theorem countP_touches_pos {r : R} (mem : Action.route r ∈ as) (h : x ∈ side r) :
    0 < as.countP (Action.touches side x) :=
  List.countP_pos_iff.2 ⟨_, mem, Action.touches_iff.2 ⟨r, rfl, h⟩⟩

end Touches

theorem drawn_eq_given (h : ∀ r, x ∈ k.take r ↔ y ∈ k.put r) (as : List (Action I T R)) :
    k.drawn x as = k.given y as :=
  le_antisymm (countP_touches_le (fun r => (h r).1) as) (countP_touches_le (fun r => (h r).2) as)

section Balance

variable (ne : ∀ i, s i ≠ e i)

include ne

theorem spot_balance (run : (k.refine A s e).Runs M as N) (z : S) :
    N (.spot z) + k.drawn (.spot z) as = M (.spot z) + k.given (.spot z) as := by
  induction run with
  | nil _ => rfl
  | @cons M M' N a rest _ fires _ ih =>
    cases a with
    | inner i t =>
      obtain ⟨n, -, rfl⟩ := fires_of_inner fires
      exact ih
    | route r =>
      have balance := ((fires_route ne).1 fires).balance (.spot z)
      simp only [lift] at balance
      rw [drawn_route, given_route]
      omega

end Balance

/-- The marking within operand `i` with what will still be put at its entry and what has been taken
from its exit. -/
def apart (s e : I → P) (i : I) (entering left : ℕ) (M : Site I P S → ℕ) : P → ℕ := fun p =>
  M (.inner i p) + ((if p = s i then entering else 0) + if p = e i then left else 0)

omit [DecidableEq S] in
theorem apart_setInner (i : I) (c d : ℕ) (n : P → ℕ) : apart s e i c d (setInner M i n) =
    fun p => n p + ((if p = s i then c else 0) + if p = e i then d else 0) := by
  funext p
  simp only [apart, setInner, if_true]

omit [DecidableEq S] in
theorem apart_setInner_of_ne {i j : I} (h : i ≠ j) (c d : ℕ) (n : P → ℕ) :
    apart s e i c d (setInner M j n) = apart s e i c d M := by
  funext p
  simp only [apart, setInner, if_neg h]

theorem apart_route (framed : k.Framed) (ne : ∀ i, s i ≠ e i) (i : I) {r : R} (c d : ℕ)
    (fires : (k.refine A s e).Fires M (.route r) N) :
    apart s e i ((Move.ofLists (k.take r) (k.put r)).put (.entry i) + c) d M =
      apart s e i c ((Move.ofLists (k.take r) (k.put r)).take (.exit i) + d) N := by
  have takes : (Move.ofLists (k.take r) (k.put r)).take (.entry i) = 0 :=
    if_neg (framed.entry_kept r i)
  have puts : (Move.ofLists (k.take r) (k.put r)).put (.exit i) = 0 := if_neg (framed.exit_made r i)
  have balance := ((fires_route ne).1 fires).balance
  funext p
  have here := balance (.inner i p)
  simp only [lift] at here
  simp only [apart]
  rcases eq_or_ne p (s i) with rfl | hs
  · simp only [if_true, if_neg (ne i), takes] at here ⊢
    omega
  · rcases eq_or_ne p (e i) with rfl | he
    · simp only [if_true, if_neg (ne i).symm, puts] at here ⊢
      omega
    · simp only [if_neg hs, if_neg he] at here ⊢
      omega

/-- What a run of the whole does within an operand is a run of the operand. -/
theorem runs_apart (framed : k.Framed) (ends : ∀ i, (A i).HasEnds (s i) (e i))
    (run : (k.refine A s e).Runs M as N) (i : I) (d : ℕ)
    (room : N (.inner i (e i)) + (k.drawn (.exit i) as + d) ≤ Place.capacity) :
    (A i).Runs (apart s e i (k.given (.entry i) as) d M) (as.filterMap (Action.of? i))
      (apart s e i 0 (k.drawn (.exit i) as + d) N) := by
  have ne := fun i => (ends i).ne
  induction run generalizing d with
  | nil _ =>
    have nothing : k.drawn (.exit i) ([] : List (Action I T R)) = 0 := rfl
    rw [nothing, Nat.zero_add]
    exact .nil trivial
  | @cons M M' N a rest _ fires _ ih =>
    cases a with
    | route r =>
      rw [given_route, apart_route framed ne i _ _ fires, drawn_route]
      have later := ih ((Move.ofLists (k.take r) (k.put r)).take (.exit i) + d) (by
        rw [drawn_route] at room
        omega)
      rwa [← Nat.add_assoc, Nat.add_comm (drawn k _ rest)] at later
    | inner j t =>
      obtain ⟨n, moves, rfl⟩ := fires_of_inner fires
      have room : N (.inner i (e i)) + (k.drawn (.exit i) rest + d) ≤ Place.capacity := room
      have later := ih d room
      by_cases hj : j = i
      · subst hj
        obtain ⟨m, hm, moves⟩ := moves
        -- nothing within takes from the exit, so the room at the end is room on the way
        have kept := fun t m (h : A j t = some m) => (ends j).stays h
        have stays := later.le_of_kept kept
        rw [apart_setInner] at later stays
        rw [List.filterMap_cons_some (Action.of?_inner j t)]
        refine .cons trivial ⟨m, hm, moves.more _ fun p hp => ?_⟩ later
        have hs : p ≠ s j := fun eq =>
          (((ends j).source (s j)).2 rfl).2 ⟨t, m, hm, eq ▸ hp⟩
        rw [if_neg hs]
        rcases eq_or_ne p (e j) with rfl | he
        · simp only [apart, if_true, if_neg hs] at stays ⊢
          omega
        · rw [if_neg he]
          exact moves.fits p hp
      · rw [apart_setInner_of_ne (Ne.symm hj)] at later
        rwa [List.filterMap_cons_none (Action.of?_inner_of_ne hj t)]

omit [DecidableEq S] [DecidableEq P] in
theorem setInner_comm {i j : I} (h : i ≠ j) (M : Site I P S → ℕ) (m n : P → ℕ) :
    setInner (setInner M i m) j n = setInner (setInner M j n) i m := by
  funext y
  cases y with
  | spot x => rfl
  | inner l p =>
    by_cases hi : l = i
    · have hj : l ≠ j := fun eq => h (hi.symm.trans eq)
      simp only [setInner, if_pos hi, if_neg hj]
    · simp only [setInner, if_neg hi]

theorem runs_shuffle {i j : I} (h : i ≠ j) {ts us : List T} {m m' n n' : P → ℕ}
    (first : (A i).Runs m ts m') (second : (A j).Runs n us n')
    (shuffled : Shuffle (ts.map (.inner i)) (us.map (.inner j)) as) :
    (k.refine A s e).Runs (setInner (setInner M i m) j n) as
      (setInner (setInner M i m') j n') := by
  generalize hts : ts.map (Action.inner i) = u, hus : us.map (Action.inner j) = v at shuffled
  induction shuffled generalizing ts us m n with
  | nil =>
    cases List.map_eq_nil_iff.1 hts
    cases List.map_eq_nil_iff.1 hus
    cases first
    cases second
    exact .nil trivial
  | left _ ih =>
    obtain ⟨t, rest, rfl, rfl, rfl⟩ := List.map_eq_cons_iff.1 hts
    cases first with
    | cons _ fires first =>
      refine .cons trivial ?_ (ih first second rfl hus)
      rw [setInner_comm h, setInner_comm h]
      exact fires_inner fires
  | right _ ih =>
    obtain ⟨t, rest, rfl, rfl, rfl⟩ := List.map_eq_cons_iff.1 hus
    cases second with
    | cons _ fires second => exact .cons trivial (fires_inner fires) (ih first second hts rfl)

end Skeleton

end ProcessNet
