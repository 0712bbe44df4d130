import ProcessNet.Proofs.TokenGame.Apart
import ProcessNet.Proofs.TokenGame.Episodes
import ProcessNet.Proofs.TokenGame.Operators

/-!
What the operators spell. Sequence, interleaving and repetition play their operands one at a time, so
that a word is told in episodes, and the skeleton says in which orders: one order for the sequence, both
for the interleaving, as a weight on its ports counts, and for the repetition any number of rounds but
none. In a parallel composition and in a choice a route may leave an operand before its last move; there
the operands are seen apart, and what the routes put and take together says how many tokens each of them
was given.
-/

namespace ProcessNet

namespace Skeleton

variable {I S R P T α : Type} [DecidableEq I] [DecidableEq S] [DecidableEq P]
  {k : Skeleton I S R} {A : I → Game P T} {s e : I → P} {label : I → T → Option α}
  {word : List α}

theorem solitary_of_moves {src dst : Stage I R → Port I S}
    (moves : ∀ t, k.game t = some (.ofLists [src t] [dst t]))
    (only : ∀ t i, src t = .entry i → t = .whole i) : k.Solitary := by
  intro K reach i entered a K' fires
  obtain ⟨y, rfl⟩ := Game.single_of_reaches moves reach
  have here : y = .entry i := by
    by_contra ne
    rw [Pi.single_eq_of_ne (Ne.symm ne)] at entered
    exact Nat.lt_irrefl 0 entered
  subst here
  exact only a i ((Game.fires_single_iff moves).1 fires).1

omit [DecidableEq I] in
theorem exists_flatten_pair {i j : I} :
    (∃ ws, List.Forall₂ (fun i w => (A i).Spells (s i) (e i) (label i) w) [i, j] ws ∧
        ws.flatten = word) ↔
      ∃ u v, (A i).Spells (s i) (e i) (label i) u ∧ (A j).Spells (s j) (e j) (label j) v ∧
        word = u ++ v := by
  constructor
  · rintro ⟨ws, spelled, rfl⟩
    match ws, spelled with
    | [u, v], .cons first (.cons second .nil) => exact ⟨u, v, first, second, by simp⟩
  · rintro ⟨u, v, first, second, rfl⟩
    exact ⟨[u, v], .cons first (.cons second .nil), by simp⟩

theorem sequence_solitary : sequence.Solitary := by
  refine solitary_of_moves sequence_moves ?_
  rintro (j | _) i eq
  · cases eq
    rfl
  · cases eq

def sequenceRest : Port Bool Empty → List Bool
  | .entry false => [false, true]
  | .exit false => [true]
  | .entry true => [true]
  | .exit true => []

theorem sequence_orders_iff {is : List Bool} : sequence.Orders is ↔ is = [false, true] := by
  constructor
  · rintro ⟨ks, run, rfl⟩
    have read := Game.filterMap_of_runs sequence_moves Stage.operand? sequenceRest
      (by rintro ((_ | _) | _) <;> rfl) run
    simpa [sequenceRest, sequence] using read.symm
  · rintro rfl
    have step := fun t => Game.fires_single sequence_moves t
    exact ⟨[.whole false, .route (), .whole true], .cons trivial (step (.whole false)) <|
      .cons trivial (step (.route ())) <| .cons trivial (step (.whole true)) <| .nil trivial, rfl⟩

theorem sequence_spells_iff {A : Bool → Game P T} {s e : Bool → P} {label : Bool → T → Option α}
    (takes : ∀ i, (A i).Takes) (ends : ∀ i, (A i).HasEnds (s i) (e i))
    (proper : (A false).Proper (s false) (e false)) :
    (sequence.refine A s e).Spells (site s e sequence.source) (site s e sequence.sink)
        (Action.label label) word ↔
      ∃ u v, (A false).Spells (s false) (e false) (label false) u ∧
        (A true).Spells (s true) (e true) (label true) v ∧ word = u ++ v := by
  have inside : sequence.Enclosed A s e := by
    refine ⟨takes, ?_, ends⟩
    rintro (_ | _) last
    · exact proper
    · exact absurd rfl last
  rw [spells_iff sequence_sound inside sequence_framed sequence_hasEnds sequence_solitary]
  constructor
  · rintro ⟨is, ws, orders, spelled⟩
    obtain rfl := sequence_orders_iff.1 orders
    exact exists_flatten_pair.1 ⟨ws, spelled⟩
  · intro h
    obtain ⟨ws, spelled⟩ := exists_flatten_pair.2 h
    exact ⟨_, ws, sequence_orders_iff.2 rfl, spelled⟩

theorem interleaving_solitary : interleaving.Solitary := by
  intro K reach i entered a K' fires
  obtain ⟨branch, turn⟩ := interleaving_balance reach
  have branch := branch i
  obtain ⟨m, hm, moves⟩ := fires
  have enabled := moves.enabled
  rcases a with j | _ | j | j | _ <;> obtain rfl := Option.some.inj hm <;>
    replace enabled := Move.ofLists_enabled.1 enabled
  · have := enabled (.entry j) (List.mem_singleton_self _)
    cases i <;> cases j <;> first | rfl | omega
  · have := enabled (.spot .source) (List.mem_singleton_self _)
    omega
  · have := enabled (.spot .mutex) (by simp [interleaving])
    cases i <;> omega
  · have := enabled (.exit j) (List.mem_singleton_self _)
    cases i <;> cases j <;> omega
  · have := enabled (.spot .mutex) (by simp [interleaving])
    cases i <;> omega

omit [DecidableEq S] [DecidableEq P] in
theorem sum_map_plays (ks : List (Stage I R)) (i : I) :
    (ks.map fun a => if a.operand? = some i then 1 else 0).sum =
      (ks.filterMap Stage.operand?).count i := by
  induction ks with
  | nil => rfl
  | cons a rest ih =>
    rw [List.map_cons, List.sum_cons, ih]
    cases a with
    | route r => exact Nat.zero_add _
    | whole j =>
      have played : (Stage.whole j :: rest : List (Stage I R)).filterMap Stage.operand? =
          j :: rest.filterMap Stage.operand? := rfl
      rw [played, List.count_cons, Nat.add_comm]
      simp only [Stage.operand?, Option.some.injEq, beq_iff_eq]

theorem interleaving_count {ks : List (Stage Bool Pass)}
    (run : interleaving.game.Runs (Pi.single interleaving.source 1) ks
      (Pi.single interleaving.sink 1)) (i : Bool) : (ks.filterMap Stage.operand?).count i = 1 := by
  have load := run.load [(1, .spot .source), (1, .spot (.entry i)), (1, .entry i)]
    (fun a => if a.operand? = some i then 1 else 0) (by
      rintro ((_ | _) | _ | (_ | _) | (_ | _) | _) m hm <;> obtain rfl := Option.some.inj hm <;>
        cases i <;> rfl)
  rw [sum_map_plays] at load
  simpa [Game.load, interleaving] using load

theorem interleaving_orders_iff {is : List Bool} :
    interleaving.Orders is ↔ ∃ i, is = [i, !i] := by
  constructor
  · rintro ⟨ks, run, rfl⟩
    have count := interleaving_count run
    have length := List.count_false_add_count_true (ks.filterMap Stage.operand?)
    rw [count, count] at length
    obtain ⟨i, j, eq⟩ := List.length_eq_two.1 length.symm
    have once := count i
    refine ⟨i, ?_⟩
    rw [eq] at once ⊢
    cases i <;> cases j <;> first | rfl | cases once
  · rintro ⟨i, rfl⟩
    exact ⟨_, interleaving_runs i, rfl⟩

section Pair

variable {A : Bool → Game P T} {s e : Bool → P} {label : Bool → T → Option α}

theorem interleaving_enclosed (takes : ∀ i, (A i).Takes)
    (ends : ∀ i, (A i).HasEnds (s i) (e i)) (proper : ∀ i, (A i).Proper (s i) (e i)) :
    interleaving.Enclosed A s e := ⟨takes, fun i _ => proper i, ends⟩

theorem interleaving_spells_iff (takes : ∀ i, (A i).Takes)
    (ends : ∀ i, (A i).HasEnds (s i) (e i)) (proper : ∀ i, (A i).Proper (s i) (e i)) :
    (interleaving.refine A s e).Spells (site s e interleaving.source)
        (site s e interleaving.sink) (Action.label label) word ↔
      ∃ u v, (A false).Spells (s false) (e false) (label false) u ∧
        (A true).Spells (s true) (e true) (label true) v ∧ (word = u ++ v ∨ word = v ++ u) := by
  rw [spells_iff interleaving_sound (interleaving_enclosed takes ends proper) interleaving_framed
    interleaving_hasEnds interleaving_solitary]
  constructor
  · rintro ⟨is, ws, orders, spelled⟩
    obtain ⟨i, rfl⟩ := interleaving_orders_iff.1 orders
    obtain ⟨u, v, first, second, eq⟩ := exists_flatten_pair.1 ⟨ws, spelled⟩
    cases i with
    | false => exact ⟨u, v, first, second, .inl eq⟩
    | true => exact ⟨v, u, second, first, .inr eq⟩
  · rintro ⟨u, v, first, second, eq | eq⟩
    · obtain ⟨ws, spelled⟩ := exists_flatten_pair.2 ⟨u, v, first, second, eq⟩
      exact ⟨_, ws, interleaving_orders_iff.2 ⟨false, rfl⟩, spelled⟩
    · obtain ⟨ws, spelled⟩ := exists_flatten_pair.2 ⟨v, u, second, first, eq⟩
      exact ⟨_, ws, interleaving_orders_iff.2 ⟨true, rfl⟩, spelled⟩

theorem interleaving_excludes (takes : ∀ i, (A i).Takes)
    (ends : ∀ i, (A i).HasEnds (s i) (e i)) (proper : ∀ i, (A i).Proper (s i) (e i))
    {M : Site Bool P Turn → ℕ}
    (reach : (interleaving.refine A s e).Reaches (Pi.single (site s e interleaving.source) 1) M) :
    ∃ i, ∀ p, M (.inner i p) = 0 := by
  obtain ⟨as, run⟩ := reach
  have told := told_of_runs interleaving_sound (interleaving_enclosed takes ends proper)
    interleaving_framed interleaving_hasEnds interleaving_solitary run
  cases told with
  | @between xs K complete played =>
    by_cases first : K (.entry false) + K (.exit false) = 0
    · exact ⟨false, lift_idle (by omega) (by omega)⟩
    · obtain ⟨hn, hx⟩ := (interleaving_balance ⟨_, played⟩).alone first
      exact ⟨true, lift_idle hn hx⟩
  | @within xs K i ts m complete played entered _ _ =>
    obtain ⟨hn, hx⟩ := (interleaving_balance ⟨_, played⟩).alone (i := i) (by omega)
    refine ⟨!i, fun p => ?_⟩
    simp only [setInner, if_neg (Bool.not_ne_self i)]
    exact lift_idle hn hx p

end Pair

theorem repetition_solitary : repetition.Solitary := by
  refine solitary_of_moves repetition_moves ?_
  rintro (_ | _ | _ | _) i eq
  · rfl
  · cases eq
  · cases eq
  · cases eq

theorem repetition_rounds (more : List Unit) : ∃ ks,
    repetition.game.Runs (Pi.single (.entry ()) 1) ks (Pi.single (.exit ()) 1) ∧
      ks.filterMap Stage.operand? = () :: more := by
  have step := fun t => Game.fires_single repetition_moves t
  induction more with
  | nil => exact ⟨[.whole ()], .cons trivial (step (.whole ())) (.nil trivial), rfl⟩
  | cons _ rest ih =>
    obtain ⟨ks, run, orders⟩ := ih
    exact ⟨.whole () :: .route .again :: ks, .cons trivial (step (.whole ())) <|
      .cons trivial (step (.route .again)) run, congrArg (() :: ·) orders⟩

theorem repetition_orders_iff {is : List Unit} : repetition.Orders is ↔ is ≠ [] := by
  constructor
  · rintro ⟨ks, run, rfl⟩
    obtain ⟨a, ks, rfl, starts, run⟩ := Game.exists_first repetition_moves (by decide) run
    obtain rfl : a = .route .enter := by rcases a with _ | _ | _ | _ <;> first | rfl | cases starts
    obtain ⟨b, ks, rfl, enters, -⟩ := Game.exists_first repetition_moves (by decide) run
    obtain rfl : b = .whole () := by rcases b with _ | _ | _ | _ <;> first | rfl | cases enters
    exact List.cons_ne_nil _ _
  · intro some
    obtain ⟨first, more, rfl⟩ := List.exists_cons_of_ne_nil some
    have step := fun t => Game.fires_single repetition_moves t
    obtain ⟨ks, run, orders⟩ := repetition_rounds more
    refine ⟨.route .enter :: ks ++ [.route .leave], ?_, ?_⟩
    · exact .cons trivial (step (.route .enter)) (run.concat (step (.route .leave)))
    · rw [List.cons_append, List.filterMap_cons_none rfl, List.filterMap_append, orders,
        List.filterMap_cons_none rfl, List.filterMap_nil, List.append_nil]

theorem repetition_spells_iff {A : Game P T} {s e : P} {label : T → Option α} (takes : A.Takes)
    (ends : A.HasEnds s e) (proper : A.Proper s e) :
    (repetition.refine (fun _ => A) (fun _ => s) fun _ => e).Spells
        (site (fun _ => s) (fun _ => e) repetition.source)
        (site (fun _ => s) (fun _ => e) repetition.sink) (Action.label fun _ => label) word ↔
      ∃ ws : List (List α), ws ≠ [] ∧ (∀ w ∈ ws, A.Spells s e label w) ∧ word = ws.flatten := by
  have inside : repetition.Enclosed (fun _ => A) (fun _ => s) fun _ => e :=
    ⟨fun _ => takes, fun _ _ => proper, fun _ => ends⟩
  rw [spells_iff repetition_sound inside repetition_framed repetition_hasEnds repetition_solitary]
  constructor
  · rintro ⟨is, ws, orders, spelled, rfl⟩
    have rounds : is = ws.map fun _ => () :=
      List.ext_getElem (by simpa using spelled.length_eq) fun _ _ _ => rfl
    rw [rounds, List.forall₂_map_left_iff, List.forall₂_same] at spelled
    have some := repetition_orders_iff.1 orders
    exact ⟨ws, by simpa [rounds] using some, spelled, rfl⟩
  · rintro ⟨ws, some, spelled, rfl⟩
    refine ⟨ws.map fun _ => (), ws, repetition_orders_iff.2 (by simpa using some), ?_, rfl⟩
    rw [List.forall₂_map_left_iff, List.forall₂_same]
    exact spelled

section Spots

variable {as : List (Action I T R)} {x y : S}

theorem drawn_start (ne : ∀ i, s i ≠ e i) (apart : x ≠ y) (none : ∀ r, .spot x ∉ k.put r)
    (run : (k.refine A s e).Runs (Pi.single (.spot x) 1) as (Pi.single (.spot y) 1)) :
    k.drawn (.spot x) as = 1 := by
  have balance := spot_balance ne run x
  have given : k.given (.spot x) as = 0 := countP_touches_eq_zero none as
  rw [given] at balance
  simpa [Pi.single_apply, apart] using balance

theorem given_stop (ne : ∀ i, s i ≠ e i) (apart : x ≠ y) (none : ∀ r, .spot y ∉ k.take r)
    (run : (k.refine A s e).Runs (Pi.single (.spot x) 1) as (Pi.single (.spot y) 1)) :
    k.given (.spot y) as = 1 := by
  have balance := spot_balance ne run y
  have drawn : k.drawn (.spot y) as = 0 := countP_touches_eq_zero none as
  rw [drawn] at balance
  simpa [Pi.single_apply, apart.symm] using balance.symm

theorem runs_between (framed : k.Framed) (ends : ∀ i, (A i).HasEnds (s i) (e i))
    (run : (k.refine A s e).Runs (Pi.single (.spot x) 1) as (Pi.single (.spot y) 1)) (i : I)
    (left : k.drawn (.exit i) as ≤ 1) :
    (A i).Runs (Pi.single (s i) (k.given (.entry i) as)) (as.filterMap (Action.of? i))
      (Pi.single (e i) (k.drawn (.exit i) as)) := by
  have outside : ∀ (z : S) p, (Pi.single (.spot z) 1 : Site I P S → ℕ) (.inner i p) = 0 :=
    fun z p => Pi.single_eq_of_ne (by simp) _
  have seen := runs_apart framed ends run i 0 (by
    rw [outside, Place.capacity_value]
    omega)
  have start : apart s e i (k.given (.entry i) as) 0 (Pi.single (.spot x) 1) =
      Pi.single (s i) (k.given (.entry i) as) := by
    funext p
    simp only [apart, outside, Pi.single_apply, ite_self, Nat.zero_add, Nat.add_zero]
  have stop : apart s e i 0 (k.drawn (.exit i) as + 0) (Pi.single (.spot y) 1) =
      Pi.single (e i) (k.drawn (.exit i) as) := by
    funext p
    simp only [apart, outside, Pi.single_apply, ite_self, Nat.zero_add, Nat.add_zero]
  rwa [start, stop] at seen

omit [DecidableEq S] [DecidableEq P] in
theorem filterMap_alone {i : I} (alone : ∀ j, j ≠ i → as.filterMap (Action.of? j) = []) :
    (as.filterMap (Action.of? i)).filterMap (label i) = as.filterMap (Action.label label) := by
  rw [List.filterMap_filterMap]
  refine List.filterMap_congr fun a ha => ?_
  cases a with
  | route r => rfl
  | inner j t =>
    by_cases hj : j = i
    · subst hj
      rw [Action.of?_inner]
      rfl
    · have none := List.filterMap_eq_nil_iff.1 (alone j hj) _ ha
      rw [Action.of?_inner] at none
      cases none

end Spots

section Parallel

variable {A : Bool → Game P T} {s e : Bool → P} {label : Bool → T → Option α}
  {as : List (Action Bool T Outer)}

theorem parallel_apart (ends : ∀ i, (A i).HasEnds (s i) (e i))
    (run : (parallel.refine A s e).Runs (Pi.single (site s e parallel.source) 1) as
      (Pi.single (site s e parallel.sink) 1)) (i : Bool) :
    (A i).Runs (Pi.single (s i) 1) (as.filterMap (Action.of? i)) (Pi.single (e i) 1) := by
  have ne := fun i => (ends i).ne
  have entered : parallel.given (.entry i) as = 1 := by
    rw [← drawn_eq_given (x := .spot .source) (by rintro (_ | _) <;> cases i <;> simp [parallel])]
    exact drawn_start ne (by decide) (by rintro (_ | _) <;> simp [parallel]) run
  have left : parallel.drawn (.exit i) as = 1 := by
    rw [drawn_eq_given (y := .spot .sink) (by rintro (_ | _) <;> cases i <;> simp [parallel])]
    exact given_stop ne (by decide) (by rintro (_ | _) <;> simp [parallel]) run
  have seen := runs_between parallel_framed ends run i (Nat.le_of_eq left)
  rwa [entered, left] at seen

omit [DecidableEq S] in
theorem lift_eq_setInner {K : Port Bool S → ℕ} {m n : P → ℕ} (spots : ∀ z, K (.spot z) = 0)
    (first : ∀ p, lift s e K (.inner false p) = m p)
    (second : ∀ p, lift s e K (.inner true p) = n p) :
    lift s e K = setInner (setInner (fun _ => 0) false m) true n := by
  funext y
  rcases y with ⟨_ | _, p⟩ | z
  · exact first p
  · exact second p
  · exact spots z

theorem parallel_runs_of_shuffle (ends : ∀ i, (A i).HasEnds (s i) (e i)) {ts us : List T}
    (first : (A false).Runs (Pi.single (s false) 1) ts (Pi.single (e false) 1))
    (second : (A true).Runs (Pi.single (s true) 1) us (Pi.single (e true) 1))
    (shuffled : Shuffle (ts.map (.inner false)) (us.map (.inner true)) as) :
    (parallel.refine A s e).Runs (Pi.single (site s e parallel.source) 1)
      (.route .source :: as ++ [.route .sink]) (Pi.single (site s e parallel.sink) 1) := by
  have ne := fun i => (ends i).ne
  have entries : lift s e (marks [Port.entry false, .entry true] : Port Bool Outer → ℕ) =
      setInner (setInner (fun _ => 0) false (Pi.single (s false) 1)) true (Pi.single (s true) 1) := by
    refine lift_eq_setInner (by simp [marks]) (fun p => ?_) fun p => ?_ <;>
      simp [lift, marks, Pi.single_apply]
  have exits : lift s e (marks [Port.exit false, .exit true] : Port Bool Outer → ℕ) =
      setInner (setInner (fun _ => 0) false (Pi.single (e false) 1)) true (Pi.single (e true) 1) := by
    refine lift_eq_setInner (by simp [marks]) (fun p => ?_) fun p => ?_
    · by_cases hp : p = s false <;> simp [lift, marks, Pi.single_apply, hp, ne false]
    · by_cases hp : p = s true <;> simp [lift, marks, Pi.single_apply, hp, ne true]
  have split : (parallel.refine A s e).Fires (lift s e (marks [.spot .source])) (.route .source)
      (lift s e (marks [.entry false, .entry true])) :=
    lift_fires_route ne (Game.fires_marks [] rfl (by decide) (by decide) (by decide))
  have join : (parallel.refine A s e).Fires (lift s e (marks [.exit false, .exit true]))
      (.route .sink) (lift s e (marks [.spot .sink])) :=
    lift_fires_route ne (Game.fires_marks [] rfl (by decide) (by decide) (by decide))
  have between := runs_shuffle (k := parallel) (s := s) (e := e) (M := fun _ => 0) Bool.false_ne_true
    first second shuffled
  rw [← entries, ← exits] at between
  rw [marks_singleton, ← single_site ne] at split join
  exact .cons trivial split (between.concat join)

theorem parallel_spells_iff (ends : ∀ i, (A i).HasEnds (s i) (e i)) :
    (parallel.refine A s e).Spells (site s e parallel.source) (site s e parallel.sink)
        (Action.label label) word ↔
      ∃ u v, (A false).Spells (s false) (e false) (label false) u ∧
        (A true).Spells (s true) (e true) (label true) v ∧ Shuffle u v word := by
  constructor
  · rintro ⟨as, run, rfl⟩
    refine ⟨_, _, ⟨_, parallel_apart ends run false, rfl⟩, ⟨_, parallel_apart ends run true, rfl⟩, ?_⟩
    rw [List.filterMap_filterMap, List.filterMap_filterMap]
    refine Shuffle.filterMap (fun a => ?_) as
    rcases a with ⟨_ | _, t⟩ | r
    · exact .inl ⟨rfl, rfl⟩
    · exact .inr ⟨rfl, rfl⟩
    · exact .inl ⟨rfl, rfl⟩
  · rintro ⟨_, _, ⟨ts, first, rfl⟩, ⟨us, second, rfl⟩, shuffled⟩
    have read : ∀ i (l : List T), (l.map (Action.inner i)).filterMap
        (Action.label (R := Outer) label) = l.filterMap (label i) := fun i l => List.filterMap_map
    rw [← read false, ← read true] at shuffled
    obtain ⟨as, actions, rfl⟩ := shuffled.exists_of_filterMap
    refine ⟨_, parallel_runs_of_shuffle ends first second actions, ?_⟩
    rw [List.cons_append, List.filterMap_cons_none rfl, List.filterMap_append,
      List.filterMap_cons_none rfl, List.filterMap_nil, List.append_nil]

end Parallel

section Choice

variable {parts : List I} {all : ∀ i, i ∈ parts} {s e : I → P} {as : List (Action I T (Gate I))}

theorem choice_entered (entered : (choice parts all).drawn (.spot .source) as = 1) :
    ∃ i, (choice parts all).given (.entry i) as = 1 ∧
      ∀ j, j ≠ i → (choice parts all).given (.entry j) as = 0 := by
  have leads : ∀ i r, Port.entry i ∈ (choice parts all).put r →
      Port.spot .source ∈ (choice parts all).take r := by
    rintro i (_ | _) <;> simp [choice]
  obtain ⟨i | i, mem, touched⟩ := exists_touches (Nat.lt_of_lt_of_eq Nat.one_pos entered.symm)
  · have pos : 0 < (choice parts all).given (.entry i) as :=
      countP_touches_pos mem (by simp [choice])
    have single : (choice parts all).given (.entry i) as ≤
        (choice parts all).drawn (.spot .source) as := countP_touches_le (leads i) as
    refine ⟨i, by omega, fun j hj => ?_⟩
    have apart : ∀ r, Port.entry i ∈ (choice parts all).put r →
        Port.entry j ∉ (choice parts all).put r := by
      rintro (l | l) first second
      · cases List.mem_singleton.1 first
        cases List.mem_singleton.1 second
        exact hj rfl
      · cases List.mem_singleton.1 first
    have both : (choice parts all).given (.entry i) as + (choice parts all).given (.entry j) as ≤
        (choice parts all).drawn (.spot .source) as :=
      countP_touches_add_le (leads i) (leads j) apart as
    omega
  · simp [choice] at touched

theorem choice_apart (takes : ∀ i, (A i).Takes) (ends : ∀ i, (A i).HasEnds (s i) (e i))
    (run : ((choice parts all).refine A s e).Runs (Pi.single (site s e (choice parts all).source) 1)
      as (Pi.single (site s e (choice parts all).sink) 1)) :
    ∃ i, (A i).Runs (Pi.single (s i) 1) (as.filterMap (Action.of? i)) (Pi.single (e i) 1) ∧
      ∀ j, j ≠ i → as.filterMap (Action.of? j) = [] := by
  have ne := fun i => (ends i).ne
  have left : (choice parts all).given (.spot .sink) as = 1 :=
    given_stop ne (by decide) (by rintro (_ | _) <;> simp [choice]) run
  have once : ∀ j, (choice parts all).drawn (.exit j) as ≤ 1 := by
    intro j
    rw [← left]
    exact countP_touches_le (by rintro (_ | _) <;> simp [choice]) as
  have seen := fun j => runs_between (choice_framed parts all) ends run j (once j)
  -- one operand is given a token, and the others have none to move with
  obtain ⟨i, one, none⟩ := choice_entered
    (drawn_start ne (by decide) (by rintro (_ | _) <;> simp [choice]) run)
  have idle : ∀ j, j ≠ i →
      as.filterMap (Action.of? j) = [] ∧ (choice parts all).drawn (.exit j) as = 0 := by
    intro j hj
    have run := seen j
    rw [none j hj] at run
    obtain ⟨still, eq⟩ := (takes j).runs_zero run (by simp)
    exact ⟨still, by simpa using congrFun eq (e j)⟩
  refine ⟨i, ?_, fun j hj => (idle j hj).1⟩
  obtain ⟨j | j, mem, touched⟩ := exists_touches (Nat.lt_of_lt_of_eq Nat.one_pos left.symm)
  · simp [choice] at touched
  · have pos : 0 < (choice parts all).drawn (.exit j) as :=
      countP_touches_pos mem (by simp [choice])
    obtain rfl : j = i := by
      by_contra hj
      have := (idle j hj).2
      omega
    have run := seen j
    rwa [one, Nat.le_antisymm (once j) pos] at run

theorem choice_spells_iff (takes : ∀ i, (A i).Takes) (ends : ∀ i, (A i).HasEnds (s i) (e i)) :
    ((choice parts all).refine A s e).Spells (site s e (choice parts all).source)
        (site s e (choice parts all).sink) (Action.label label) word ↔
      ∃ i, (A i).Spells (s i) (e i) (label i) word := by
  constructor
  · rintro ⟨as, run, rfl⟩
    obtain ⟨i, complete, alone⟩ := choice_apart takes ends run
    exact ⟨i, _, complete, filterMap_alone alone⟩
  · rintro ⟨i, ts, played, rfl⟩
    have ne := fun i => (ends i).ne
    have : Nonempty I := ⟨i⟩
    let xs : List (Episode I T (Gate I)) := [.route (.enter i), .whole i ts, .route (.leave i)]
    have complete : ∀ x ∈ xs, x.Complete A s e := by simpa [xs, Episode.Complete] using played
    have word : xs.flatMap (Episode.word label) = ts.filterMap (label i) := by
      simp [xs, Episode.word]
    have step := fun t => Game.fires_single (choice_moves parts all) t
    have run := runs_of_episodes (choice_sound parts all) ne complete (.refl _) <|
      .cons trivial (step (.route (.enter i))) <| .cons trivial (step (.whole i)) <|
        .cons trivial (step (.route (.leave i))) <| .nil trivial
    refine ⟨_, ?_, (Episode.filterMap_actions label xs).trans word⟩
    rw [single_site ne, single_site ne]
    exact run

end Choice

end Skeleton

end ProcessNet
