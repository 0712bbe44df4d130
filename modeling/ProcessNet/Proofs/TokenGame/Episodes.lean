import ProcessNet.Proofs.TokenGame.Refinement

/-!
Runs told in episodes. Where nothing else can happen while an operand runs, and nothing is left in it
once its sink is marked, a complete run of the refined game is one of the skeleton in which every step
of an operand is spelled out as a complete run of that operand. What the refined game spells is
therefore what its operands spell, one after the other in an order in which the skeleton plays them.
An operand whose exit is the sink of the whole may leave something behind: nothing comes after it.
-/

namespace ProcessNet

/-- A complete run of an operand, or a route. -/
inductive Episode (I T R : Type)
  | whole (i : I) (ts : List T)
  | route (r : R)

def Stage.operand? {I R : Type} : Stage I R → Option I
  | .whole i => some i
  | .route _ => none

def Action.label {I T R α : Type} (label : I → T → Option α) : Action I T R → Option α
  | .inner i t => label i t
  | .route _ => none

namespace Episode

variable {I T R P α : Type}

def stage : Episode I T R → Stage I R
  | whole i _ => .whole i
  | route r => .route r

def actions : Episode I T R → List (Action I T R)
  | whole i ts => ts.map (.inner i)
  | route r => [.route r]

def word (label : I → T → Option α) : Episode I T R → List α
  | whole i ts => ts.filterMap (label i)
  | route _ => []

def Complete [DecidableEq P] (A : I → Game P T) (s e : I → P) : Episode I T R → Prop
  | whole i ts => (A i).Runs (Pi.single (s i) 1) ts (Pi.single (e i) 1)
  | route _ => True

theorem filterMap_actions (label : I → T → Option α) (xs : List (Episode I T R)) :
    (xs.flatMap actions).filterMap (Action.label label) = xs.flatMap (word label) := by
  rw [List.filterMap_flatMap]
  refine List.flatMap_congr fun x _ => ?_
  cases x with
  | whole i ts => exact List.filterMap_map
  | route r => rfl

variable [DecidableEq P] {A : I → Game P T} {s e : I → P} {label : I → T → Option α}

theorem complete_concat {xs : List (Episode I T R)} {x : Episode I T R}
    (complete : ∀ y ∈ xs, y.Complete A s e) (last : x.Complete A s e) :
    ∀ y ∈ xs ++ [x], y.Complete A s e :=
  List.forall_mem_append.2 ⟨complete, List.forall_mem_singleton.2 last⟩

variable (label) in
theorem exists_words {xs : List (Episode I T R)} (complete : ∀ x ∈ xs, x.Complete A s e) :
    ∃ ws, List.Forall₂ (fun i w => (A i).Spells (s i) (e i) (label i) w)
      ((xs.map stage).filterMap Stage.operand?) ws ∧ ws.flatten = xs.flatMap (word label) := by
  induction xs with
  | nil => exact ⟨[], .nil, rfl⟩
  | cons x rest ih =>
    obtain ⟨played, complete⟩ := List.forall_mem_cons.1 complete
    obtain ⟨ws, spelled, eq⟩ := ih complete
    cases x with
    | whole i ts => exact ⟨ts.filterMap (label i) :: ws, .cons ⟨ts, played, rfl⟩ spelled,
        congrArg (ts.filterMap (label i) ++ ·) eq⟩
    | route r => exact ⟨ws, spelled, eq⟩

theorem exists_episodes {ks : List (Stage I R)} {ws : List (List α)}
    (spelled : List.Forall₂ (fun i w => (A i).Spells (s i) (e i) (label i) w)
      (ks.filterMap Stage.operand?) ws) : ∃ xs : List (Episode I T R),
      xs.map stage = ks ∧ (∀ x ∈ xs, x.Complete A s e) ∧ xs.flatMap (word label) = ws.flatten := by
  induction ks generalizing ws with
  | nil =>
    cases spelled
    exact ⟨[], rfl, nofun, rfl⟩
  | cons k rest ih =>
    cases k with
    | route r =>
      obtain ⟨xs, stages, complete, eq⟩ := ih spelled
      exact ⟨.route r :: xs, congrArg (_ :: ·) stages,
        List.forall_mem_cons.2 ⟨trivial, complete⟩, eq⟩
    | whole i =>
      cases spelled with
      | cons first spelled =>
        obtain ⟨ts, played, rfl⟩ := first
        obtain ⟨xs, stages, complete, eq⟩ := ih spelled
        exact ⟨.whole i ts :: xs, congrArg (_ :: ·) stages,
          List.forall_mem_cons.2 ⟨played, complete⟩, congrArg (ts.filterMap (label i) ++ ·) eq⟩

end Episode

namespace Skeleton

variable {I S R P T α : Type} [DecidableEq I] [DecidableEq S] [DecidableEq P]

/-- While an operand runs nothing else can happen. -/
def Solitary (k : Skeleton I S R) : Prop :=
  ∀ K, k.game.Reaches (Pi.single k.source 1) K → ∀ i, 0 < K (.entry i) →
    ∀ a K', k.game.Fires K a K' → a = .whole i

/-- An order in which a complete run of the skeleton plays the operands. -/
def Orders (k : Skeleton I S R) (is : List I) : Prop :=
  ∃ ks, k.game.Runs (Pi.single k.source 1) ks (Pi.single k.sink 1) ∧
    ks.filterMap Stage.operand? = is

/-- Operands that take up their token, and of which nothing is left when their sink is marked unless
that ends the whole. -/
structure Enclosed (k : Skeleton I S R) (A : I → Game P T) (s e : I → P) : Prop where
  takes : ∀ i, (A i).Takes
  proper : ∀ i, k.sink ≠ .exit i → (A i).Proper (s i) (e i)
  ends : ∀ i, (A i).HasEnds (s i) (e i)

/-- Where a run of the refined game has come to: between two episodes, or within an operand that has
been entered. The operand that ends the whole is not left even when its sink is marked. -/
inductive Told (k : Skeleton I S R) (A : I → Game P T) (s e : I → P) :
    List (Action I T R) → (Site I P S → ℕ) → Prop
  | between {xs : List (Episode I T R)} {K : Port I S → ℕ} :
      (∀ x ∈ xs, x.Complete A s e) → k.game.Runs (Pi.single k.source 1) (xs.map Episode.stage) K →
      Told k A s e (xs.flatMap Episode.actions) (lift s e K)
  | within {xs : List (Episode I T R)} {K : Port I S → ℕ} {i : I} {ts : List T} {m : P → ℕ} :
      (∀ x ∈ xs, x.Complete A s e) → k.game.Runs (Pi.single k.source 1) (xs.map Episode.stage) K →
      K (.entry i) = 1 → (A i).Runs (Pi.single (s i) 1) ts m → (k.sink ≠ .exit i → m (e i) = 0) →
      Told k A s e (xs.flatMap Episode.actions ++ ts.map (.inner i)) (setInner (lift s e K) i m)

variable {k : Skeleton I S R} {A : I → Game P T} {s e : I → P} {J K K' : Port I S → ℕ}
  {M N : Site I P S → ℕ} {as bs : List (Action I T R)}

omit [DecidableEq I] [DecidableEq S] in
theorem lift_site (ne : ∀ i, s i ≠ e i) (K : Port I S → ℕ) (x : Port I S) :
    lift s e K (site s e x) = K x := by
  cases x with
  | entry i => exact if_pos rfl
  | exit i => exact (if_neg (ne i).symm).trans (if_pos rfl)
  | spot x => rfl

omit [DecidableEq I] [DecidableEq S] in
theorem lift_inner_pos {i : I} {p : P} (hp : p ≠ e i) (marked : 0 < lift s e K (.inner i p)) :
    p = s i ∧ 0 < K (.entry i) := by
  simp only [lift, if_neg hp] at marked
  by_cases hs : p = s i
  · exact ⟨hs, by rwa [if_pos hs] at marked⟩
  · rw [if_neg hs] at marked
    exact absurd marked (Nat.lt_irrefl 0)

omit [DecidableEq S] in
theorem pos_of_within {i : I} {m : P → ℕ} (ne : ∀ i, s i ≠ e i) {x : Port I S}
    (hx : ∀ j, x ≠ .entry j) (unmarked : x = .exit i → m (e i) = 0)
    (marked : 0 < setInner (lift s e K) i m (site s e x)) : 0 < K x := by
  rw [← lift_site ne K x]
  cases x with
  | entry j => exact absurd rfl (hx j)
  | spot y => exact marked
  | exit j =>
    by_cases hj : j = i
    · subst hj
      simp only [site, setInner, if_true, unmarked rfl] at marked
      exact absurd marked (Nat.lt_irrefl 0)
    · simpa only [site, setInner, if_neg hj] using marked

theorem marked_of_inner {i : I} {t : T} (takes : (A i).Takes) (ends : (A i).HasEnds (s i) (e i))
    (fires : (k.refine A s e).Fires M (.inner i t) N) : ∃ p, p ≠ e i ∧ 0 < M (.inner i p) := by
  obtain ⟨n, ⟨m, hm, inner⟩, -⟩ := fires_of_inner fires
  obtain ⟨p, hp⟩ := takes t m hm
  refine ⟨p, ?_, hp.trans_le (inner.enabled p)⟩
  rintro rfl
  rw [ends.stays hm] at hp
  exact Nat.lt_irrefl 0 hp

theorem runs_concat {xs : List (Episode I T R)} {x : Episode I T R}
    (run : k.game.Runs J (xs.map Episode.stage) K) (fires : k.game.Fires K x.stage K') :
    k.game.Runs J ((xs ++ [x]).map Episode.stage) K' := by
  rw [List.map_append]
  exact run.concat fires

theorem told_concat {xs : List (Episode I T R)} {x : Episode I T R}
    (complete : ∀ y ∈ xs, y.Complete A s e) (last : x.Complete A s e)
    (run : k.game.Runs (Pi.single k.source 1) (xs.map Episode.stage) K)
    (fires : k.game.Fires K x.stage K') :
    k.Told A s e (xs.flatMap Episode.actions ++ x.actions) (lift s e K') := by
  have told := Told.between (Episode.complete_concat complete last) (runs_concat run fires)
  rwa [List.flatMap_append, List.flatMap_singleton] at told

section Sound

variable (sound : k.game.Sound k.source k.sink)

include sound

theorem runs_of_episodes (ne : ∀ i, s i ≠ e i) {xs : List (Episode I T R)}
    (complete : ∀ x ∈ xs, x.Complete A s e) (reach : k.game.Reaches (Pi.single k.source 1) K)
    (run : k.game.Runs K (xs.map Episode.stage) K') :
    (k.refine A s e).Runs (lift s e K) (xs.flatMap Episode.actions) (lift s e K') := by
  induction xs generalizing K with
  | nil =>
    cases run
    exact .nil trivial
  | cons x rest ih =>
    obtain ⟨played, complete⟩ := List.forall_mem_cons.1 complete
    cases run with
    | cons _ fires run =>
      have later := ih complete (reach.trans (.step fires)) run
      rw [List.flatMap_cons]
      refine Game.RunsWhile.append ?_ later
      cases x with
      | route r => exact .cons trivial (lift_fires_route ne fires) (.nil trivial)
      | whole i ts =>
        obtain ⟨hn, hx⟩ := whole_ready sound reach fires
        obtain rfl := fires.unique (fires_whole hn (by omega))
        rw [hx]
        exact runs_whole (ne i) hn hx played

theorem route_of_lift (ne : ∀ i, s i ≠ e i) (reach : k.game.Reaches (Pi.single k.source 1) K)
    {r : R} (fires : (k.refine A s e).Fires (lift s e K) (.route r) N) :
    ∃ K', k.game.Fires K (.route r) K' ∧ N = lift s e K' := by
  have ⟨_, eq, moves⟩ := fires
  obtain rfl := Option.some.inj eq
  have enabled : ∀ x ∈ k.take r, 0 < K x := fun x hx => by
    rw [← lift_site ne K x]
    exact Move.ofLists_enabled.1 moves.enabled _ (List.mem_map_of_mem hx)
  obtain ⟨K', hK⟩ := Move.ofLists_fires (k.put r) enabled (sound.safe K reach)
  have fires' : k.game.Fires K (.route r) K' := ⟨_, rfl, hK⟩
  exact ⟨K', fires', fires.unique (lift_fires_route ne fires')⟩

variable (inside : k.Enclosed A s e)

include inside

theorem told_inner {xs : List (Episode I T R)} (complete : ∀ x ∈ xs, x.Complete A s e)
    (run : k.game.Runs (Pi.single k.source 1) (xs.map Episode.stage) K) {i : I} (hn : K (.entry i) = 1)
    {ts : List T} {m n : P → ℕ} (played : (A i).Runs (Pi.single (s i) 1) ts m) {t : T}
    (fires : (A i).Fires m t n) :
    k.Told A s e (xs.flatMap Episode.actions ++ (ts ++ [t]).map (.inner i))
      (setInner (lift s e K) i n) := by
  have played := played.concat fires
  by_cases ongoing : k.sink ≠ .exit i → n (e i) = 0
  · exact .within complete run hn played ongoing
  · obtain ⟨sink, marked⟩ := Classical.not_imp.1 ongoing
    obtain rfl := inside.proper i sink n ⟨_, played⟩ (Nat.pos_of_ne_zero marked)
    have hx := (not_both sound ⟨_, run⟩ i).resolve_left (by omega)
    have fires := fires_whole (k := k) hn (by omega)
    rw [hx] at fires
    have told := told_concat (x := .whole i (ts ++ [t])) complete played run fires
    rwa [lift_whole (inside.ends i).ne] at told

variable (framed : k.Framed) (ends : k.game.HasEnds k.source k.sink) (solitary : k.Solitary)

include framed ends solitary

theorem inner_of_within (reach : k.game.Reaches (Pi.single k.source 1) K) {i : I}
    (hn : K (.entry i) = 1) {m : P → ℕ} (ongoing : k.sink ≠ .exit i → m (e i) = 0)
    {a : Action I T R} (fires : (k.refine A s e).Fires (setInner (lift s e K) i m) a N) :
    ∃ t, a = .inner i t := by
  have ne := fun i => (inside.ends i).ne
  cases a with
  | route r =>
    obtain ⟨_, eq, moves⟩ := fires
    obtain rfl := Option.some.inj eq
    have enabled : ∀ x ∈ k.take r, 0 < K x := by
      intro x hx
      have last : k.sink ≠ x := by
        rintro rfl
        have taken : (Move.ofLists (k.take r) (k.put r)).take k.sink = 1 := if_pos hx
        rw [ends.stays (t := .route r) rfl] at taken
        exact Nat.zero_ne_one taken
      exact pos_of_within ne (fun j eq => framed.entry_kept r j (eq ▸ hx))
        (fun eq => ongoing (eq ▸ last))
        (Move.ofLists_enabled.1 moves.enabled _ (List.mem_map_of_mem hx))
    obtain ⟨K', hK⟩ := Move.ofLists_fires (k.put r) enabled (sound.safe K reach)
    have := solitary K reach i (by omega) (.route r) K' ⟨_, rfl, hK⟩
    cases this
  | inner j t =>
    obtain ⟨p, hp, marked⟩ := marked_of_inner (inside.takes j) (inside.ends j) fires
    by_cases hj : j = i
    · exact ⟨t, hj ▸ rfl⟩
    · simp only [setInner, if_neg hj] at marked
      have entered := (lift_inner_pos hp marked).2
      have hn' : K (.entry j) = 1 := by
        have := sound.safe K reach (.entry j)
        omega
      have := solitary K reach i (by omega) (.whole j) _ (fires_whole hn' (sound.safe K reach _))
      cases this
      exact absurd rfl hj

theorem told_step {a : Action I T R} (told : k.Told A s e as M)
    (fires : (k.refine A s e).Fires M a N) : k.Told A s e (as ++ [a]) N := by
  have ne := fun i => (inside.ends i).ne
  cases told with
  | @between xs K complete run =>
    cases a with
    | route r =>
      obtain ⟨K', fires', rfl⟩ := route_of_lift sound ne ⟨_, run⟩ fires
      exact told_concat (x := .route r) complete trivial run fires'
    | inner i t =>
      obtain ⟨p, hp, marked⟩ := marked_of_inner (inside.takes i) (inside.ends i) fires
      obtain ⟨rfl, entered⟩ := lift_inner_pos hp marked
      have hn : K (.entry i) = 1 := by
        have := sound.safe K ⟨_, run⟩ (.entry i)
        omega
      have hx := (not_both sound ⟨_, run⟩ i).resolve_left (by omega)
      rw [lift_of_entry (ne i) hn hx] at fires
      obtain ⟨n, inner, rfl⟩ := fires_of_inner fires
      rw [setInner_inner] at inner
      have told := told_inner sound inside complete run hn (.nil trivial) inner
      rwa [setInner_setInner]
  | @within xs K i ts m complete run hn played ongoing =>
    obtain ⟨t, rfl⟩ := inner_of_within sound inside framed ends solitary ⟨_, run⟩ hn ongoing fires
    obtain ⟨n, inner, rfl⟩ := fires_of_inner fires
    rw [setInner_inner] at inner
    have told := told_inner sound inside complete run hn played inner
    rwa [setInner_setInner, List.append_assoc, ← List.map_singleton, ← List.map_append]

theorem told_runs (told : k.Told A s e as M) (run : (k.refine A s e).Runs M bs N) :
    k.Told A s e (as ++ bs) N := by
  induction run generalizing as with
  | nil _ => rwa [List.append_nil]
  | @cons _ _ _ a rest _ fires _ ih =>
    have later := ih (told_step sound inside framed ends solitary told fires)
    rwa [List.append_assoc, List.singleton_append] at later

theorem told_of_runs (run : (k.refine A s e).Runs (Pi.single (site s e k.source) 1) as N) :
    k.Told A s e as N := by
  have start : k.Told A s e [] (Pi.single (site s e k.source) 1) := by
    rw [single_site fun i => (inside.ends i).ne]
    have none : ∀ x ∈ ([] : List (Episode I T R)), x.Complete A s e := nofun
    exact .between none (.nil trivial)
  exact told_runs sound inside framed ends solitary start run

omit inside framed ends solitary in
theorem episodes_of_told (ne : ∀ i, s i ≠ e i) (framed : k.Framed)
    (told : k.Told A s e as (Pi.single (site s e k.sink) 1)) :
    ∃ xs : List (Episode I T R), (∀ x ∈ xs, x.Complete A s e) ∧
      k.game.Runs (Pi.single k.source 1) (xs.map Episode.stage) (Pi.single k.sink 1) ∧
        xs.flatMap Episode.actions = as := by
  generalize eq : (Pi.single (site s e k.sink) 1 : Site I P S → ℕ) = M at told
  cases told with
  | @between xs K complete run =>
    rw [single_site ne] at eq
    have : K = Pi.single k.sink 1 := by
      funext x
      rw [← lift_site ne K x, ← eq, lift_site ne]
    exact ⟨xs, complete, this ▸ run, rfl⟩
  | @within xs K i ts m complete run hn played ongoing =>
    by_cases sink : k.sink = .exit i
    · -- The operand ends the whole, and it has come to its own end.
      have here : m = Pi.single (e i) 1 := by
        funext p
        have := congrFun eq (.inner i p)
        simpa [sink, site, setInner, Pi.single_apply] using this.symm
      have hx := (not_both sound ⟨_, run⟩ i).resolve_left (by omega)
      have run' := runs_concat (x := .whole i ts) run (fires_whole hn (by omega))
      have ended := sound.proper _ ⟨_, run'⟩ (by simp [sink])
      rw [ended] at run'
      subst here
      refine ⟨_, Episode.complete_concat (x := .whole i ts) complete played, run', ?_⟩
      rw [List.flatMap_append, List.flatMap_singleton]
      rfl
    · -- The sink of the skeleton is marked, so that no operand can be running.
      have marked : 0 < K k.sink := by
        refine pos_of_within (m := m) ne framed.sink_ne (fun h => absurd h sink) ?_
        rw [← eq, Pi.single_eq_same]
        exact Nat.one_pos
      rw [sound.proper K ⟨_, run⟩ marked, Pi.single_eq_of_ne (framed.sink_ne i).symm] at hn
      exact absurd hn Nat.zero_ne_one

/-- The refined game spells what its operands spell, in an order in which the skeleton plays them. -/
theorem spells_iff {label : I → T → Option α} {word : List α} :
    (k.refine A s e).Spells (site s e k.source) (site s e k.sink) (Action.label label) word ↔
      ∃ is ws, k.Orders is ∧
        List.Forall₂ (fun i w => (A i).Spells (s i) (e i) (label i) w) is ws ∧
          ws.flatten = word := by
  have ne := fun i => (inside.ends i).ne
  constructor
  · rintro ⟨as, run, rfl⟩
    have told := told_of_runs sound inside framed ends solitary run
    obtain ⟨xs, complete, stages, rfl⟩ := episodes_of_told sound ne framed told
    obtain ⟨ws, spelled, eq⟩ := Episode.exists_words label complete
    exact ⟨_, ws, ⟨_, stages, rfl⟩, spelled, eq.trans (Episode.filterMap_actions label xs).symm⟩
  · rintro ⟨_, ws, ⟨ks, run, rfl⟩, spelled, rfl⟩
    obtain ⟨xs, rfl, complete, eq⟩ := Episode.exists_episodes spelled
    refine ⟨xs.flatMap Episode.actions, ?_, (Episode.filterMap_actions label xs).trans eq⟩
    rw [single_site ne, single_site ne]
    exact runs_of_episodes sound ne complete (.refl _) run

end Sound

end Skeleton

end ProcessNet
