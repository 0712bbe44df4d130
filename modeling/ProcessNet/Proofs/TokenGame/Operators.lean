import ProcessNet.Proofs.TokenGame.Skeleton

/-!
The skeletons of the operators and their soundness. Sequence, choice and repetition pass one token
along, so that soundness is a matter of paths. In a parallel composition and in an interleaving every
branch holds one token between the split and the join; in an interleaving a further token is either
on the mutex or inside a branch, never both. From these balances safety and proper completion are
read off, and a weight that every possible move lowers shows that completion is never lost.
-/

namespace ProcessNet

def marks {P : Type} [DecidableEq P] (l : List P) : P → ℕ := fun p => if p ∈ l then 1 else 0

theorem marks_singleton {P : Type} [DecidableEq P] (p : P) : marks [p] = Pi.single p 1 := by
  funext q
  by_cases h : q = p
  · subst h
    simp [marks]
  · simp [marks, h]

theorem marks_le_one {P : Type} [DecidableEq P] (l : List P) (p : P) : marks l p ≤ 1 := by
  rw [marks]
  split <;> omega

namespace Game

variable {P T : Type} [DecidableEq P] {G : Game P T} {M N : P → ℕ} {t : T} {ts : List T}

theorem fires_marks {a b l : List P} (c : List P) (h : G t = some (.ofLists a b))
    (perm : l.Perm (a ++ c)) (before : (a ++ c).Nodup) (after : (b ++ c).Nodup) :
    G.Fires (marks l) t (marks (b ++ c)) := by
  have mem : ∀ p, p ∈ l ↔ p ∈ a ∨ p ∈ c := fun p => perm.mem_iff.trans List.mem_append
  refine ⟨_, h, fun p => ?_, fun p => ?_, fun p _ => ?_⟩
  · by_cases ha : p ∈ a <;> simp [Move.ofLists, marks, mem, ha]
  · have ha : p ∈ a → p ∉ c := fun mem => (List.nodup_append'.1 before).2.2 mem
    have hb : p ∈ b → p ∉ c := fun mem => (List.nodup_append'.1 after).2.2 mem
    by_cases hc : p ∈ c <;> by_cases hpa : p ∈ a <;> by_cases hpb : p ∈ b <;>
      simp_all [Move.ofLists, marks]
  · simp only [marks, Place.capacity_value]
    split <;> omega

omit [DecidableEq P] in
theorem Runs.occasion (run : G.Runs M ts N) (h : t ∈ ts) :
    ∃ M' N', G.Reaches M M' ∧ G.Fires M' t N' := by
  induction run with
  | nil _ => cases h
  | cons _ fires _ ih =>
    rcases List.mem_cons.1 h with rfl | h
    · exact ⟨_, _, .refl _, fires⟩
    · obtain ⟨M', N', reach, fires'⟩ := ih h
      exact ⟨M', N', (Reaches.step fires).trans reach, fires'⟩

/-- What the listed places hold together, each token counted by the weight of its place. -/
def load (L : List (ℕ × P)) (M : P → ℕ) : ℕ := (L.map fun x => x.1 * M x.2).sum

omit [DecidableEq P] in
theorem load_balance {m : Move P} (fires : m.Fires M N) (L : List (ℕ × P)) :
    load L N + load L m.take = load L M + load L m.put := by
  induction L with
  | nil => rfl
  | cons x rest ih =>
    have here := congrArg (x.1 * ·) (fires.balance x.2)
    simp only [Nat.mul_add] at here
    simp only [load, List.map_cons, List.sum_cons] at ih ⊢
    omega

omit [DecidableEq P] in
theorem load_eq_of_fires {L : List (ℕ × P)} (even : ∀ t m, G t = some m → load L m.take = load L m.put)
    (fires : G.Fires M t N) : load L N = load L M := by
  obtain ⟨m, hm, fires⟩ := fires
  have := load_balance fires L
  have := even t m hm
  omega

omit [DecidableEq P] in
theorem load_lt_of_fires {L : List (ℕ × P)}
    (less : ∀ t m, G t = some m → load L m.put < load L m.take) (fires : G.Fires M t N) :
    load L N < load L M := by
  obtain ⟨m, hm, fires⟩ := fires
  have := load_balance fires L
  have := less t m hm
  omega

omit [DecidableEq P] in
theorem RunsWhile.load {ok : (P → ℕ) → Prop} (run : G.RunsWhile ok M ts N) (L : List (ℕ × P))
    (cost : T → ℕ) (pays : ∀ t m, G t = some m → load L m.put + cost t = load L m.take) :
    load L N + (ts.map cost).sum = load L M := by
  induction run with
  | nil _ => rfl
  | cons _ fires _ ih =>
    obtain ⟨m, hm, fires⟩ := fires
    have := load_balance fires L
    have := pays _ m hm
    rw [List.map_cons, List.sum_cons]
    omega

/-- Soundness from balances: what holds at the start and is kept allows one token a place and nothing
beside a token on the sink, and until then enables a move; every move lowers a weight, and one run
has all the moves. -/
theorem sound_of_balance {source sink : P} {I : (P → ℕ) → Prop} {weight : (P → ℕ) → ℕ}
    (lists : ∀ t m, G t = some m → ∃ a b, a ≠ [] ∧ m = .ofLists a b) (start : I (Pi.single source 1))
    (keep : ∀ M t N, I M → G.Fires M t N → I N) (safe : ∀ M, I M → ∀ p, M p ≤ 1)
    (finished : ∀ M, I M → 0 < M sink → M = Pi.single sink 1)
    (enables : ∀ M, I M → M sink = 0 → ∃ t a b, G t = some (.ofLists a b) ∧ ∀ p ∈ a, 0 < M p)
    (lowers : ∀ M t N, G.Fires M t N → weight N < weight M)
    (run : G.Runs (Pi.single source 1) ts N) (all : ∀ t, t ∈ ts) : G.Sound source sink := by
  have invariant : ∀ M, G.Reaches (Pi.single source 1) M → I M := fun M h => h.invariant start keep
  constructor
  · intro t m h
    obtain ⟨a, b, ne, rfl⟩ := lists t m h
    obtain ⟨p, hp⟩ := List.exists_mem_of_ne_nil a ne
    exact ⟨p, Move.take_ofLists_pos.2 hp⟩
  · exact fun M h => safe M (invariant M h)
  · exact fun M h => finished M (invariant M h)
  · intro M h
    replace h := invariant M h
    induction hw : weight M using Nat.strong_induction_on generalizing M with
    | _ w ih =>
      rcases Nat.eq_zero_or_pos (M sink) with unmarked | marked
      · obtain ⟨t, a, b, ht, enabled⟩ := enables M h unmarked
        obtain ⟨O, fires⟩ := Move.ofLists_fires b enabled (safe M h)
        have fires : G.Fires M t O := ⟨_, ht, fires⟩
        exact (Reaches.step fires).trans
          (ih _ (hw ▸ lowers M t O fires) O (keep M t O h fires) rfl)
      · rw [finished M h marked]
        exact .refl _
  · intro t m h
    obtain ⟨M, O, reach, m', hm', fires⟩ := run.occasion (all t)
    obtain rfl := Option.some.inj (hm'.symm.trans h)
    exact ⟨M, O, reach, fires⟩

theorem sound_of_only {source sink : P} (ne : source ≠ sink)
    (only : ∀ u m, G u = some m ↔ u = t ∧ m = .ofLists [source] [sink]) : G.Sound source sink := by
  have passes : G.Fires (Pi.single source 1) t (Pi.single sink 1) := by
    have := fires_marks (l := [source]) [] ((only t _).2 ⟨rfl, rfl⟩) (List.Perm.refl _) (by simp)
      (by simp)
    rwa [marks_singleton, List.append_nil, marks_singleton] at this
  have reached : ∀ M, G.Reaches (Pi.single source 1) M →
      M = Pi.single source 1 ∨ M = Pi.single sink 1 := by
    refine fun M h => h.invariant (I := fun M => M = Pi.single source 1 ∨ M = Pi.single sink 1)
      (.inl rfl) ?_
    rintro _ u N (rfl | rfl) fires
    · obtain ⟨m, hm, -⟩ := id fires
      obtain ⟨rfl, -⟩ := (only u m).1 hm
      exact .inr (fires.unique passes)
    · obtain ⟨m, hm, enabled, -, -⟩ := fires
      obtain ⟨-, rfl⟩ := (only u m).1 hm
      have := Move.ofLists_enabled.1 enabled source (List.mem_singleton_self _)
      rw [Pi.single_eq_of_ne ne] at this
      exact absurd this (Nat.lt_irrefl 0)
  constructor
  · intro u m h
    obtain ⟨-, rfl⟩ := (only u m).1 h
    exact ⟨source, Move.take_ofLists_pos.2 (List.mem_singleton_self _)⟩
  · intro M h p
    rcases reached M h with rfl | rfl <;> rw [← marks_singleton]
    · exact marks_le_one [source] p
    · exact marks_le_one [sink] p
  · intro M h marked
    refine (reached M h).resolve_left fun eq => ?_
    rw [eq, Pi.single_eq_of_ne ne.symm] at marked
    exact Nat.lt_irrefl 0 marked
  · intro M h
    rcases reached M h with rfl | rfl
    · exact .step passes
    · exact .refl _
  · intro u m h
    obtain ⟨rfl, -⟩ := (only u m).1 h
    obtain ⟨m', hm', fires⟩ := passes
    obtain rfl := Option.some.inj (h.symm.trans hm')
    exact ⟨_, _, .refl _, fires⟩

section Walks

variable (src dst : T → P)

def Walk : P → P → Prop := Relation.ReflTransGen fun x y => ∃ t, src t = x ∧ dst t = y

variable {src dst} (moves : ∀ t, G t = some (.ofLists [src t] [dst t]))

include moves

theorem fires_single (t : T) : G.Fires (Pi.single (src t) 1) t (Pi.single (dst t) 1) := by
  have := fires_marks (l := [src t]) [] (moves t) (List.Perm.refl _) (by simp) (by simp)
  rwa [marks_singleton, List.append_nil, marks_singleton] at this

theorem reaches_of_walk {x y : P} (h : Walk src dst x y) :
    G.Reaches (Pi.single x 1) (Pi.single y 1) := by
  induction h with
  | refl => exact .refl _
  | tail _ step ih =>
    obtain ⟨t, rfl, rfl⟩ := step
    exact ih.trans (.step (fires_single moves t))

theorem fires_single_iff {x : P} : G.Fires (Pi.single x 1) t N ↔
    src t = x ∧ N = Pi.single (dst t) 1 := by
  constructor
  · intro fires
    have starts : src t = x := by
      obtain ⟨m, hm, enabled, -, -⟩ := fires
      obtain rfl := Option.some.inj ((moves t).symm.trans hm)
      have := Move.ofLists_enabled.1 enabled (src t) (List.mem_singleton_self _)
      by_contra ne
      rw [Pi.single_eq_of_ne ne] at this
      exact Nat.lt_irrefl 0 this
    subst starts
    exact ⟨rfl, fires.unique (fires_single moves t)⟩
  · rintro ⟨rfl, rfl⟩
    exact fires_single moves t

theorem single_of_reaches {x : P} (h : G.Reaches (Pi.single x 1) M) : ∃ y, M = Pi.single y 1 := by
  refine h.invariant (I := fun M => ∃ y, M = Pi.single y 1) ⟨x, rfl⟩ ?_
  rintro _ t N ⟨y, rfl⟩ fires
  exact ⟨dst t, ((fires_single_iff moves).1 fires).2⟩

theorem exists_first {x y : P} (ne : x ≠ y)
    (run : G.Runs (Pi.single x 1) ts (Pi.single y 1)) :
    ∃ t rest, ts = t :: rest ∧ src t = x ∧ G.Runs (Pi.single (dst t) 1) rest (Pi.single y 1) := by
  generalize hM : (Pi.single x 1 : P → ℕ) = M, hN : (Pi.single y 1 : P → ℕ) = N at run
  cases run with
  | nil _ =>
    have same := congrFun (hM.trans hN.symm) x
    rw [Pi.single_eq_same, Pi.single_eq_of_ne ne] at same
    exact absurd same Nat.one_ne_zero
  | @cons _ _ _ t rest _ fires later =>
    subst hM
    obtain ⟨starts, rfl⟩ := (fires_single_iff moves).1 fires
    exact ⟨t, rest, rfl, starts, later⟩

theorem filterMap_of_runs {α : Type} (read : T → Option α) (rest : P → List α)
    (step : ∀ t, rest (src t) = (read t).toList ++ rest (dst t)) {x y : P}
    (run : G.Runs (Pi.single x 1) ts (Pi.single y 1)) : rest x = ts.filterMap read ++ rest y := by
  generalize hM : (Pi.single x 1 : P → ℕ) = M, hN : (Pi.single y 1 : P → ℕ) = N at run
  induction run generalizing x with
  | nil _ =>
    have : x = y := by
      by_contra ne
      have := congrFun (hM.trans hN.symm) x
      rw [Pi.single_eq_same, Pi.single_eq_of_ne ne] at this
      exact Nat.one_ne_zero this
    rw [this, List.filterMap_nil, List.nil_append]
  | @cons _ _ _ t rest' _ fires _ ih =>
    subst hM
    obtain ⟨rfl, rfl⟩ := (fires_single_iff moves).1 fires
    rw [step, ih rfl hN, ← List.append_assoc]
    cases h : read t with
    | none => rw [List.filterMap_cons_none h, Option.toList_none, List.nil_append]
    | some a => rw [List.filterMap_cons_some h, Option.toList_some, List.singleton_append]

variable (src dst) in
theorem sound_of_walks {source sink : P} (from_source : ∀ x, Walk src dst source x)
    (to_sink : ∀ x, Walk src dst x sink) : G.Sound source sink := by
  constructor
  · intro t m h
    obtain rfl := Option.some.inj ((moves t).symm.trans h)
    exact ⟨src t, Move.take_ofLists_pos.2 (List.mem_singleton_self _)⟩
  · intro M h p
    obtain ⟨y, rfl⟩ := single_of_reaches moves h
    by_cases hp : p = y
    · rw [hp, Pi.single_eq_same]
    · rw [Pi.single_eq_of_ne hp]
      exact Nat.zero_le 1
  · intro M h marked
    obtain ⟨y, rfl⟩ := single_of_reaches moves h
    have : sink = y := by
      by_contra ne
      rw [Pi.single_eq_of_ne ne] at marked
      exact Nat.lt_irrefl 0 marked
    rw [this]
  · intro M h
    obtain ⟨y, rfl⟩ := single_of_reaches moves h
    exact reaches_of_walk moves (to_sink y)
  · intro t m h
    obtain ⟨m', hm', fires⟩ := fires_single moves t
    obtain rfl := Option.some.inj (hm'.symm.trans h)
    exact ⟨_, _, reaches_of_walk moves (from_source (src t)), fires⟩

end Walks

end Game

inductive Outer
  | source
  | sink
deriving DecidableEq

inductive Gate (I : Type)
  | enter (i : I)
  | leave (i : I)

@[simp] theorem Gate.exists_iff {I : Type} {holds : Gate I → Prop} :
    (∃ g, holds g) ↔ (∃ i, holds (.enter i)) ∨ ∃ i, holds (.leave i) := by
  constructor
  · rintro ⟨i | i, h⟩
    · exact .inl ⟨i, h⟩
    · exact .inr ⟨i, h⟩
  · rintro (⟨i, h⟩ | ⟨i, h⟩)
    · exact ⟨_, h⟩
    · exact ⟨_, h⟩

@[simp] def Gate.pick {I α : Type} (enter leave : I → α) : Gate I → α
  | .enter i => enter i
  | .leave i => leave i

@[simp] def Outer.pick {α : Type} (source sink : α) : Outer → α
  | .source => source
  | .sink => sink

@[simp] theorem Outer.exists_iff {holds : Outer → Prop} :
    (∃ x, holds x) ↔ holds .source ∨ holds .sink := by
  constructor
  · rintro ⟨_ | _, h⟩
    · exact .inl h
    · exact .inr h
  · rintro (h | h) <;> exact ⟨_, h⟩

inductive Loop
  | enter
  | leave
  | again

@[simp] def Loop.pick {α : Type} (enter leave again : α) : Loop → α
  | .enter => enter
  | .leave => leave
  | .again => again

@[simp] theorem Loop.exists_iff {holds : Loop → Prop} :
    (∃ l, holds l) ↔ holds .enter ∨ holds .leave ∨ holds .again := by
  constructor
  · rintro ⟨_ | _ | _, h⟩
    · exact .inl h
    · exact .inr (.inl h)
    · exact .inr (.inr h)
  · rintro (h | h | h) <;> exact ⟨_, h⟩

inductive Turn
  | source
  | mutex
  | sink
  | entry (i : Bool)
  | exit (i : Bool)
deriving DecidableEq

@[simp] def Turn.pick {α : Type} (source mutex sink : α) (entry exit : Bool → α) : Turn → α
  | .source => source
  | .mutex => mutex
  | .sink => sink
  | .entry i => entry i
  | .exit i => exit i

inductive Pass
  | split
  | enter (i : Bool)
  | leave (i : Bool)
  | join

@[simp] def Pass.pick {α : Type} (split join : α) (enter leave : Bool → α) : Pass → α
  | .split => split
  | .enter i => enter i
  | .leave i => leave i
  | .join => join

@[simp] theorem Pass.exists_iff {holds : Pass → Prop} :
    (∃ r, holds r) ↔ holds .split ∨ (∃ i, holds (.enter i)) ∨ (∃ i, holds (.leave i)) ∨
      holds .join := by
  constructor
  · rintro ⟨_ | i | i | _, h⟩
    · exact .inl h
    · exact .inr (.inl ⟨i, h⟩)
    · exact .inr (.inr (.inl ⟨i, h⟩))
    · exact .inr (.inr (.inr h))
  · rintro (h | ⟨i, h⟩ | ⟨i, h⟩ | h) <;> exact ⟨_, h⟩

namespace Skeleton

open Game (Walk)

def sequence : Skeleton Bool Empty Unit where
  parts := [false, true]
  spots := []
  routes := [()]
  take _ := [.exit false]
  put _ := [.entry true]
  source := .entry false
  sink := .exit true
  parts_all := by decide
  spots_all := nofun
  routes_all := by simp

def choice {I : Type} (parts : List I) (all : ∀ i, i ∈ parts) : Skeleton I Outer (Gate I) where
  parts := parts
  spots := [.source, .sink]
  routes := parts.map .enter ++ parts.map .leave
  take
    | .enter _ => [.spot .source]
    | .leave i => [.exit i]
  put
    | .enter i => [.entry i]
    | .leave _ => [.spot .sink]
  source := .spot .source
  sink := .spot .sink
  parts_all := all
  spots_all := by rintro (_ | _) <;> simp
  routes_all := by rintro (i | i) <;> simp [all]

def repetition : Skeleton Unit Outer Loop where
  parts := [()]
  spots := [.source, .sink]
  routes := [.enter, .leave, .again]
  take
    | .enter => [.spot .source]
    | .leave => [.exit ()]
    | .again => [.exit ()]
  put
    | .enter => [.entry ()]
    | .leave => [.spot .sink]
    | .again => [.entry ()]
  source := .spot .source
  sink := .spot .sink
  parts_all := by simp
  spots_all := by rintro (_ | _) <;> simp
  routes_all := by rintro (_ | _ | _) <;> simp

def parallel : Skeleton Bool Outer Outer where
  parts := [false, true]
  spots := [.source, .sink]
  routes := [.source, .sink]
  take
    | .source => [.spot .source]
    | .sink => [.exit false, .exit true]
  put
    | .source => [.entry false, .entry true]
    | .sink => [.spot .sink]
  source := .spot .source
  sink := .spot .sink
  parts_all := by decide
  spots_all := by rintro (_ | _) <;> simp
  routes_all := by rintro (_ | _) <;> simp

def interleaving : Skeleton Bool Turn Pass where
  parts := [false, true]
  spots := [.source, .mutex, .sink, .entry false, .entry true, .exit false, .exit true]
  routes := [.split, .enter false, .enter true, .leave false, .leave true, .join]
  take
    | .split => [.spot .source]
    | .enter i => [.spot (.entry i), .spot .mutex]
    | .leave i => [.exit i]
    | .join => [.spot (.exit false), .spot (.exit true), .spot .mutex]
  put
    | .split => [.spot (.entry false), .spot (.entry true), .spot .mutex]
    | .enter i => [.entry i]
    | .leave i => [.spot (.exit i), .spot .mutex]
    | .join => [.spot .sink]
  source := .spot .source
  sink := .spot .sink
  parts_all := by decide
  spots_all := by rintro (_ | _ | _ | (_ | _) | (_ | _)) <;> simp
  routes_all := by rintro (_ | (_ | _) | (_ | _) | _) <;> simp

theorem sequence_framed : sequence.Framed := by
  constructor <;> simp [sequence]

theorem sequence_hasEnds : sequence.game.HasEnds sequence.source sequence.sink := by
  constructor <;> rintro ((_ | _) | (_ | _) | _) <;>
    simp [game_consumes, game_produces, sequence]

/-- Where a move of the sequence takes its token and where it puts it. -/
def sequenceStep : Stage Bool Unit → Port Bool Empty × Port Bool Empty
  | .whole i => (.entry i, .exit i)
  | .route () => (.exit false, .entry true)

theorem sequence_moves (t : Stage Bool Unit) :
    sequence.game t = some (.ofLists [(sequenceStep t).1] [(sequenceStep t).2]) := by
  cases t <;> rfl

theorem sequence_sound : sequence.game.Sound sequence.source sequence.sink := by
  have step : ∀ t, Walk (fun t => (sequenceStep t).1) (fun t => (sequenceStep t).2)
      (sequenceStep t).1 (sequenceStep t).2 := fun t => .single ⟨t, rfl, rfl⟩
  have first := step (.whole false)
  have between := step (.route ())
  have second := step (.whole true)
  refine Game.sound_of_walks (fun t => (sequenceStep t).1)
    (fun t => (sequenceStep t).2) sequence_moves ?_ ?_
  · rintro ((_ | _) | (_ | _) | x)
    · exact .refl
    · exact first.trans between
    · exact first
    · exact (first.trans between).trans second
    · cases x
  · rintro ((_ | _) | (_ | _) | x)
    · exact (first.trans between).trans second
    · exact second
    · exact between.trans second
    · exact .refl
    · cases x

section Choice

variable {I : Type} [DecidableEq I] (parts : List I) (all : ∀ i, i ∈ parts)

omit [DecidableEq I] in
theorem choice_framed : (choice parts all).Framed := by
  constructor
  · rintro (_ | _) i <;> simp [choice]
  · rintro (_ | _) i <;> simp [choice]
  · simp [choice]
  · simp [choice]

theorem choice_hasEnds [Nonempty I] :
    (choice parts all).game.HasEnds (choice parts all).source (choice parts all).sink := by
  constructor <;> rintro (_ | _ | (_ | _)) <;> simp [game_consumes, game_produces, choice]

def choiceStep : Stage I (Gate I) → Port I Outer × Port I Outer
  | .whole i => (.entry i, .exit i)
  | .route (.enter i) => (.spot .source, .entry i)
  | .route (.leave i) => (.exit i, .spot .sink)

theorem choice_moves (t : Stage I (Gate I)) :
    (choice parts all).game t = some (.ofLists [(choiceStep t).1] [(choiceStep t).2]) := by
  rcases t with _ | _ | _ <;> rfl

theorem choice_sound [Nonempty I] :
    (choice parts all).game.Sound (choice parts all).source (choice parts all).sink := by
  have step : ∀ t : Stage I (Gate I), Walk (fun t => (choiceStep t).1) (fun t => (choiceStep t).2)
      (choiceStep t).1 (choiceStep t).2 := fun t => .single ⟨t, rfl, rfl⟩
  have enter := fun i => step (.route (.enter i))
  have whole := fun i => step (.whole i)
  have leave := fun i => step (.route (.leave i))
  have ⟨j⟩ := ‹Nonempty I›
  refine Game.sound_of_walks (fun t => (choiceStep t).1)
    (fun t => (choiceStep t).2) (choice_moves parts all) ?_ ?_
  · rintro (i | i | (_ | _))
    · exact enter i
    · exact (enter i).trans (whole i)
    · exact .refl
    · exact ((enter j).trans (whole j)).trans (leave j)
  · rintro (i | i | (_ | _))
    · exact (whole i).trans (leave i)
    · exact leave i
    · exact ((enter j).trans (whole j)).trans (leave j)
    · exact .refl

end Choice

theorem repetition_framed : repetition.Framed := by
  constructor
  · rintro (_ | _ | _) i <;> simp [repetition]
  · rintro (_ | _ | _) i <;> simp [repetition]
  · simp [repetition]
  · simp [repetition]

theorem repetition_hasEnds : repetition.game.HasEnds repetition.source repetition.sink := by
  constructor <;> rintro (_ | _ | (_ | _)) <;> simp [game_consumes, game_produces, repetition]

def repetitionStep : Stage Unit Loop → Port Unit Outer × Port Unit Outer
  | .whole () => (.entry (), .exit ())
  | .route .enter => (.spot .source, .entry ())
  | .route .leave => (.exit (), .spot .sink)
  | .route .again => (.exit (), .entry ())

theorem repetition_moves (t : Stage Unit Loop) :
    repetition.game t = some (.ofLists [(repetitionStep t).1] [(repetitionStep t).2]) := by
  rcases t with _ | _ | _ | _ <;> rfl

theorem repetition_sound : repetition.game.Sound repetition.source repetition.sink := by
  have step : ∀ t, Walk (fun t => (repetitionStep t).1) (fun t => (repetitionStep t).2)
      (repetitionStep t).1 (repetitionStep t).2 := fun t => .single ⟨t, rfl, rfl⟩
  have enter := step (.route .enter)
  have whole := step (.whole ())
  have leave := step (.route .leave)
  refine Game.sound_of_walks (fun t => (repetitionStep t).1)
    (fun t => (repetitionStep t).2) repetition_moves ?_ ?_
  · rintro (_ | _ | (_ | _))
    · exact enter
    · exact enter.trans whole
    · exact .refl
    · exact (enter.trans whole).trans leave
  · rintro (_ | _ | (_ | _))
    · exact whole.trans leave
    · exact leave
    · exact (enter.trans whole).trans leave
    · exact .refl

theorem parallel_framed : parallel.Framed := by
  constructor
  · rintro (_ | _) i <;> simp [parallel]
  · rintro (_ | _) i <;> simp [parallel]
  · simp [parallel]
  · simp [parallel]

theorem parallel_hasEnds : parallel.game.HasEnds parallel.source parallel.sink := by
  constructor <;> rintro ((_ | _) | (_ | _) | (_ | _)) <;>
    simp [game_consumes, game_produces, parallel]

/-- Each branch holds one token from the split to the join. -/
def ParallelBalance (K : Port Bool Outer → ℕ) : Prop :=
  ∀ i, K (.spot .source) + K (.entry i) + K (.exit i) + K (.spot .sink) = 1

theorem parallelBalance_iff {K : Port Bool Outer → ℕ} : ParallelBalance K ↔
    ∀ i, Game.load [(1, .spot .source), (1, .entry i), (1, .exit i), (1, .spot .sink)] K = 1 := by
  simp only [ParallelBalance, Game.load, List.map_cons, List.map_nil, List.sum_cons, List.sum_nil,
    Nat.one_mul, Nat.add_assoc, Nat.add_zero]

theorem ParallelBalance.step {K N : Port Bool Outer → ℕ} {t : Stage Bool Outer}
    (h : ParallelBalance K) (fires : parallel.game.Fires K t N) : ParallelBalance N := by
  rw [parallelBalance_iff] at h ⊢
  intro i
  refine (Game.load_eq_of_fires ?_ fires).trans (h i)
  rintro ((_ | _) | _ | _) m hm <;> obtain rfl := Option.some.inj hm <;> cases i <;> rfl

theorem ParallelBalance.safe {K : Port Bool Outer → ℕ} (h : ParallelBalance K) :
    ∀ x, K x ≤ 1 := by
  have left := h false
  have right := h true
  rintro ((_ | _) | (_ | _) | (_ | _)) <;> omega

theorem ParallelBalance.finished {K : Port Bool Outer → ℕ} (h : ParallelBalance K)
    (marked : 0 < K (.spot .sink)) : K = Pi.single (.spot .sink) 1 := by
  have left := h false
  have right := h true
  funext x
  rcases x with (_ | _) | (_ | _) | (_ | _) <;> simp <;> omega

def parallelWeight (K : Port Bool Outer → ℕ) : ℕ :=
  5 * K (.spot .source) + 2 * (K (.entry false) + K (.entry true)) + K (.exit false) +
    K (.exit true)

theorem parallelWeight_eq (K : Port Bool Outer → ℕ) : parallelWeight K =
    Game.load [(5, .spot .source), (2, .entry false), (2, .entry true), (1, .exit false),
      (1, .exit true)] K := by
  simp only [parallelWeight, Game.load, List.map_cons, List.map_nil, List.sum_cons, List.sum_nil]
  omega

theorem parallelWeight_lt {K N : Port Bool Outer → ℕ} {t : Stage Bool Outer}
    (fires : parallel.game.Fires K t N) : parallelWeight N < parallelWeight K := by
  rw [parallelWeight_eq, parallelWeight_eq]
  refine Game.load_lt_of_fires ?_ fires
  rintro ((_ | _) | _ | _) m hm <;> obtain rfl := Option.some.inj hm <;> decide

theorem ParallelBalance.enables {K : Port Bool Outer → ℕ} (h : ParallelBalance K)
    (unmarked : K (.spot .sink) = 0) : ∃ t a b, parallel.game t = some (.ofLists a b) ∧
      ∀ x ∈ a, 0 < K x := by
  have left := h false
  have right := h true
  by_cases source : 0 < K (.spot .source)
  · exact ⟨.route .source, _, _, rfl, by simpa [parallel] using source⟩
  by_cases first : 0 < K (.entry false)
  · exact ⟨.whole false, _, _, rfl, by simpa using first⟩
  by_cases second : 0 < K (.entry true)
  · exact ⟨.whole true, _, _, rfl, by simpa using second⟩
  refine ⟨.route .sink, _, _, rfl, List.forall_mem_cons.2 ⟨?_, List.forall_mem_singleton.2 ?_⟩⟩
  · omega
  · omega

theorem parallel_runs : parallel.game.Runs (Pi.single parallel.source 1)
    [.route .source, .whole false, .whole true, .route .sink] (Pi.single parallel.sink 1) := by
  rw [← marks_singleton, ← marks_singleton]
  have split := Game.fires_marks (G := parallel.game) (t := .route .source)
    (l := [.spot .source]) [] rfl (by decide) (by decide) (by decide)
  have first := Game.fires_marks (G := parallel.game) (t := .whole false)
    (l := [.entry false, .entry true]) [.entry true] rfl (by decide) (by decide) (by decide)
  have second := Game.fires_marks (G := parallel.game) (t := .whole true)
    (l := [.exit false, .entry true]) [.exit false] rfl (by decide) (by decide) (by decide)
  have join := Game.fires_marks (G := parallel.game) (t := .route .sink)
    (l := [.exit true, .exit false]) [] rfl (by decide) (by decide) (by decide)
  exact .cons trivial split <| .cons trivial first <| .cons trivial second <|
    .cons trivial join <| .nil trivial

theorem parallel_sound : parallel.game.Sound parallel.source parallel.sink := by
  refine Game.sound_of_balance (I := ParallelBalance) ?_ ?_ (fun _ _ _ h => h.step)
    (fun _ h => h.safe) (fun _ h => h.finished) (fun _ h => h.enables)
    (fun _ _ _ => parallelWeight_lt) parallel_runs ?_
  · rintro (j | _ | _) m h <;> obtain rfl := Option.some.inj h
    · exact ⟨_, _, List.cons_ne_nil _ _, rfl⟩
    · exact ⟨_, _, List.cons_ne_nil _ _, rfl⟩
    · exact ⟨_, _, List.cons_ne_nil _ _, rfl⟩
  · intro i
    simp [parallel]
  · rintro ((_ | _) | (_ | _)) <;> simp

theorem interleaving_framed : interleaving.Framed := by
  constructor
  · rintro (_ | _ | _ | _) i <;> simp [interleaving]
  · rintro (_ | _ | _ | _) i <;> simp [interleaving]
  · simp [interleaving]
  · simp [interleaving]

theorem interleaving_hasEnds :
    interleaving.game.HasEnds interleaving.source interleaving.sink := by
  constructor <;> rintro ((_ | _) | (_ | _) | (_ | _ | _ | (_ | _) | (_ | _))) <;>
    simp [game_consumes, game_produces, interleaving]

/-- Each branch holds one token from the split to the join; a token on the mutex or within a branch is
held beside it. -/
structure InterleavingBalance (K : Port Bool Turn → ℕ) : Prop where
  branch : ∀ i, K (.spot .source) + K (.spot (.entry i)) + K (.entry i) + K (.exit i) +
    K (.spot (.exit i)) + K (.spot .sink) = 1
  turn : K (.spot .source) + K (.spot .mutex) + K (.entry false) + K (.exit false) +
    K (.entry true) + K (.exit true) + K (.spot .sink) = 1

theorem interleavingBalance_iff {K : Port Bool Turn → ℕ} : InterleavingBalance K ↔
    (∀ i, Game.load [(1, .spot .source), (1, .spot (.entry i)), (1, .entry i), (1, .exit i),
      (1, .spot (.exit i)), (1, .spot .sink)] K = 1) ∧
    Game.load [(1, .spot .source), (1, .spot .mutex), (1, .entry false), (1, .exit false),
      (1, .entry true), (1, .exit true), (1, .spot .sink)] K = 1 := by
  simp only [Game.load, List.map_cons, List.map_nil, List.sum_cons, List.sum_nil, Nat.one_mul,
    Nat.add_zero, ← Nat.add_assoc]
  exact ⟨fun h => ⟨h.branch, h.turn⟩, fun h => ⟨h.1, h.2⟩⟩

theorem InterleavingBalance.step {K N : Port Bool Turn → ℕ} {t : Stage Bool Pass}
    (h : InterleavingBalance K) (fires : interleaving.game.Fires K t N) :
    InterleavingBalance N := by
  rw [interleavingBalance_iff] at h ⊢
  obtain ⟨branch, turn⟩ := h
  refine ⟨fun i => ?_, ?_⟩
  · refine (Game.load_eq_of_fires ?_ fires).trans (branch i)
    rintro ((_ | _) | _ | (_ | _) | (_ | _) | _) m hm <;> obtain rfl := Option.some.inj hm <;>
      cases i <;> rfl
  · refine (Game.load_eq_of_fires ?_ fires).trans turn
    rintro ((_ | _) | _ | (_ | _) | (_ | _) | _) m hm <;> obtain rfl := Option.some.inj hm <;> rfl

theorem InterleavingBalance.safe {K : Port Bool Turn → ℕ} (h : InterleavingBalance K) :
    ∀ x, K x ≤ 1 := by
  have first := h.branch false
  have second := h.branch true
  have turn := h.turn
  rintro ((_ | _) | (_ | _) | (_ | _ | _ | (_ | _) | (_ | _))) <;> omega

theorem InterleavingBalance.finished {K : Port Bool Turn → ℕ} (h : InterleavingBalance K)
    (marked : 0 < K (.spot .sink)) : K = Pi.single (.spot .sink) 1 := by
  have first := h.branch false
  have second := h.branch true
  have turn := h.turn
  funext x
  rcases x with (_ | _) | (_ | _) | (_ | _ | _ | (_ | _) | (_ | _)) <;> simp <;> omega

theorem interleaving_balance {K : Port Bool Turn → ℕ}
    (reach : interleaving.game.Reaches (Pi.single interleaving.source 1) K) :
    InterleavingBalance K := by
  refine reach.invariant ?_ fun _ _ _ h fires => h.step fires
  constructor
  · intro i
    simp [interleaving]
  · simp [interleaving]

theorem InterleavingBalance.alone {K : Port Bool Turn → ℕ} (h : InterleavingBalance K) {i : Bool}
    (inside : K (.entry i) + K (.exit i) ≠ 0) : K (.entry !i) = 0 ∧ K (.exit !i) = 0 := by
  have turn := h.turn
  cases i <;> simp only [Bool.not_false, Bool.not_true] <;> omega

def interleavingWeight (K : Port Bool Turn → ℕ) : ℕ :=
  8 * K (.spot .source) + K (.spot .mutex) +
    3 * (K (.spot (.entry false)) + K (.spot (.entry true)) + K (.entry false) + K (.entry true)) +
    2 * (K (.exit false) + K (.exit true))

theorem interleavingWeight_eq (K : Port Bool Turn → ℕ) : interleavingWeight K =
    Game.load [(8, .spot .source), (1, .spot .mutex), (3, .spot (.entry false)),
      (3, .spot (.entry true)), (3, .entry false), (3, .entry true), (2, .exit false),
      (2, .exit true)] K := by
  simp only [interleavingWeight, Game.load, List.map_cons, List.map_nil, List.sum_cons,
    List.sum_nil]
  omega

theorem interleavingWeight_lt {K N : Port Bool Turn → ℕ} {t : Stage Bool Pass}
    (fires : interleaving.game.Fires K t N) : interleavingWeight N < interleavingWeight K := by
  rw [interleavingWeight_eq, interleavingWeight_eq]
  refine Game.load_lt_of_fires ?_ fires
  rintro ((_ | _) | _ | (_ | _) | (_ | _) | _) m hm <;> obtain rfl := Option.some.inj hm <;> decide

theorem InterleavingBalance.enables {K : Port Bool Turn → ℕ} (h : InterleavingBalance K)
    (unmarked : K (.spot .sink) = 0) : ∃ t a b, interleaving.game t = some (.ofLists a b) ∧
      ∀ x ∈ a, 0 < K x := by
  have turn := h.turn
  have branch := h.branch
  by_cases source : 0 < K (.spot .source)
  · exact ⟨.route .split, _, _, rfl, by simpa [interleaving] using source⟩
  by_cases inside : ∃ i, 0 < K (.entry i)
  · obtain ⟨i, inside⟩ := inside
    exact ⟨.whole i, _, _, rfl, by simpa using inside⟩
  by_cases through : ∃ i, 0 < K (.exit i)
  · obtain ⟨i, through⟩ := through
    exact ⟨.route (.leave i), _, _, rfl, by simpa [interleaving] using through⟩
  simp only [not_exists, Bool.forall_bool] at inside through branch
  by_cases waiting : ∃ i, 0 < K (.spot (.entry i))
  · obtain ⟨i, waiting⟩ := waiting
    refine ⟨.route (.enter i), _, _, rfl,
      List.forall_mem_cons.2 ⟨waiting, List.forall_mem_singleton.2 ?_⟩⟩
    omega
  simp only [not_exists, Bool.forall_bool] at waiting
  refine ⟨.route .join, _, _, rfl, List.forall_mem_cons.2 ⟨?_, List.forall_mem_cons.2 ⟨?_,
    List.forall_mem_singleton.2 ?_⟩⟩⟩ <;> omega

theorem interleaving_runs (i : Bool) : interleaving.game.Runs (Pi.single interleaving.source 1)
    [.route .split, .route (.enter i), .whole i, .route (.leave i),
      .route (.enter !i), .whole !i, .route (.leave !i), .route .join]
    (Pi.single interleaving.sink 1) := by
  rw [← marks_singleton, ← marks_singleton]
  have split := Game.fires_marks (G := interleaving.game) (t := .route .split)
    (l := [.spot .source]) [] rfl (by decide) (by decide) (by decide)
  have enter := Game.fires_marks (G := interleaving.game) (t := .route (.enter i))
    (l := [.spot (.entry false), .spot (.entry true), .spot .mutex]) [.spot (.entry !i)] rfl
    (by cases i <;> decide) (by cases i <;> decide) (by cases i <;> decide)
  have whole := Game.fires_marks (G := interleaving.game) (t := .whole i)
    (l := [.entry i, .spot (.entry !i)]) [.spot (.entry !i)] rfl
    (by cases i <;> decide) (by cases i <;> decide) (by cases i <;> decide)
  have leave := Game.fires_marks (G := interleaving.game) (t := .route (.leave i))
    (l := [.exit i, .spot (.entry !i)]) [.spot (.entry !i)] rfl
    (by cases i <;> decide) (by cases i <;> decide) (by cases i <;> decide)
  have enter' := Game.fires_marks (G := interleaving.game) (t := .route (.enter !i))
    (l := [.spot (.exit i), .spot .mutex, .spot (.entry !i)]) [.spot (.exit i)] rfl
    (by cases i <;> decide) (by cases i <;> decide) (by cases i <;> decide)
  have whole' := Game.fires_marks (G := interleaving.game) (t := .whole !i)
    (l := [.entry !i, .spot (.exit i)]) [.spot (.exit i)] rfl
    (by cases i <;> decide) (by cases i <;> decide) (by cases i <;> decide)
  have leave' := Game.fires_marks (G := interleaving.game) (t := .route (.leave !i))
    (l := [.exit !i, .spot (.exit i)]) [.spot (.exit i)] rfl
    (by cases i <;> decide) (by cases i <;> decide) (by cases i <;> decide)
  have join := Game.fires_marks (G := interleaving.game) (t := .route .join)
    (l := [.spot (.exit !i), .spot .mutex, .spot (.exit i)]) [] rfl
    (by cases i <;> decide) (by cases i <;> decide) (by decide)
  exact .cons trivial split <| .cons trivial enter <| .cons trivial whole <|
    .cons trivial leave <| .cons trivial enter' <| .cons trivial whole' <|
    .cons trivial leave' <| .cons trivial join <| .nil trivial

theorem interleaving_sound :
    interleaving.game.Sound interleaving.source interleaving.sink := by
  refine Game.sound_of_balance (I := InterleavingBalance) ?_ ?_ (fun _ _ _ h => h.step)
    (fun _ h => h.safe) (fun _ h => h.finished) (fun _ h => h.enables)
    (fun _ _ _ => interleavingWeight_lt) (interleaving_runs false) ?_
  · rintro (j | _ | j | j | _) m h <;> obtain rfl := Option.some.inj h <;>
      exact ⟨_, _, List.cons_ne_nil _ _, rfl⟩
  · exact interleaving_balance (.refl _)
  · rintro ((_ | _) | (_ | (_ | _) | (_ | _) | _)) <;> simp

end Skeleton

end ProcessNet
