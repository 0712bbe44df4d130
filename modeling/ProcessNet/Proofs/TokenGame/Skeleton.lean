import ProcessNet.Proofs.TokenGame.Basic

/-!
Games put together from games. A skeleton shows each operand as one step from its entry to its exit
and joins these ports by added places and routes. Played as it stands it forgets what the operands do
inside; refined, every step of an operand is replaced by the operand's own game between its source
and its sink.
-/

namespace ProcessNet

def Move.ofLists {P : Type} [DecidableEq P] (inputs outputs : List P) : Move P where
  take p := if p ∈ inputs then 1 else 0
  put p := if p ∈ outputs then 1 else 0

theorem Move.take_ofLists_pos {P : Type} [DecidableEq P] {inputs outputs : List P} {p : P} :
    0 < (Move.ofLists inputs outputs).take p ↔ p ∈ inputs := by
  by_cases h : p ∈ inputs <;> simp [ofLists, h]

theorem Move.put_ofLists_pos {P : Type} [DecidableEq P] {inputs outputs : List P} {p : P} :
    0 < (Move.ofLists inputs outputs).put p ↔ p ∈ outputs := by
  by_cases h : p ∈ outputs <;> simp [ofLists, h]

theorem Move.ofLists_enabled {P : Type} [DecidableEq P] {inputs outputs : List P} {M : P → ℕ} :
    (∀ p, (Move.ofLists inputs outputs).take p ≤ M p) ↔ ∀ p ∈ inputs, 0 < M p := by
  constructor
  · intro h p hp
    have := h p
    simp only [ofLists, if_pos hp] at this
    exact this
  · intro h p
    by_cases hp : p ∈ inputs
    · simp only [ofLists, if_pos hp]
      exact h p hp
    · simp only [ofLists, if_neg hp, Nat.zero_le]

theorem Move.ofLists_fires {P : Type} [DecidableEq P] {inputs : List P} (outputs : List P)
    {M : P → ℕ} (enabled : ∀ p ∈ inputs, 0 < M p) (safe : ∀ p, M p ≤ 1) :
    ∃ N, (Move.ofLists inputs outputs).Fires M N := by
  have enabled : ∀ p, (ofLists inputs outputs).take p ≤ M p := ofLists_enabled.2 enabled
  refine ⟨fun p => M p - (ofLists inputs outputs).take p + (ofLists inputs outputs).put p,
    enabled, fun p => ?_, fun p _ => ?_⟩
  · have := enabled p
    omega
  · have := safe p
    have : (ofLists inputs outputs).put p ≤ 1 := by
      simp only [ofLists]
      split <;> omega
    simp only [Place.capacity_value]
    omega

theorem Carries.marks {P P' : Type} [DecidableEq P] [DecidableEq P'] {κ : P → P'} {L : Set P}
    (inj : Set.InjOn κ L) {l : List P} {l' : List P'} (sub : ∀ p ∈ l, p ∈ L)
    (image : ∀ q, q ∈ l' ↔ ∃ p ∈ l, κ p = q) :
    Carries κ L (fun p => if p ∈ l then 1 else 0) (fun q => if q ∈ l' then 1 else 0) where
  on p hp := by
    refine if_congr ?_ rfl rfl
    rw [image]
    constructor
    · rintro ⟨p', hp', eq⟩
      exact inj (sub p' hp') hp eq ▸ hp'
    · exact fun mem => ⟨p, mem, rfl⟩
  outside p hp := if_neg fun mem => hp (sub p mem)
  beyond q hq := by
    refine if_neg fun mem => ?_
    obtain ⟨p, hp, eq⟩ := (image q).1 mem
    exact hq p (sub p hp) eq

theorem Move.ofLists_carried {P P' : Type} [DecidableEq P] [DecidableEq P'] {κ : P → P'}
    {L : Set P} (inj : Set.InjOn κ L) {a b : List P} {a' b' : List P'} (ha : ∀ p ∈ a, p ∈ L)
    (hb : ∀ p ∈ b, p ∈ L) (ha' : ∀ q, q ∈ a' ↔ ∃ p ∈ a, κ p = q)
    (hb' : ∀ q, q ∈ b' ↔ ∃ p ∈ b, κ p = q) :
    (Move.ofLists a b).Carried κ L (Move.ofLists a' b') :=
  ⟨.marks inj ha ha', .marks inj hb hb'⟩

/-- A place of a skeleton: where an operand begins or ends, or an added place. -/
inductive Port (I S : Type)
  | entry (i : I)
  | exit (i : I)
  | spot (s : S)
deriving DecidableEq

inductive Site (I P S : Type)
  | inner (i : I) (p : P)
  | spot (s : S)
deriving DecidableEq

/-- A move of a skeleton: a whole operand, or a route. -/
inductive Stage (I R : Type)
  | whole (i : I)
  | route (r : R)

inductive Action (I T R : Type)
  | inner (i : I) (t : T)
  | route (r : R)

/-- The lists give the order in which operands, places and routes are put together. -/
structure Skeleton (I S R : Type) where
  parts : List I
  spots : List S
  routes : List R
  take : R → List (Port I S)
  put : R → List (Port I S)
  source : Port I S
  sink : Port I S
  parts_all : ∀ i, i ∈ parts
  spots_all : ∀ s, s ∈ spots
  routes_all : ∀ r, r ∈ routes

def Move.within {I P S : Type} [DecidableEq I] (i : I) (m : Move P) : Move (Site I P S) where
  take
    | .inner j p => if j = i then m.take p else 0
    | .spot _ => 0
  put
    | .inner j p => if j = i then m.put p else 0
    | .spot _ => 0

theorem Move.within_ofLists {I P S : Type} [DecidableEq I] [DecidableEq P] [DecidableEq S] (i : I)
    (inputs outputs : List P) : ((Move.ofLists inputs outputs).within i : Move (Site I P S)) =
      .ofLists (inputs.map (.inner i)) (outputs.map (.inner i)) := by
  have marks : ∀ (l : List P) (y : Site I P S), (match y with
      | .inner j p => if j = i then (if p ∈ l then 1 else 0) else 0
      | .spot _ => 0) = if y ∈ l.map (Site.inner i) then 1 else 0 := by
    intro l y
    cases y with
    | spot s => simp
    | inner j p =>
      by_cases hj : j = i
      · subst hj
        simp
      · have : ¬i = j := fun eq => hj eq.symm
        simp [hj, this]
  exact congrArg₂ Move.mk (funext (marks inputs)) (funext (marks outputs))

namespace Skeleton

variable {I S R P T : Type}

def site (s e : I → P) : Port I S → Site I P S
  | .entry i => .inner i (s i)
  | .exit i => .inner i (e i)
  | .spot x => .spot x

theorem spot_mem_map_site {s e : I → P} {l : List (Port I S)} {x : S} :
    Site.spot x ∈ l.map (site s e) ↔ Port.spot x ∈ l := by
  rw [List.mem_map]
  constructor
  · rintro ⟨y, hy, eq⟩
    cases y <;> simp only [site, reduceCtorEq, Site.spot.injEq] at eq
    exact eq ▸ hy
  · exact fun h => ⟨_, h, rfl⟩

theorem inner_mem_map_site {s e : I → P} {l : List (Port I S)} {i : I} {p : P} :
    Site.inner i p ∈ l.map (site s e) ↔
      p = s i ∧ Port.entry i ∈ l ∨ p = e i ∧ Port.exit i ∈ l := by
  rw [List.mem_map]
  constructor
  · rintro ⟨y, hy, eq⟩
    cases y <;> simp only [site, reduceCtorEq, Site.inner.injEq] at eq
    · obtain ⟨rfl, rfl⟩ := eq
      exact .inl ⟨rfl, hy⟩
    · obtain ⟨rfl, rfl⟩ := eq
      exact .inr ⟨rfl, hy⟩
  · rintro (⟨rfl, h⟩ | ⟨rfl, h⟩)
    · exact ⟨_, h, rfl⟩
    · exact ⟨_, h, rfl⟩

variable [DecidableEq I] [DecidableEq S] [DecidableEq P]

def game (k : Skeleton I S R) : Game (Port I S) (Stage I R)
  | .whole i => some (.ofLists [.entry i] [.exit i])
  | .route r => some (.ofLists (k.take r) (k.put r))

def refine (k : Skeleton I S R) (A : I → Game P T) (s e : I → P) :
    Game (Site I P S) (Action I T R)
  | .inner i t => (A i t).map (Move.within i)
  | .route r => some (.ofLists ((k.take r).map (site s e)) ((k.put r).map (site s e)))

/-- Operands are entered only at their entry and left only at their exit. -/
structure Framed (k : Skeleton I S R) : Prop where
  entry_kept : ∀ r i, Port.entry i ∉ k.take r
  exit_made : ∀ r i, Port.exit i ∉ k.put r
  source_ne : ∀ i, k.source ≠ .exit i
  sink_ne : ∀ i, k.sink ≠ .entry i

variable {k : Skeleton I S R} {A : I → Game P T} {s e : I → P}

omit [DecidableEq I] [DecidableEq S] [DecidableEq P] in
theorem site_injective (ne : ∀ i, s i ≠ e i) : Function.Injective (site (S := S) s e) := by
  intro x y eq
  cases x <;> cases y <;> simp only [site, Site.inner.injEq, Site.spot.injEq, reduceCtorEq] at eq
  · exact congrArg _ eq.1
  · obtain ⟨rfl, eq⟩ := eq
    exact absurd eq (ne _)
  · obtain ⟨rfl, eq⟩ := eq
    exact absurd eq.symm (ne _)
  · exact congrArg _ eq.1
  · exact congrArg _ eq

theorem game_consumes {x : Port I S} :
    k.game.Consumes x ↔ (∃ i, x = .entry i) ∨ ∃ r, x ∈ k.take r := by
  constructor
  · rintro ⟨i | r, m, h, takes⟩ <;> obtain rfl := Option.some.inj h
    · exact .inl ⟨i, List.mem_singleton.1 (Move.take_ofLists_pos.1 takes)⟩
    · exact .inr ⟨r, Move.take_ofLists_pos.1 takes⟩
  · rintro (⟨i, rfl⟩ | ⟨r, hr⟩)
    · exact ⟨.whole i, _, rfl, Move.take_ofLists_pos.2 (List.mem_singleton_self _)⟩
    · exact ⟨.route r, _, rfl, Move.take_ofLists_pos.2 hr⟩

theorem game_produces {x : Port I S} :
    k.game.Produces x ↔ (∃ i, x = .exit i) ∨ ∃ r, x ∈ k.put r := by
  constructor
  · rintro ⟨i | r, m, h, puts⟩ <;> obtain rfl := Option.some.inj h
    · exact .inl ⟨i, List.mem_singleton.1 (Move.put_ofLists_pos.1 puts)⟩
    · exact .inr ⟨r, Move.put_ofLists_pos.1 puts⟩
  · rintro (⟨i, rfl⟩ | ⟨r, hr⟩)
    · exact ⟨.whole i, _, rfl, Move.put_ofLists_pos.2 (List.mem_singleton_self _)⟩
    · exact ⟨.route r, _, rfl, Move.put_ofLists_pos.2 hr⟩

theorem refine_consumes {y : Site I P S} : (k.refine A s e).Consumes y ↔
    (∃ i p, y = .inner i p ∧ (A i).Consumes p) ∨ ∃ r, y ∈ (k.take r).map (site s e) := by
  constructor
  · rintro ⟨⟨i, t⟩ | r, m, h, takes⟩
    · obtain ⟨m, hm, rfl⟩ := Option.map_eq_some_iff.1 h
      cases y with
      | spot x => exact absurd takes (Nat.lt_irrefl 0)
      | inner j p =>
        by_cases hj : j = i
        · subst hj
          exact .inl ⟨j, p, rfl, t, m, hm, by simpa [Move.within] using takes⟩
        · simp [Move.within, hj] at takes
    · obtain rfl := Option.some.inj h
      exact .inr ⟨r, Move.take_ofLists_pos.1 takes⟩
  · rintro (⟨i, p, rfl, t, m, hm, takes⟩ | ⟨r, hr⟩)
    · exact ⟨.inner i t, m.within i, by simp [refine, hm], by simpa [Move.within] using takes⟩
    · exact ⟨.route r, _, rfl, Move.take_ofLists_pos.2 hr⟩

theorem refine_produces {y : Site I P S} : (k.refine A s e).Produces y ↔
    (∃ i p, y = .inner i p ∧ (A i).Produces p) ∨ ∃ r, y ∈ (k.put r).map (site s e) := by
  constructor
  · rintro ⟨⟨i, t⟩ | r, m, h, puts⟩
    · obtain ⟨m, hm, rfl⟩ := Option.map_eq_some_iff.1 h
      cases y with
      | spot x => exact absurd puts (Nat.lt_irrefl 0)
      | inner j p =>
        by_cases hj : j = i
        · subst hj
          exact .inl ⟨j, p, rfl, t, m, hm, by simpa [Move.within] using puts⟩
        · simp [Move.within, hj] at puts
    · obtain rfl := Option.some.inj h
      exact .inr ⟨r, Move.put_ofLists_pos.1 puts⟩
  · rintro (⟨i, p, rfl, t, m, hm, puts⟩ | ⟨r, hr⟩)
    · exact ⟨.inner i t, m.within i, by simp [refine, hm], by simpa [Move.within] using puts⟩
    · exact ⟨.route r, _, rfl, Move.put_ofLists_pos.2 hr⟩

section Ends

variable (inside : ∀ i, (A i).HasEnds (s i) (e i))

include inside

theorem consumes_site {x : Port I S} :
    (k.refine A s e).Consumes (site s e x) ↔ k.game.Consumes x := by
  have ne := fun i => (inside i).ne
  rw [refine_consumes, game_consumes]
  refine or_congr ⟨?_, ?_⟩
    (exists_congr fun r => List.mem_map_of_injective (site_injective ne))
  · rintro ⟨i, p, eq, consumes⟩
    cases x with
    | entry j => exact ⟨j, rfl⟩
    | spot z => simp [site] at eq
    | exit j =>
      simp only [site, Site.inner.injEq] at eq
      obtain ⟨rfl, rfl⟩ := eq
      exact absurd consumes (((inside j).sink (e j)).2 rfl).2
  · rintro ⟨i, rfl⟩
    exact ⟨i, s i, rfl, (((inside i).source (s i)).2 rfl).1⟩

theorem produces_site {x : Port I S} :
    (k.refine A s e).Produces (site s e x) ↔ k.game.Produces x := by
  have ne := fun i => (inside i).ne
  rw [refine_produces, game_produces]
  refine or_congr ⟨?_, ?_⟩
    (exists_congr fun r => List.mem_map_of_injective (site_injective ne))
  · rintro ⟨i, p, eq, produces⟩
    cases x with
    | exit j => exact ⟨j, rfl⟩
    | spot z => simp [site] at eq
    | entry j =>
      simp only [site, Site.inner.injEq] at eq
      obtain ⟨rfl, rfl⟩ := eq
      exact absurd produces (((inside j).source (s j)).2 rfl).2
  · rintro ⟨i, rfl⟩
    exact ⟨i, e i, rfl, (((inside i).sink (e i)).2 rfl).1⟩

omit inside [DecidableEq I] [DecidableEq S] in
theorem site_or_within (s e : I → P) (y : Site I P S) : (∃ x, site s e x = y) ∨
    ∃ i p, y = .inner i p ∧ p ≠ s i ∧ p ≠ e i := by
  cases y with
  | spot x => exact .inl ⟨.spot x, rfl⟩
  | inner i p =>
    by_cases hs : p = s i
    · exact .inl ⟨.entry i, by rw [hs]; rfl⟩
    · by_cases he : p = e i
      · exact .inl ⟨.exit i, by rw [he]; rfl⟩
      · exact .inr ⟨i, p, rfl, hs, he⟩

omit inside in
theorem consumes_within {i : I} {p : P} (hs : p ≠ s i) (he : p ≠ e i) :
    (k.refine A s e).Consumes (.inner i p) ↔ (A i).Consumes p := by
  rw [refine_consumes]
  constructor
  · rintro (⟨j, q, eq, consumes⟩ | ⟨r, hr⟩)
    · cases eq
      exact consumes
    · rcases inner_mem_map_site.1 hr with ⟨eq, -⟩ | ⟨eq, -⟩
      · exact absurd eq hs
      · exact absurd eq he
  · exact fun consumes => .inl ⟨i, p, rfl, consumes⟩

omit inside in
theorem produces_within {i : I} {p : P} (hs : p ≠ s i) (he : p ≠ e i) :
    (k.refine A s e).Produces (.inner i p) ↔ (A i).Produces p := by
  rw [refine_produces]
  constructor
  · rintro (⟨j, q, eq, produces⟩ | ⟨r, hr⟩)
    · cases eq
      exact produces
    · rcases inner_mem_map_site.1 hr with ⟨eq, -⟩ | ⟨eq, -⟩
      · exact absurd eq hs
      · exact absurd eq he
  · exact fun produces => .inl ⟨i, p, rfl, produces⟩

theorem refine_hasEnds (ends : k.game.HasEnds k.source k.sink) :
    (k.refine A s e).HasEnds (site s e k.source) (site s e k.sink) := by
  have ne := fun i => (inside i).ne
  constructor <;> intro y <;> rcases site_or_within s e y with ⟨x, rfl⟩ | ⟨i, p, rfl, hs, he⟩
  · rw [consumes_site inside, produces_site inside, ends.source, (site_injective ne).eq_iff]
  · rw [consumes_within hs he, produces_within hs he, (inside i).source]
    refine iff_of_false hs fun eq => ?_
    have := (inner_mem_map_site (l := [k.source]) (s := s) (e := e)).1
      (List.mem_singleton.2 eq)
    rcases this with ⟨eq, -⟩ | ⟨eq, -⟩
    · exact hs eq
    · exact he eq
  · rw [consumes_site inside, produces_site inside, ends.sink, (site_injective ne).eq_iff]
  · rw [consumes_within hs he, produces_within hs he, (inside i).sink]
    refine iff_of_false he fun eq => ?_
    have := (inner_mem_map_site (l := [k.sink]) (s := s) (e := e)).1
      (List.mem_singleton.2 eq)
    rcases this with ⟨eq, -⟩ | ⟨eq, -⟩
    · exact hs eq
    · exact he eq

end Ends

end Skeleton

end ProcessNet
