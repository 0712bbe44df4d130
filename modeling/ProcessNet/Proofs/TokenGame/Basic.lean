import Mathlib
import ProcessNet.Net.Place

/-!
The token game apart from any net: places carry counts, and a move takes from some places and puts
into others. A marking is a function of places, so what a move does is read place by place and no
order of entries matters. Counts have the capacity of a place, and only places that receive a token
are checked against it. Runs carry a condition on every marking they visit; a run without condition
is one whose condition is always true.
-/

namespace ProcessNet

structure Move (P : Type) where
  take : P → ℕ
  put : P → ℕ

structure Move.Fires {P : Type} (m : Move P) (M N : P → ℕ) : Prop where
  enabled : ∀ p, m.take p ≤ M p
  balance : ∀ p, N p + m.take p = M p + m.put p
  fits : ∀ p, 0 < m.put p → N p ≤ Place.capacity

theorem Move.Fires.unique {P : Type} {m : Move P} {M N N' : P → ℕ} (h : m.Fires M N)
    (h' : m.Fires M N') : N = N' := by
  funext p
  have := h.balance p
  have := h'.balance p
  omega

/-- The move of each name that has one. -/
abbrev Game (P T : Type) := T → Option (Move P)

namespace Game

variable {P T P' T' : Type} {G : Game P T} {H : Game P' T'} {ok : (P → ℕ) → Prop}
  {M N O : P → ℕ} {t : T} {ts us : List T}

def known (G : Game P T) (t : T) : Bool := (G t).isSome

theorem known_of_eq_some {m : Move P} (h : G t = some m) : G.known t = true := by
  rw [known, h, Option.isSome_some]

def Fires (G : Game P T) (M : P → ℕ) (t : T) (N : P → ℕ) : Prop :=
  ∃ m, G t = some m ∧ m.Fires M N

theorem Fires.unique (h : G.Fires M t N) (h' : G.Fires M t O) : N = O := by
  obtain ⟨m, hm, h⟩ := h
  obtain ⟨m', hm', h'⟩ := h'
  obtain rfl := Option.some.inj (hm.symm.trans hm')
  exact h.unique h'

inductive RunsWhile (G : Game P T) (ok : (P → ℕ) → Prop) : (P → ℕ) → List T → (P → ℕ) → Prop
  | nil {M : P → ℕ} : ok M → RunsWhile G ok M [] M
  | cons {M N O : P → ℕ} {t : T} {ts : List T} :
      ok M → G.Fires M t N → RunsWhile G ok N ts O → RunsWhile G ok M (t :: ts) O

abbrev Runs (G : Game P T) : (P → ℕ) → List T → (P → ℕ) → Prop := G.RunsWhile fun _ => True

theorem RunsWhile.start (h : G.RunsWhile ok M ts N) : ok M := by
  cases h <;> assumption

theorem RunsWhile.mono {ok' : (P → ℕ) → Prop} (imp : ∀ M, ok M → ok' M)
    (h : G.RunsWhile ok M ts N) : G.RunsWhile ok' M ts N := by
  induction h with
  | nil hM => exact .nil (imp _ hM)
  | cons hM fires _ ih => exact .cons (imp _ hM) fires ih

theorem RunsWhile.append (h : G.RunsWhile ok M ts N) (h' : G.RunsWhile ok N us O) :
    G.RunsWhile ok M (ts ++ us) O := by
  induction h with
  | nil _ => exact h'
  | cons hM fires _ ih => exact .cons hM fires (ih h')

theorem RunsWhile.concat (run : G.Runs M ts N) (fires : G.Fires N t O) :
    G.Runs M (ts ++ [t]) O := run.append (.cons trivial fires (.nil trivial))

theorem RunsWhile.along {ok' : (P → ℕ) → Prop} (h : G.RunsWhile ok M ts N)
    (holds : ∀ us O, us <+: ts → G.RunsWhile ok M us O → ok' O) : G.RunsWhile ok' M ts N := by
  induction h with
  | nil hM => exact .nil (holds [] _ (List.prefix_refl []) (.nil hM))
  | @cons M N O t ts hM fires _ ih =>
    refine .cons (holds [] M List.nil_prefix (.nil hM)) fires (ih fun us O before run => ?_)
    exact holds (t :: us) O (List.cons_prefix_cons.2 ⟨rfl, before⟩) (.cons hM fires run)

theorem RunsWhile.at_prefix (h : G.RunsWhile ok M ts N) (before : us <+: ts) (run : G.Runs M us O) :
    ok O := by
  induction h generalizing us with
  | nil hM =>
    obtain rfl := List.prefix_nil.1 before
    cases run
    exact hM
  | cons hM fires _ ih =>
    cases run with
    | nil _ => exact hM
    | cons _ fires' rest =>
      obtain ⟨rfl, later⟩ := List.cons_prefix_cons.1 before
      exact ih later (fires.unique fires' ▸ rest)

theorem RunsWhile.known (h : G.RunsWhile ok M ts N) : ∀ t ∈ ts, G.known t = true := by
  induction h with
  | nil _ => exact fun _ ht => nomatch ht
  | cons _ fires _ ih =>
    obtain ⟨m, hm, -⟩ := fires
    exact List.forall_mem_cons.2 ⟨known_of_eq_some hm, ih⟩

def Reaches (G : Game P T) (M N : P → ℕ) : Prop := ∃ ts, G.Runs M ts N

theorem Reaches.refl (M : P → ℕ) : G.Reaches M M := ⟨[], .nil trivial⟩

theorem Reaches.trans (h : G.Reaches M N) (h' : G.Reaches N O) : G.Reaches M O := by
  obtain ⟨ts, h⟩ := h
  obtain ⟨us, h'⟩ := h'
  exact ⟨ts ++ us, h.append h'⟩

theorem Reaches.step (h : G.Fires M t N) : G.Reaches M N :=
  ⟨[t], .cons trivial h (.nil trivial)⟩

theorem Reaches.invariant {I : (P → ℕ) → Prop} (h : G.Reaches M N) (start : I M)
    (keep : ∀ M t N, I M → G.Fires M t N → I N) : I N := by
  obtain ⟨ts, run⟩ := h
  induction run with
  | nil _ => exact start
  | cons _ fires _ ih => exact ih (keep _ _ _ start fires)

def taken (G : Game P T) (ts : List T) (p : P) : ℕ :=
  (ts.map fun t => (G t).elim 0 fun m => m.take p).sum

def given (G : Game P T) (ts : List T) (p : P) : ℕ :=
  (ts.map fun t => (G t).elim 0 fun m => m.put p).sum

theorem taken_perm (h : ts.Perm us) : G.taken ts = G.taken us := by
  funext p
  exact (h.map _).sum_eq

theorem given_perm (h : ts.Perm us) : G.given ts = G.given us := by
  funext p
  exact (h.map _).sum_eq

theorem runs_together (known : ∀ t ∈ ts, ∃ m, G t = some m) (enough : ∀ p, G.taken ts p ≤ M p)
    (room : ∀ p, M p + G.given ts p ≤ Place.capacity) :
    G.Runs M ts fun p => M p - G.taken ts p + G.given ts p := by
  induction ts generalizing M with
  | nil => exact .nil trivial
  | cons t rest ih =>
    obtain ⟨m, hm⟩ := known t List.mem_cons_self
    have taken : ∀ p, G.taken (t :: rest) p = m.take p + G.taken rest p := fun p => by
      simp [Game.taken, hm]
    have given : ∀ p, G.given (t :: rest) p = m.put p + G.given rest p := fun p => by
      simp [Game.given, hm]
    have fires : m.Fires M fun p => M p - m.take p + m.put p := by
      refine ⟨fun p => ?_, fun p => ?_, fun p _ => ?_⟩
      · have := enough p
        rw [taken] at this
        omega
      · have := enough p
        rw [taken] at this
        omega
      · have := room p
        rw [given] at this
        omega
    have after := ih (M := fun p => M p - m.take p + m.put p)
      (fun u hu => known u (List.mem_cons_of_mem t hu)) (fun p => ?_) fun p => ?_
    · refine .cons trivial ⟨m, hm, fires⟩ ?_
      have same : (fun p => M p - G.taken (t :: rest) p + G.given (t :: rest) p) = fun p =>
          M p - m.take p + m.put p - G.taken rest p + G.given rest p := by
        funext p
        have := enough p
        rw [taken] at this
        rw [taken, given]
        omega
      rw [same]
      exact after
    · have := enough p
      rw [taken] at this
      omega
    · have := enough p
      have := room p
      rw [taken] at *
      rw [given] at *
      omega

def Consumes (G : Game P T) (p : P) : Prop := ∃ t m, G t = some m ∧ 0 < m.take p

def Produces (G : Game P T) (p : P) : Prop := ∃ t m, G t = some m ∧ 0 < m.put p

/-- One place only is consumed but not produced, and one only is produced but not consumed. -/
structure HasEnds (G : Game P T) (source sink : P) : Prop where
  source : ∀ p, G.Consumes p ∧ ¬G.Produces p ↔ p = source
  sink : ∀ p, G.Produces p ∧ ¬G.Consumes p ↔ p = sink

theorem HasEnds.ne {source sink : P} (ends : G.HasEnds source sink) : source ≠ sink := by
  intro eq
  have consumed := ((ends.source source).2 rfl).1
  exact ((ends.sink source).2 eq).2 consumed

theorem HasEnds.stays {source sink : P} (ends : G.HasEnds source sink) {m : Move P}
    (h : G t = some m) : m.take sink = 0 := by
  by_contra takes
  exact ((ends.sink sink).2 rfl).2 ⟨t, m, h, Nat.pos_of_ne_zero takes⟩

variable [DecidableEq P] [DecidableEq P']

def Takes (G : Game P T) : Prop := ∀ t m, G t = some m → ∃ p, 0 < m.take p

omit [DecidableEq P] [DecidableEq P'] in
theorem Takes.marked (takes : G.Takes) (h : G.Fires M t N) : ∃ p, 0 < M p := by
  obtain ⟨m, hm, fires⟩ := h
  obtain ⟨p, hp⟩ := takes t m hm
  exact ⟨p, hp.trans_le (fires.enabled p)⟩

omit [DecidableEq P] [DecidableEq P'] in
theorem Takes.runs_zero (takes : G.Takes) (run : G.RunsWhile ok M ts N) (zero : ∀ p, M p = 0) :
    ts = [] ∧ N = M := by
  cases run with
  | nil _ => exact ⟨rfl, rfl⟩
  | cons _ fires _ =>
    obtain ⟨p, hp⟩ := takes.marked fires
    have := zero p
    omega

/-- Once the sink is marked nothing else is. -/
def Proper (G : Game P T) (source sink : P) : Prop :=
  ∀ M, G.Reaches (Pi.single source 1) M → 0 < M sink → M = Pi.single sink 1

/-- The word is what the labels of a run from the source to the sink spell. -/
def Spells {α : Type} (G : Game P T) (source sink : P) (label : T → Option α) (word : List α) :
    Prop :=
  ∃ ts, G.Runs (Pi.single source 1) ts (Pi.single sink 1) ∧ ts.filterMap label = word

/-- Soundness with at most one token a place: from one token on the source, nothing is left over when
the sink is marked, completion is never lost, and every move has its occasion. -/
structure Sound (G : Game P T) (source sink : P) : Prop where
  takes : ∀ t m, G t = some m → ∃ p, 0 < m.take p
  safe : ∀ M, G.Reaches (Pi.single source 1) M → ∀ p, M p ≤ 1
  proper : ∀ M, G.Reaches (Pi.single source 1) M → 0 < M sink → M = Pi.single sink 1
  completes : ∀ M, G.Reaches (Pi.single source 1) M → G.Reaches M (Pi.single sink 1)
  live : ∀ t m, G t = some m → ∃ M N, G.Reaches (Pi.single source 1) M ∧ m.Fires M N

end Game

/-- Counts on `P` placed along `κ`: the places of `L` go one to one, and elsewhere nothing lies. -/
structure Carries {P P' : Type} (κ : P → P') (L : Set P) (M : P → ℕ) (M' : P' → ℕ) : Prop where
  on : ∀ p ∈ L, M' (κ p) = M p
  outside : ∀ p ∉ L, M p = 0
  beyond : ∀ q, (∀ p ∈ L, κ p ≠ q) → M' q = 0

namespace Carries

variable {P P' : Type} {κ : P → P'} {L : Set P} {M N : P → ℕ} {M' N' : P' → ℕ}

theorem right_unique (h : Carries κ L M M') (h' : Carries κ L M N') : M' = N' := by
  funext q
  by_cases hq : ∃ p ∈ L, κ p = q
  · obtain ⟨p, hp, rfl⟩ := hq
    rw [h.on p hp, h'.on p hp]
  · rw [h.beyond q (by simpa using hq), h'.beyond q (by simpa using hq)]

theorem left_unique (h : Carries κ L M M') (h' : Carries κ L N M') : M = N := by
  funext p
  by_cases hp : p ∈ L
  · rw [← h.on p hp, h'.on p hp]
  · rw [h.outside p hp, h'.outside p hp]

theorem exists_right (inj : Set.InjOn κ L) (outside : ∀ p ∉ L, M p = 0) :
    ∃ M', Carries κ L M M' := by
  classical
  refine ⟨fun q => if h : ∃ p ∈ L, κ p = q then M h.choose else 0, fun p hp => ?_, outside,
    fun q hq => ?_⟩
  · have h : ∃ p' ∈ L, κ p' = κ p := ⟨p, hp, rfl⟩
    rw [dif_pos h, inj h.choose_spec.1 hp h.choose_spec.2]
  · have h : ¬∃ p ∈ L, κ p = q := by simpa using hq
    rw [dif_neg h]

theorem exists_left (beyond : ∀ q, (∀ p ∈ L, κ p ≠ q) → M' q = 0) :
    ∃ M, Carries κ L M M' := by
  classical
  refine ⟨fun p => if p ∈ L then M' (κ p) else 0, fun p hp => ?_, fun p hp => ?_, beyond⟩
  · simp [hp]
  · simp [hp]

theorem single [DecidableEq P] [DecidableEq P'] (inj : Set.InjOn κ L) {p : P} (hp : p ∈ L) :
    Carries κ L (Pi.single p 1) (Pi.single (κ p) 1) where
  on q hq := by
    by_cases h : q = p
    · simp [h]
    · have : κ q ≠ κ p := fun eq => h (inj hq hp eq)
      simp [h, this]
  outside q hq := by
    have : q ≠ p := fun eq => hq (eq ▸ hp)
    simp [this]
  beyond q hq := by
    simp [(hq p hp).symm]

end Carries

structure Move.Carried {P P' : Type} (κ : P → P') (L : Set P) (m : Move P) (m' : Move P') :
    Prop where
  take : Carries κ L m.take m'.take
  put : Carries κ L m.put m'.put

theorem Move.Carried.fires_iff {P P' : Type} {κ : P → P'} {L : Set P} {m : Move P}
    {m' : Move P'} {M N : P → ℕ} {M' N' : P' → ℕ} (hm : m.Carried κ L m')
    (hM : Carries κ L M M') (hN : Carries κ L N N') : m'.Fires M' N' ↔ m.Fires M N := by
  constructor
  · rintro ⟨enabled, balance, fits⟩
    refine ⟨fun p => ?_, fun p => ?_, fun p hp => ?_⟩ <;> by_cases hL : p ∈ L
    · rw [← hm.take.on p hL, ← hM.on p hL]; exact enabled _
    · rw [hm.take.outside p hL]; exact Nat.zero_le _
    · rw [← hm.take.on p hL, ← hM.on p hL, ← hN.on p hL, ← hm.put.on p hL]; exact balance _
    · rw [hm.take.outside p hL, hM.outside p hL, hN.outside p hL, hm.put.outside p hL]
    · rw [← hN.on p hL]; exact fits _ (by rwa [hm.put.on p hL])
    · rw [hN.outside p hL]; exact Nat.zero_le _
  · rintro ⟨enabled, balance, fits⟩
    refine ⟨fun q => ?_, fun q => ?_, fun q hq => ?_⟩ <;>
      rcases em (∃ p ∈ L, κ p = q) with ⟨p, hL, rfl⟩ | none
    · rw [hm.take.on p hL, hM.on p hL]; exact enabled _
    · rw [hm.take.beyond q (by simpa using none)]; exact Nat.zero_le _
    · rw [hm.take.on p hL, hM.on p hL, hN.on p hL, hm.put.on p hL]; exact balance _
    · have none : ∀ p ∈ L, κ p ≠ q := by simpa using none
      rw [hm.take.beyond q none, hM.beyond q none, hN.beyond q none, hm.put.beyond q none]
    · rw [hN.on p hL]; exact fits _ (by rwa [← hm.put.on p hL])
    · rw [hN.beyond q (by simpa using none)]; exact Nat.zero_le _

namespace Game

variable {P T P' T' : Type} {G : Game P T} {H : Game P' T'} {κ : P → P'} {τ : T → T'} {L : Set P}
  {M N : P → ℕ} {M' N' : P' → ℕ} {t : T} {t' : T'} {ts : List T} {ts' : List T'}

/-- `H` is `G` with its places renamed by `κ` and its moves by `τ`. -/
structure Copies (G : Game P T) (H : Game P' T') (κ : P → P') (τ : T → T') (L : Set P) :
    Prop where
  inj : Set.InjOn κ L
  sends : ∀ t m, G t = some m → ∃ m', H (τ t) = some m' ∧ m.Carried κ L m'
  onto : ∀ t' m', H t' = some m' → ∃ t m, τ t = t' ∧ G t = some m ∧ m.Carried κ L m'

namespace Copies

variable (copies : G.Copies H κ τ L)

include copies

theorem fires (h : G.Fires M t N) (hM : Carries κ L M M') :
    ∃ N', H.Fires M' (τ t) N' ∧ Carries κ L N N' := by
  obtain ⟨m, hm, fires⟩ := h
  obtain ⟨m', hm', carried⟩ := copies.sends t m hm
  obtain ⟨N', hN⟩ : ∃ N', Carries κ L N N' := by
    refine Carries.exists_right copies.inj fun p hp => ?_
    have := fires.balance p
    have := hM.outside p hp
    have := carried.put.outside p hp
    omega
  exact ⟨N', ⟨m', hm', (carried.fires_iff hM hN).2 fires⟩, hN⟩

theorem fires_back (h : H.Fires M' t' N') (hM : Carries κ L M M') :
    ∃ t N, τ t = t' ∧ G.Fires M t N ∧ Carries κ L N N' := by
  obtain ⟨m', hm', fires⟩ := h
  obtain ⟨t, m, ht, hm, carried⟩ := copies.onto t' m' hm'
  obtain ⟨N, hN⟩ : ∃ N, Carries κ L N N' := by
    refine Carries.exists_left fun q hq => ?_
    have := fires.balance q
    have := hM.beyond q hq
    have := carried.put.beyond q hq
    omega
  exact ⟨t, N, ht, ⟨m, hm, (carried.fires_iff hM hN).1 fires⟩, hN⟩

theorem runs (run : G.Runs M ts N) (hM : Carries κ L M M') :
    ∃ N', H.Runs M' (ts.map τ) N' ∧ Carries κ L N N' := by
  induction run generalizing M' with
  | nil _ => exact ⟨M', .nil trivial, hM⟩
  | cons _ fires _ ih =>
    obtain ⟨N', fires', hN⟩ := copies.fires fires hM
    obtain ⟨O', rest, hO⟩ := ih hN
    exact ⟨O', .cons trivial fires' rest, hO⟩

theorem runs_back (run : H.Runs M' ts' N') (hM : Carries κ L M M') :
    ∃ ts N, ts.map τ = ts' ∧ G.Runs M ts N ∧ Carries κ L N N' := by
  induction run generalizing M with
  | nil _ => exact ⟨[], M, rfl, .nil trivial, hM⟩
  | cons _ fires _ ih =>
    obtain ⟨t, N, ht, fires', hN⟩ := copies.fires_back fires hM
    obtain ⟨ts, O, hts, rest, hO⟩ := ih hN
    exact ⟨t :: ts, O, congrArg₂ _ ht hts, .cons trivial fires' rest, hO⟩

theorem reaches (h : G.Reaches M N) (hM : Carries κ L M M') :
    ∃ N', H.Reaches M' N' ∧ Carries κ L N N' := by
  obtain ⟨ts, run⟩ := h
  obtain ⟨N', run', hN⟩ := copies.runs run hM
  exact ⟨N', ⟨_, run'⟩, hN⟩

theorem reaches_back (h : H.Reaches M' N') (hM : Carries κ L M M') :
    ∃ N, G.Reaches M N ∧ Carries κ L N N' := by
  obtain ⟨ts', run'⟩ := h
  obtain ⟨ts, N, -, run, hN⟩ := copies.runs_back run' hM
  exact ⟨N, ⟨ts, run⟩, hN⟩

theorem touches_iff {side : {Q : Type} → Move Q → Q → ℕ}
    (carries : ∀ {m : Move P} {m' : Move P'}, m.Carried κ L m' → Carries κ L (side m) (side m'))
    (q : P') : (∃ t' m', H t' = some m' ∧ 0 < side m' q) ↔
      ∃ p ∈ L, κ p = q ∧ ∃ t m, G t = some m ∧ 0 < side m p := by
  constructor
  · rintro ⟨t', m', h, touches⟩
    obtain ⟨t, m, -, hm, carried⟩ := copies.onto t' m' h
    by_cases image : ∃ p ∈ L, κ p = q
    · obtain ⟨p, hp, rfl⟩ := image
      exact ⟨p, hp, rfl, t, m, hm, by rwa [← (carries carried).on p hp]⟩
    · rw [(carries carried).beyond q (by simpa using image)] at touches
      exact absurd touches (Nat.lt_irrefl 0)
  · rintro ⟨p, hp, rfl, t, m, h, touches⟩
    obtain ⟨m', hm', carried⟩ := copies.sends t m h
    exact ⟨τ t, m', hm', by rwa [(carries carried).on p hp]⟩

theorem consumes_iff (q : P') : H.Consumes q ↔ ∃ p ∈ L, κ p = q ∧ G.Consumes p :=
  copies.touches_iff Move.Carried.take q

theorem produces_iff (q : P') : H.Produces q ↔ ∃ p ∈ L, κ p = q ∧ G.Produces p :=
  copies.touches_iff Move.Carried.put q

omit copies in
theorem only_image {C D : P → Prop} {C' D' : P' → Prop} (inj : Set.InjOn κ L)
    (hC : ∀ q, C' q ↔ ∃ p ∈ L, κ p = q ∧ C p) (hD : ∀ q, D' q ↔ ∃ p ∈ L, κ p = q ∧ D p)
    {p : P} (hp : p ∈ L) (only : ∀ p', C p' ∧ ¬D p' ↔ p' = p) (q : P') :
    C' q ∧ ¬D' q ↔ q = κ p := by
  constructor
  · rintro ⟨c, d⟩
    obtain ⟨p', hp', rfl, c'⟩ := (hC q).1 c
    have : ¬D p' := fun d' => d ((hD _).2 ⟨p', hp', rfl, d'⟩)
    rw [(only p').1 ⟨c', this⟩]
  · rintro rfl
    obtain ⟨c, d⟩ := (only p).2 rfl
    refine ⟨(hC _).2 ⟨p, hp, rfl, c⟩, fun d' => ?_⟩
    obtain ⟨p', hp', eq, d'⟩ := (hD _).1 d'
    exact d (inj hp' hp eq ▸ d')

theorem hasEnds {source sink : P} (hsource : source ∈ L) (hsink : sink ∈ L)
    (ends : G.HasEnds source sink) : H.HasEnds (κ source) (κ sink) where
  source := only_image copies.inj copies.consumes_iff copies.produces_iff hsource ends.source
  sink := only_image copies.inj copies.produces_iff copies.consumes_iff hsink ends.sink

theorem sound [DecidableEq P] [DecidableEq P'] {source sink : P} (hsource : source ∈ L)
    (hsink : sink ∈ L) (sound : G.Sound source sink) : H.Sound (κ source) (κ sink) := by
  have start : Carries κ L (Pi.single source 1) (Pi.single (κ source) 1) :=
    .single copies.inj hsource
  have stop : Carries κ L (Pi.single sink 1) (Pi.single (κ sink) 1) := .single copies.inj hsink
  constructor
  · intro t' m' h
    obtain ⟨t, m, -, hm, carried⟩ := copies.onto t' m' h
    obtain ⟨p, hp⟩ := sound.takes t m hm
    have hL : p ∈ L := by
      by_contra hL
      rw [carried.take.outside p hL] at hp
      exact Nat.lt_irrefl 0 hp
    exact ⟨κ p, by rwa [carried.take.on p hL]⟩
  · intro M' h q
    obtain ⟨M, reach, hM⟩ := copies.reaches_back h start
    rcases em (∃ p ∈ L, κ p = q) with ⟨p, hL, rfl⟩ | none
    · rw [hM.on p hL]; exact sound.safe M reach p
    · rw [hM.beyond q (by simpa using none)]; exact Nat.zero_le _
  · intro M' h marked
    obtain ⟨M, reach, hM⟩ := copies.reaches_back h start
    rw [hM.on sink hsink] at marked
    obtain rfl := sound.proper M reach marked
    exact hM.right_unique stop
  · intro M' h
    obtain ⟨M, reach, hM⟩ := copies.reaches_back h start
    obtain ⟨N', reach', hN⟩ := copies.reaches (sound.completes M reach) hM
    rwa [hN.right_unique stop] at reach'
  · intro t' m' h
    obtain ⟨t, m, rfl, hm, -⟩ := copies.onto t' m' h
    obtain ⟨M, N, reach, fires⟩ := sound.live t m hm
    obtain ⟨M', reach', hM⟩ := copies.reaches reach start
    obtain ⟨N', ⟨m'', hm'', fires'⟩, -⟩ := copies.fires ⟨m, hm, fires⟩ hM
    obtain rfl := Option.some.inj (h.symm.trans hm'')
    exact ⟨M', N', reach', fires'⟩

end Copies

end Game

end ProcessNet
