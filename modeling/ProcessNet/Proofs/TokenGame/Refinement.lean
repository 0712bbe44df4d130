import ProcessNet.Proofs.TokenGame.Skeleton

/-!
Refinement keeps soundness: when a skeleton is sound and so is every operand, the refined game is
sound. The marking of the refined game is tracked by one of the skeleton in which an operand is idle,
running or done; a move inside an operand is none of the skeleton until the sink is marked, and is the
whole operand then. In the other direction a whole operand is played as a complete run of it.
-/

namespace ProcessNet.Skeleton

variable {I S R P T : Type} [DecidableEq I] [DecidableEq S] [DecidableEq P]

/-- What the ports of an operand say about the marking inside it. -/
inductive Phase (A : Game P T) (s e : P) (entry exit : ℕ) (m : P → ℕ) : Prop
  | idle : entry = 0 → exit = 0 → (∀ p, m p = 0) → Phase A s e entry exit m
  | running : entry = 1 → exit = 0 → A.Reaches (Pi.single s 1) m → m e = 0 →
      Phase A s e entry exit m
  | done : entry = 0 → exit = 1 → m = Pi.single e 1 → Phase A s e entry exit m

omit [DecidableEq I] [DecidableEq S] in
theorem eq_single {s e : P} {n : P → ℕ} (ne : s ≠ e) (hs : n s = 1) (he : n e = 0)
    (other : ∀ p, p ≠ s → p ≠ e → n p = 0) : n = Pi.single s 1 := by
  funext p
  rcases eq_or_ne p s with rfl | hps
  · rw [Pi.single_eq_same, hs]
  · rw [Pi.single_eq_of_ne hps]
    rcases eq_or_ne p e with rfl | hpe
    · exact he
    · exact other p hps hpe

theorem Phase.route {A : Game P T} {s e : P} {entry exit entry' exit' a b : ℕ} {m n : P → ℕ}
    (h : Phase A s e entry exit m) (ne : s ≠ e) (entered : entry' = entry + a)
    (left : exit' + b = exit) (one : entry' ≤ 1) (alone : entry' = 0 ∨ exit' = 0)
    (hs : n s = m s + a) (he : n e + b = m e) (other : ∀ p, p ≠ s → p ≠ e → n p = m p) :
    Phase A s e entry' exit' n := by
  have same : a = 0 → b = 0 → n = m := by
    intro ha hb
    funext p
    rcases eq_or_ne p s with rfl | hps
    · omega
    · rcases eq_or_ne p e with rfl | hpe
      · omega
      · exact other p hps hpe
  cases h with
  | idle hn hx hm =>
    rcases Nat.eq_zero_or_pos a with ha | ha
    · rw [same ha (by omega)]
      exact .idle (by omega) (by omega) hm
    · have hms := hm s
      have hme := hm e
      obtain rfl : n = Pi.single s 1 := eq_single ne (by omega) (by omega) fun p hps hpe =>
        (other p hps hpe).trans (hm p)
      exact .running (by omega) (by omega) (.refl _) (Pi.single_eq_of_ne ne.symm _)
  | running hn hx reach hm =>
    rw [same (by omega) (by omega)]
    exact .running (by omega) (by omega) reach hm
  | done hn hx hm =>
    subst hm
    rw [Pi.single_eq_same] at he
    rw [Pi.single_eq_of_ne ne] at hs
    rcases Nat.eq_zero_or_pos a with ha | ha
    · rcases Nat.eq_zero_or_pos b with hb | hb
      · rw [same ha hb]
        exact .done (by omega) (by omega) rfl
      · refine .idle (by omega) (by omega) fun p => ?_
        rcases eq_or_ne p s with rfl | hps
        · omega
        · rcases eq_or_ne p e with rfl | hpe
          · omega
          · rw [other p hps hpe, Pi.single_eq_of_ne hpe]
    · obtain rfl : n = Pi.single s 1 := eq_single ne (by omega) (by omega) fun p hps hpe =>
        (other p hps hpe).trans (Pi.single_eq_of_ne hpe _)
      exact .running (by omega) (by omega) (.refl _) (Pi.single_eq_of_ne ne.symm _)

variable (k : Skeleton I S R) (A : I → Game P T) (s e : I → P)

structure Tracks (K : Port I S → ℕ) (M : Site I P S → ℕ) : Prop where
  reached : k.game.Reaches (Pi.single k.source 1) K
  spots : ∀ x, M (.spot x) = K (.spot x)
  phase : ∀ i, Phase (A i) (s i) (e i) (K (.entry i)) (K (.exit i)) fun p => M (.inner i p)

def lift (s e : I → P) (K : Port I S → ℕ) : Site I P S → ℕ
  | .inner i p => if p = s i then K (.entry i) else if p = e i then K (.exit i) else 0
  | .spot x => K (.spot x)

/-- Operands that can take the place of a step. -/
structure Operand (A : Game P T) (s e : P) : Prop where
  sound : A.Sound s e
  ends : A.HasEnds s e

variable {k A s e} {K K' : Port I S → ℕ} {M N : Site I P S → ℕ}

theorem single_site (ne : ∀ i, s i ≠ e i) (x : Port I S) :
    (Pi.single (site s e x) 1 : Site I P S → ℕ) = lift s e (Pi.single x 1) := by
  have ne' := fun i => (ne i).symm
  funext y
  cases x with
  | entry j =>
    cases y with
    | spot z => simp [site, lift]
    | inner i p => by_cases h : i = j <;> by_cases hs : p = s i <;> simp_all [site, lift]
  | exit j =>
    cases y with
    | spot z => simp [site, lift]
    | inner i p =>
      by_cases h : i = j <;> by_cases hs : p = s i <;> by_cases he : p = e i <;>
        simp_all [site, lift]
  | spot z =>
    cases y with
    | spot z' => simp [site, lift, Pi.single_apply]
    | inner i p => simp [site, lift]

theorem tracks_start (framed : k.Framed) (ne : ∀ i, s i ≠ e i) :
    k.Tracks A s e (Pi.single k.source 1) (Pi.single (site s e k.source) 1) := by
  rw [single_site ne]
  refine ⟨.refl _, fun x => rfl, fun i => ?_⟩
  have left : (Pi.single k.source 1 : Port I S → ℕ) (.exit i) = 0 := by
    simp [(framed.source_ne i).symm]
  by_cases h : k.source = .entry i
  · have inside : (fun p => lift s e (Pi.single k.source 1 : Port I S → ℕ) (.inner i p)) =
        Pi.single (s i) 1 := by
      funext p
      by_cases hp : p = s i <;> simp [lift, h, hp]
    refine .running (by simp [h]) left ?_ ?_
    · rw [inside]
      exact .refl _
    · simp [lift, left, (ne i).symm]
  · have right : (Pi.single k.source 1 : Port I S → ℕ) (.entry i) = 0 := by
      simp [Ne.symm h]
    refine .idle right left fun p => ?_
    simp [lift, left, right]

theorem fires_whole {i : I} (hn : K (.entry i) = 1) (hx : K (.exit i) ≤ 1) :
    k.game.Fires K (.whole i)
      (Function.update (Function.update K (.entry i) 0) (.exit i) (K (.exit i) + 1)) := by
  refine ⟨_, rfl, fun x => ?_, fun x => ?_, fun x hx' => ?_⟩
  · by_cases h : x = .entry i <;> simp [Move.ofLists, h, hn]
  · by_cases h : x = .entry i
    · subst h
      simp [Move.ofLists, hn]
    · by_cases h' : x = .exit i
      · subst h'
        simp [Move.ofLists]
      · simp [Move.ofLists, h, h']
  · have : x = .exit i := by
      by_contra h
      simp [Move.ofLists, h] at hx'
    subst this
    simp only [Function.update_self, Place.capacity_value]
    omega

def setInner (M : Site I P S → ℕ) (i : I) (m : P → ℕ) : Site I P S → ℕ
  | .inner j p => if j = i then m p else M (.inner j p)
  | .spot x => M (.spot x)

omit [DecidableEq S] [DecidableEq P] in
@[simp] theorem setInner_self (M : Site I P S → ℕ) (i : I) :
    setInner M i (fun p => M (.inner i p)) = M := by
  funext y
  cases y with
  | spot x => rfl
  | inner j p =>
    by_cases h : j = i
    · subst h
      simp [setInner]
    · simp [setInner, h]

omit [DecidableEq S] [DecidableEq P] in
theorem setInner_inner (M : Site I P S → ℕ) (i : I) (m : P → ℕ) :
    (fun p => setInner M i m (.inner i p)) = m := by
  funext p
  exact if_pos rfl

omit [DecidableEq S] [DecidableEq P] in
@[simp] theorem setInner_setInner (M : Site I P S → ℕ) (i : I) (m n : P → ℕ) :
    setInner (setInner M i m) i n = setInner M i n := by
  funext y
  cases y with
  | spot x => rfl
  | inner j p =>
    by_cases h : j = i
    · simp [setInner, h]
    · simp [setInner, h]

theorem fires_inner {i : I} {t : T} {m n : P → ℕ} (h : (A i).Fires m t n) :
    (k.refine A s e).Fires (setInner M i m) (.inner i t) (setInner M i n) := by
  obtain ⟨x, hx, fires⟩ := h
  refine ⟨x.within i, by simp [refine, hx], fun y => ?_, fun y => ?_, fun y hy => ?_⟩ <;>
    cases y with
    | spot z => simp_all [Move.within, setInner]
    | inner j p =>
      by_cases h : j = i
      · subst h
        have := fires.enabled p
        have := fires.balance p
        have := fires.fits p
        simp_all [Move.within, setInner]
      · simp_all [Move.within, setInner]

theorem runs_inner {i : I} {ts : List T} {m n : P → ℕ} (run : (A i).Runs m ts n) :
    (k.refine A s e).Runs (setInner M i m) (ts.map (.inner i)) (setInner M i n) := by
  induction run with
  | nil _ => exact .nil trivial
  | cons _ fires _ ih => exact .cons trivial (fires_inner fires) ih

theorem reaches_inner {i : I} {m n : P → ℕ} (h : (A i).Reaches m n) :
    (k.refine A s e).Reaches (setInner M i m) (setInner M i n) := by
  obtain ⟨ts, run⟩ := h
  exact ⟨_, runs_inner run⟩

theorem fires_of_inner {i : I} {t : T} (h : (k.refine A s e).Fires M (.inner i t) N) :
    ∃ n, (A i).Fires (fun p => M (.inner i p)) t n ∧ N = setInner M i n := by
  obtain ⟨x, hx, fires⟩ := h
  obtain ⟨m, hm, rfl⟩ := Option.map_eq_some_iff.1 hx
  refine ⟨fun p => N (.inner i p), ⟨m, hm, fun p => ?_, fun p => ?_, fun p hp => ?_⟩, ?_⟩
  · simpa [Move.within] using fires.enabled (.inner i p)
  · simpa [Move.within] using fires.balance (.inner i p)
  · exact fires.fits (.inner i p) (by simpa [Move.within] using hp)
  · funext y
    have balance := fires.balance y
    cases y with
    | spot z => simpa [Move.within, setInner] using balance
    | inner j p =>
      by_cases h : j = i
      · subst h
        simp [setInner]
      · simpa [Move.within, setInner, h] using balance

theorem ofLists_map_site (ne : ∀ i, s i ≠ e i) (inputs outputs : List (Port I S)) :
    Move.ofLists (inputs.map (site s e)) (outputs.map (site s e)) =
      ⟨lift s e (Move.ofLists inputs outputs).take,
        lift s e (Move.ofLists inputs outputs).put⟩ := by
  have marks : ∀ l : List (Port I S), (fun y => if y ∈ l.map (site s e) then 1 else 0) =
      lift s e fun x => if x ∈ l then 1 else 0 := by
    intro l
    funext y
    cases y with
    | spot x => simp only [spot_mem_map_site, lift]
    | inner i p =>
      by_cases hs : p = s i
      · simp [inner_mem_map_site, lift, hs, ne i]
      · by_cases he : p = e i
        · simp [inner_mem_map_site, lift, he, (ne i).symm]
        · simp [inner_mem_map_site, lift, hs, he]
  exact congrArg₂ Move.mk (marks inputs) (marks outputs)

theorem fires_route (ne : ∀ i, s i ≠ e i) {r : R} :
    (k.refine A s e).Fires M (.route r) N ↔
      Move.Fires ⟨lift s e (Move.ofLists (k.take r) (k.put r)).take,
        lift s e (Move.ofLists (k.take r) (k.put r)).put⟩ M N := by
  rw [← ofLists_map_site ne]
  exact ⟨fun ⟨_, h, fires⟩ => Option.some.inj h ▸ fires, fun fires => ⟨_, rfl, fires⟩⟩

omit [DecidableEq I] [DecidableEq S] in
theorem lift_reads (s e : I → P) (y : Site I P S) :
    (∃ x : Port I S, ∀ K, lift s e K y = K x) ∨ ∀ K, lift s e K y = 0 := by
  cases y with
  | spot x => exact .inl ⟨.spot x, fun _ => rfl⟩
  | inner i p =>
    by_cases hs : p = s i
    · exact .inl ⟨.entry i, fun _ => if_pos hs⟩
    · by_cases he : p = e i
      · exact .inl ⟨.exit i, fun _ => (if_neg hs).trans (if_pos he)⟩
      · exact .inr fun _ => (if_neg hs).trans (if_neg he)

theorem lift_fires_route (ne : ∀ i, s i ≠ e i) {r : R} (h : k.game.Fires K (.route r) K') :
    (k.refine A s e).Fires (lift s e K) (.route r) (lift s e K') := by
  obtain ⟨_, eq, fires⟩ := h
  obtain rfl := Option.some.inj eq
  refine (fires_route ne).2 ⟨fun y => ?_, fun y => ?_, fun y hy => ?_⟩ <;>
    obtain ⟨x, hx⟩ | none := lift_reads s e y
  · simpa only [hx] using fires.enabled x
  · simp only [none, le_refl]
  · simpa only [hx] using fires.balance x
  · simp only [none]
  · simp only [hx] at hy ⊢
    exact fires.fits x hy
  · simp only [none, Nat.zero_le]

omit [DecidableEq I] [DecidableEq S] in
theorem lift_idle {i : I} (hn : K (.entry i) = 0) (hx : K (.exit i) = 0) (p : P) :
    lift s e K (.inner i p) = 0 := by
  simp only [lift, hn, hx, ite_self]

omit [DecidableEq S] in
theorem lift_of_entry {i : I} (ne : s i ≠ e i) (hn : K (.entry i) = 1) (hx : K (.exit i) = 0) :
    lift s e K = setInner (lift s e K) i (Pi.single (s i) 1) := by
  funext y
  cases y with
  | spot x => rfl
  | inner j p =>
    by_cases h : j = i
    · subst h
      by_cases hs : p = s j <;> simp [lift, setInner, hs, hn, hx]
    · simp [setInner, h]

theorem lift_whole {i : I} (ne : s i ≠ e i) :
    lift s e (Function.update (Function.update K (.entry i) 0) (.exit i) 1) =
      setInner (lift s e K) i (Pi.single (e i) 1) := by
  funext y
  cases y with
  | spot x => simp [lift, setInner]
  | inner j p =>
    by_cases h : j = i
    · subst h
      by_cases hs : p = s j <;> by_cases he : p = e j <;> simp_all [lift, setInner]
    · simp [lift, setInner, h]

theorem runs_whole {i : I} {ts : List T} (ne : s i ≠ e i) (hn : K (.entry i) = 1)
    (hx : K (.exit i) = 0) (run : (A i).Runs (Pi.single (s i) 1) ts (Pi.single (e i) 1)) :
    (k.refine A s e).Runs (lift s e K) (ts.map (.inner i))
      (lift s e (Function.update (Function.update K (.entry i) 0) (.exit i) 1)) := by
  have inside := runs_inner (k := k) (M := lift s e K) (s := s) (e := e) run
  rwa [← lift_of_entry ne hn hx, ← lift_whole ne] at inside

theorem Tracks.finished (framed : k.Framed) (ne : ∀ i, s i ≠ e i)
    (h : k.Tracks A s e (Pi.single k.sink 1) M) : M = Pi.single (site s e k.sink) 1 := by
  rw [single_site ne]
  funext y
  cases y with
  | spot x => exact h.spots x
  | inner i p =>
    have entry : (Pi.single k.sink 1 : Port I S → ℕ) (.entry i) = 0 :=
      Pi.single_eq_of_ne (framed.sink_ne i).symm _
    cases h.phase i with
    | idle _ hx hm => simp [lift, entry, hx, hm p]
    | running hn _ _ _ => omega
    | done _ hx hm =>
      have at_p : M (.inner i p) = (Pi.single (e i) 1 : P → ℕ) p := congrFun hm p
      rw [at_p]
      by_cases hs : p = s i
      · simp [lift, entry, hs, ne i]
      · by_cases he : p = e i <;> simp [lift, hs, he, hx, (ne i).symm]

section Sound

variable (sound : k.game.Sound k.source k.sink)

include sound

theorem not_both (h : k.game.Reaches (Pi.single k.source 1) K) (i : I) :
    K (.entry i) = 0 ∨ K (.exit i) = 0 := by
  by_contra both
  have hn := sound.safe K h (.entry i)
  have hx := sound.safe K h (.exit i)
  have := sound.safe _ (h.trans (.step (fires_whole (by omega) hx))) (.exit i)
  simp only [Function.update_self] at this
  omega

theorem whole_ready (h : k.game.Reaches (Pi.single k.source 1) K) {i : I}
    (fires : k.game.Fires K (.whole i) K') : K (.entry i) = 1 ∧ K (.exit i) = 0 := by
  obtain ⟨_, eq, fires⟩ := fires
  obtain rfl := Option.some.inj eq
  have entered : 0 < K (.entry i) :=
    Move.ofLists_enabled.1 fires.enabled _ (List.mem_singleton_self _)
  have := sound.safe K h (.entry i)
  exact ⟨by omega, (not_both sound h i).resolve_left (by omega)⟩

variable (framed : k.Framed) (inside : ∀ i, Operand (A i) (s i) (e i))

include framed inside

theorem tracks_route {r : R} (h : k.Tracks A s e K M) (fires : k.game.Fires K (.route r) K')
    (fires' : (k.refine A s e).Fires M (.route r) N) : k.Tracks A s e K' N := by
  have reached := h.reached.trans (.step fires)
  obtain ⟨_, eq, fires⟩ := fires
  obtain rfl := Option.some.inj eq
  replace fires' := (fires_route fun i => (inside i).ends.ne).1 fires'
  refine ⟨reached, fun x => ?_, fun i => ?_⟩
  · have balance := fires.balance (.spot x)
    have balance' := fires'.balance (.spot x)
    have := h.spots x
    simp only [lift] at balance'
    omega
  · have entered := fires.balance (.entry i)
    have left := fires.balance (.exit i)
    have entered' := fires'.balance (.inner i (s i))
    have left' := fires'.balance (.inner i (e i))
    have takes : (Move.ofLists (k.take r) (k.put r)).take (.entry i) = 0 :=
      if_neg (framed.entry_kept r i)
    have puts : (Move.ofLists (k.take r) (k.put r)).put (.exit i) = 0 :=
      if_neg (framed.exit_made r i)
    rw [takes, Nat.add_zero] at entered
    rw [puts, Nat.add_zero] at left
    simp only [lift, if_true, takes, Nat.add_zero] at entered'
    simp only [lift, if_neg (inside i).ends.ne.symm, if_true, puts, Nat.add_zero] at left'
    refine (h.phase i).route (inside i).ends.ne entered left (sound.safe K' reached _)
      (not_both sound reached i) entered' left' fun p hs he => ?_
    simpa [lift, hs, he] using fires'.balance (.inner i p)

omit framed in
theorem tracks_le_one (h : k.Tracks A s e K M) (y : Site I P S) : M y ≤ 1 := by
  cases y with
  | spot x => exact h.spots x ▸ sound.safe K h.reached (.spot x)
  | inner i p =>
    cases h.phase i with
    | idle _ _ hm => exact hm p ▸ Nat.zero_le 1
    | running _ _ reach _ => exact (inside i).sound.safe _ reach p
    | done _ _ hm =>
      have : M (.inner i p) = (Pi.single (e i) 1 : P → ℕ) p := congrFun hm p
      rw [this]
      exact (inside i).sound.safe _ ((inside i).sound.completes _ (.refl _)) p

omit sound framed inside in
theorem tracks_site (h : k.Tracks A s e K M) {x : Port I S} (hx : ∀ i, x ≠ .entry i) :
    M (site s e x) = K x := by
  cases x with
  | entry i => exact absurd rfl (hx i)
  | spot x => exact h.spots x
  | exit i =>
    cases h.phase i with
    | idle _ hx hm => exact (hm (e i)).trans hx.symm
    | running _ hx _ hm => exact hm.trans hx.symm
    | done _ hx hm =>
      have : M (.inner i (e i)) = (Pi.single (e i) 1 : P → ℕ) (e i) := congrFun hm (e i)
      rw [Pi.single_eq_same] at this
      exact this.trans hx.symm

omit sound inside in
theorem route_enabled (h : k.Tracks A s e K M) (r : R) :
    (∀ x ∈ k.take r, 0 < K x) ↔ ∀ y ∈ (k.take r).map (site s e), 0 < M y := by
  have entry : ∀ x ∈ k.take r, ∀ i, x ≠ .entry i := fun x hx i eq =>
    framed.entry_kept r i (eq ▸ hx)
  constructor
  · intro enabled y hy
    obtain ⟨x, hx, rfl⟩ := List.mem_map.1 hy
    rw [tracks_site h (entry x hx)]
    exact enabled x hx
  · intro enabled x hx
    rw [← tracks_site h (entry x hx)]
    exact enabled _ (List.mem_map_of_mem hx)

omit sound framed in
theorem running_of_fires (h : k.Tracks A s e K M) {i : I} {t : T} {n : P → ℕ}
    (fires : (A i).Fires (fun p => M (.inner i p)) t n) : K (.entry i) = 1 ∧ K (.exit i) = 0 ∧
      (A i).Reaches (Pi.single (s i) 1) n := by
  have ⟨m, hm, moves⟩ := fires
  obtain ⟨p, hp⟩ := (inside i).sound.takes t m hm
  have enabled := moves.enabled p
  cases h.phase i with
  | idle _ _ empty =>
    have := empty p
    omega
  | done _ _ finished =>
    have at_p : M (.inner i p) = (Pi.single (e i) 1 : P → ℕ) p := congrFun finished p
    have : p ≠ e i := by
      rintro rfl
      rw [(inside i).ends.stays hm] at hp
      exact Nat.lt_irrefl 0 hp
    rw [Pi.single_eq_of_ne this] at at_p
    omega
  | running hn hx reach _ => exact ⟨hn, hx, reach.trans (.step fires)⟩

omit [DecidableEq S] sound framed inside in
theorem Phase.setInner_of_ne {i j : I} {c d : ℕ} (hj : j ≠ i) (n : P → ℕ)
    (h : Phase (A j) (s j) (e j) c d fun p => M (.inner j p)) :
    Phase (A j) (s j) (e j) c d fun p => setInner M i n (.inner j p) := by
  simpa [setInner, hj] using h

omit sound framed in
theorem tracks_inner (h : k.Tracks A s e K M) {i : I} {t : T} {n : P → ℕ}
    (fires : (A i).Fires (fun p => M (.inner i p)) t n) :
    ∃ K', k.Tracks A s e K' (setInner M i n) := by
  obtain ⟨hn, hx, reach⟩ := running_of_fires inside h fires
  have own := setInner_inner M i n
  rcases Nat.eq_zero_or_pos (n (e i)) with unmarked | marked
  · refine ⟨K, h.reached, h.spots, fun j => ?_⟩
    rcases eq_or_ne j i with rfl | hj
    · rw [own]
      exact .running hn hx reach unmarked
    · exact (h.phase j).setInner_of_ne hj n
  -- its sink is marked, so the operand is complete and the skeleton moves it as a whole
  · refine ⟨_, h.reached.trans (.step (fires_whole hn (by omega))), fun x => ?_, fun j => ?_⟩
    · simpa [setInner] using h.spots x
    · rcases eq_or_ne j i with rfl | hj
      · rw [own]
        exact .done (by simp) (by simp [hx]) ((inside j).sound.proper n reach marked)
      · refine Phase.setInner_of_ne hj n ?_
        simpa [hj] using h.phase j

/-- A step of the refined game is a step of the skeleton, or none. -/
theorem tracks_step {a : Action I T R} (h : k.Tracks A s e K M)
    (fires : (k.refine A s e).Fires M a N) : ∃ K', k.Tracks A s e K' N := by
  cases a with
  | route r =>
    have ⟨_, eq, fires'⟩ := fires
    obtain rfl := Option.some.inj eq
    have enabled := (route_enabled framed h r).2 (Move.ofLists_enabled.1 fires'.enabled)
    obtain ⟨K', hK⟩ := Move.ofLists_fires (k.put r) enabled (sound.safe K h.reached)
    exact ⟨K', tracks_route sound framed inside h ⟨_, rfl, hK⟩ fires⟩
  | inner i t =>
    obtain ⟨n, inner, rfl⟩ := fires_of_inner fires
    exact tracks_inner inside h inner

theorem tracks_back {a : Stage I R} (h : k.Tracks A s e K M) (fires : k.game.Fires K a K') :
    ∃ N, (k.refine A s e).Reaches M N ∧ k.Tracks A s e K' N := by
  cases a with
  | route r =>
    have ⟨_, eq, fires'⟩ := fires
    obtain rfl := Option.some.inj eq
    have enabled := (route_enabled framed h r).1 (Move.ofLists_enabled.1 fires'.enabled)
    obtain ⟨N, hN⟩ := Move.ofLists_fires ((k.put r).map (site s e)) enabled
      (tracks_le_one sound inside h)
    have step : (k.refine A s e).Fires M (.route r) N := ⟨_, rfl, hN⟩
    exact ⟨N, .step step, tracks_route sound framed inside h fires step⟩
  | whole i =>
    obtain ⟨hn, hx⟩ := whole_ready sound h.reached fires
    cases h.phase i with
    | idle none _ _ => omega
    | done none _ _ => omega
    | running _ _ reach _ =>
      obtain rfl := fires.unique (fires_whole hn (by omega))
      refine ⟨setInner M i (Pi.single (e i) 1), ?_, h.reached.trans (.step fires), fun x => ?_,
        fun j => ?_⟩
      · have := reaches_inner (k := k) (M := M) (s := s) (e := e)
          ((inside i).sound.completes _ reach)
        rwa [setInner_self] at this
      · simpa [setInner] using h.spots x
      · rcases eq_or_ne j i with rfl | hj
        · refine .done (by simp) (by simp [hx]) ?_
          funext p
          simp [setInner]
        · simpa [setInner, hj] using h.phase j

theorem tracks_reaches (h : k.Tracks A s e K M) (reach : (k.refine A s e).Reaches M N) :
    ∃ K', k.Tracks A s e K' N :=
  Game.Reaches.invariant (I := fun N => ∃ K', k.Tracks A s e K' N) reach ⟨K, h⟩
    fun _ _ _ ⟨_, h⟩ fires => tracks_step sound framed inside h fires

theorem tracks_reaches_back (h : k.Tracks A s e K M) (reach : k.game.Reaches K K') :
    ∃ N, (k.refine A s e).Reaches M N ∧ k.Tracks A s e K' N := by
  refine Game.Reaches.invariant
    (I := fun K' => ∃ N, (k.refine A s e).Reaches M N ∧ k.Tracks A s e K' N) reach
    ⟨M, .refl M, h⟩ ?_
  rintro _ _ _ ⟨_, before, h⟩ fires
  obtain ⟨N, after, h⟩ := tracks_back sound framed inside h fires
  exact ⟨N, before.trans after, h⟩

omit framed in
theorem lift_reaches (reach : k.game.Reaches (Pi.single k.source 1) K) :
    (k.refine A s e).Reaches (Pi.single (site s e k.source) 1) (lift s e K) := by
  rw [single_site fun i => (inside i).ends.ne]
  refine (Game.Reaches.invariant (I := fun K => k.game.Reaches (Pi.single k.source 1) K ∧
    (k.refine A s e).Reaches (lift s e (Pi.single k.source 1)) (lift s e K)) reach
    ⟨.refl _, .refl _⟩ ?_).2
  rintro K a K' ⟨reached, before⟩ fires
  refine ⟨reached.trans (.step fires), before.trans ?_⟩
  cases a with
  | route r => exact .step (lift_fires_route (fun i => (inside i).ends.ne) fires)
  | whole i =>
    obtain ⟨hn, hx⟩ := whole_ready sound reached fires
    obtain rfl := fires.unique (fires_whole hn (by omega))
    obtain ⟨ts, run⟩ := (inside i).sound.completes _ (.refl _)
    rw [hx]
    exact ⟨_, runs_whole (inside i).ends.ne hn hx run⟩

omit framed in
theorem refine_live {a : Action I T R} {m : Move (Site I P S)} (h : k.refine A s e a = some m) :
    ∃ M N, (k.refine A s e).Reaches (Pi.single (site s e k.source) 1) M ∧ m.Fires M N := by
  cases a with
  | inner i t =>
    obtain ⟨m, hm, rfl⟩ := Option.map_eq_some_iff.1 h
    obtain ⟨K, K', reach, fires⟩ := sound.live (.whole i) _ rfl
    obtain ⟨hn, hx⟩ := whole_ready sound reach ⟨_, rfl, fires⟩
    obtain ⟨x, y, reach', fires'⟩ := (inside i).sound.live t m hm
    have begun := lift_reaches sound inside reach
    rw [lift_of_entry (inside i).ends.ne hn hx] at begun
    obtain ⟨_, eq, hw⟩ := fires_inner (k := k) (M := lift s e K) (s := s) (e := e)
      (A := A) ⟨m, hm, fires'⟩
    obtain rfl := Option.some.inj (h.symm.trans eq)
    exact ⟨_, _, begun.trans (reaches_inner reach'), hw⟩
  | route r =>
    obtain rfl := Option.some.inj h
    obtain ⟨K, K', reach, fires⟩ := sound.live (.route r) _ rfl
    obtain ⟨_, eq, fires'⟩ := lift_fires_route (k := k) (A := A)
      (fun i => (inside i).ends.ne) (r := r) ⟨_, rfl, fires⟩
    obtain rfl := Option.some.inj eq
    exact ⟨_, _, lift_reaches sound inside reach, fires'⟩

/-- Refinement keeps soundness. -/
theorem refine_sound : (k.refine A s e).Sound (site s e k.source) (site s e k.sink) := by
  have ne := fun i => (inside i).ends.ne
  have start := tracks_start (A := A) framed ne
  constructor
  · intro a m h
    cases a with
    | inner i t =>
      obtain ⟨m, hm, rfl⟩ := Option.map_eq_some_iff.1 h
      obtain ⟨p, hp⟩ := (inside i).sound.takes t m hm
      exact ⟨.inner i p, by simpa [Move.within] using hp⟩
    | route r =>
      obtain rfl := Option.some.inj h
      obtain ⟨x, hx⟩ := sound.takes (.route r) _ rfl
      have : x ∈ k.take r := by
        by_contra none
        simp [Move.ofLists, none] at hx
      refine ⟨site s e x, ?_⟩
      simp only [Move.ofLists, if_pos (List.mem_map_of_mem this), Nat.one_pos]
  · intro M reach
    obtain ⟨K, h⟩ := tracks_reaches sound framed inside start reach
    exact tracks_le_one sound inside h
  · intro M reach marked
    obtain ⟨K, h⟩ := tracks_reaches sound framed inside start reach
    rw [tracks_site h framed.sink_ne] at marked
    obtain rfl := sound.proper K h.reached marked
    exact h.finished framed ne
  · intro M reach
    obtain ⟨K, h⟩ := tracks_reaches sound framed inside start reach
    obtain ⟨N, reach', h'⟩ := tracks_reaches_back sound framed inside h
      (sound.completes K h.reached)
    rwa [h'.finished framed ne] at reach'
  · exact fun a m h => refine_live sound inside h

end Sound

end ProcessNet.Skeleton
