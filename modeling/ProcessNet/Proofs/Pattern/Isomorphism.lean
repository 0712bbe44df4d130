import ProcessNet.Proofs.Data.Guard
import ProcessNet.Proofs.Pattern.Outline

/-!
Patterns that are alike up to names. Ids, labels and the order of arrival are passed over and all else
is kept, arcs and guards under the new names. For well-formed patterns this says that their outlines
correspond, and the outline of a composition is the outlines of the operands joined by the skeleton:
so the operators obey the laws that hold of outlines, whatever names the operands have and whatever
names they were given on the way.
-/

namespace ProcessNet

/-- Where the elements of one pattern lie in another. -/
structure Matching where
  place : PlaceId → PlaceId
  transition : TransitionId → TransitionId
  variableName : String → String

structure Matching.Carries (m : Matching) (x y : Transition) : Prop where
  visible : y.visible = x.visible
  guard : y.guard = x.guard.rename m.variableName
  inputs : ∀ q, q ∈ y.inputs ↔ ∃ p ∈ x.inputs, m.place p = q
  outputs : ∀ q, q ∈ y.outputs ↔ ∃ p ∈ x.outputs, m.place p = q

/-- The elements correspond one to one and agree in all but ids, labels and order. -/
structure Matching.Matches (m : Matching) (P Q : Pattern) : Prop where
  places : Set.BijOn m.place {p | p ∈ P.net.places.keys} {q | q ∈ Q.net.places.keys}
  transitions : Set.BijOn m.transition {t | t ∈ P.net.transitions.keys}
    {u | u ∈ Q.net.transitions.keys}
  vars : Set.BijOn m.variableName {v | v ∈ P.net.vars.keys} {w | w ∈ Q.net.vars.keys}
  tokens : ∀ p x y, P.net.place? p = some x → Q.net.place? (m.place p) = some y →
    y.tokens = x.tokens
  carries : ∀ t x y, P.net.transition? t = some x → Q.net.transition? (m.transition t) = some y →
    m.Carries x y
  activity : ∀ t ∈ P.net.transitions.keys, Q.activity? (m.transition t) = P.activity? t
  declared : ∀ v z w, P.net.namedVariable? v = some z →
    Q.net.namedVariable? (m.variableName v) = some w →
      w.value = z.value ∧ w.kind = z.kind ∧ w.lower = z.lower ∧ w.upper = z.upper
  source : Q.source = m.place P.source
  sink : Q.sink = m.place P.sink

def Pattern.Isomorphic (P Q : Pattern) : Prop := ∃ m : Matching, m.Matches P Q

section Keys

variable {κ β : Type} [DecidableEq κ]

def OrderedMap.valueAt (m : OrderedMap κ β) (k : {k // k ∈ m.keys}) : β :=
  (m.get? k).get (Option.isSome_iff_exists.2 (mem_keys.1 k.2))

theorem OrderedMap.get?_valueAt (m : OrderedMap κ β) (k : {k // k ∈ m.keys}) :
    m.get? k = some (m.valueAt k) :=
  (Option.some_get _).symm

theorem OrderedMap.valueAt_eq {m : OrderedMap κ β} {k : {k // k ∈ m.keys}} {v : β}
    (h : m.get? k = some v) : m.valueAt k = v :=
  Option.get_of_eq_some _ h

def extend (l : List κ) (f : {k // k ∈ l} → κ) (k : κ) : κ := if h : k ∈ l then f ⟨k, h⟩ else k

variable {l l' : List κ}

theorem extend_coe (f : {k // k ∈ l} → κ) (k : {k // k ∈ l}) : extend l f k = f k := dif_pos k.2

theorem extend_val : extend l Subtype.val = id := by
  funext k
  by_cases h : k ∈ l <;> simp [extend, h]

theorem bijOn_extend (e : {k // k ∈ l} ≃ {k // k ∈ l'}) :
    Set.BijOn (extend l fun k => (e k).1) {k | k ∈ l} {k | k ∈ l'} := by
  have at_mem : ∀ k (h : k ∈ l), extend l (fun k => (e k).1) k = e ⟨k, h⟩ := fun k h =>
    extend_coe _ ⟨k, h⟩
  refine ⟨fun k hk => ?_, fun j hj k hk eq => ?_, fun k hk => ?_⟩
  · rw [at_mem k hk]
    exact (e ⟨k, hk⟩).2
  · rw [at_mem j hj, at_mem k hk] at eq
    exact congrArg Subtype.val (e.injective (Subtype.ext eq))
  · refine ⟨e.symm ⟨k, hk⟩, (e.symm ⟨k, hk⟩).2, ?_⟩
    rw [extend_coe, Equiv.apply_symm_apply]

noncomputable def namesEquiv {α : Type} (f : α → κ) (inj : Function.Injective f)
    (range : ∀ k, k ∈ l ↔ ∃ a, f a = k) : α ≃ {k // k ∈ l} :=
  .ofBijective (fun a => ⟨f a, (range _).2 ⟨a, rfl⟩⟩) <| by
    refine ⟨fun a b eq => inj (congrArg Subtype.val eq), fun k => ?_⟩
    obtain ⟨a, eq⟩ := (range k).1 k.2
    exact ⟨a, Subtype.ext eq⟩

noncomputable def bijOnEquiv {f : κ → κ} (h : Set.BijOn f {k | k ∈ l} {k | k ∈ l'}) :
    {k // k ∈ l} ≃ {k // k ∈ l'} :=
  namesEquiv (fun k => f k) (fun j k eq => Subtype.ext (h.injOn j.2 k.2 eq)) fun k => by
    constructor
    · intro hk
      obtain ⟨j, hj, eq⟩ := h.surjOn hk
      exact ⟨⟨j, hj⟩, eq⟩
    · rintro ⟨j, rfl⟩
      exact h.mapsTo j.2

omit [DecidableEq κ] in
theorem image_eq_iff {e : {k // k ∈ l} ≃ {k // k ∈ l'}} {f : κ → κ} (agree : ∀ k, f k.1 = (e k).1)
    {x y : OrderedSet κ} (hx : ∀ k ∈ x, k ∈ l) (hy : ∀ k ∈ y, k ∈ l') :
    {k : {k // k ∈ l'} | k.1 ∈ y} = e '' {k | k.1 ∈ x} ↔ ∀ q, q ∈ y ↔ ∃ p ∈ x, f p = q := by
  constructor
  · intro same q
    constructor
    · intro hq
      obtain ⟨p, hp, eq⟩ : (⟨q, hy q hq⟩ : {k // k ∈ l'}) ∈ e '' {k | k.1 ∈ x} := same ▸ hq
      exact ⟨p, hp, (agree p).trans (congrArg Subtype.val eq)⟩
    · rintro ⟨p, hp, rfl⟩
      have mem : e ⟨p, hx p hp⟩ ∈ {k : {k // k ∈ l'} | k.1 ∈ y} := same ▸ ⟨_, hp, rfl⟩
      rw [agree ⟨p, hx p hp⟩]
      exact mem
  · intro same
    ext k
    refine (same k).trans ⟨?_, ?_⟩
    · rintro ⟨p, hp, eq⟩
      exact ⟨⟨p, hx p hp⟩, hp, Subtype.ext ((agree ⟨p, hx p hp⟩).symm.trans eq)⟩
    · rintro ⟨p, hp, rfl⟩
      exact ⟨p, hp, agree p⟩

end Keys

def Net.within (net : Net) (x : OrderedSet PlaceId) : Set {p // p ∈ net.places.keys} :=
  {p | p.1 ∈ x}

namespace Pattern

variable {P Q : Pattern}

abbrev WellFormed.outline (h : P.WellFormed) : Outline where
  Place := {p // p ∈ P.net.places.keys}
  Transition := {t // t ∈ P.net.transitions.keys}
  Variable := {v // v ∈ P.net.vars.keys}
  source := ⟨P.source, h.ends.source_mem h.net⟩
  sink := ⟨P.sink, h.ends.sink_mem h.net⟩
  tokens p := (P.net.places.valueAt p).tokens
  visible t := (P.net.transitions.valueAt t).visible
  activity t := P.activity? t
  guard t names := (P.net.transitions.valueAt t).guard.rename (extend P.net.vars.keys names)
  inputs t := P.net.within (P.net.transitions.valueAt t).inputs
  outputs t := P.net.within (P.net.transitions.valueAt t).outputs
  declared v name := { P.net.vars.valueAt v with name := name }

theorem WellFormed.outline_guard_val (h : P.WellFormed) (t : {t // t ∈ P.net.transitions.keys}) :
    h.outline.guard t Subtype.val = (P.net.transitions.valueAt t).guard :=
  (congrArg (Guard.rename · _) extend_val).trans (Guard.rename_id _)

variable (hP : P.WellFormed) (hQ : Q.WellFormed)

theorem isomorphic_of_iso (f : hP.outline.Iso hQ.outline) : P.Isomorphic Q := by
  let m : Matching := ⟨extend P.net.places.keys fun p => (f.place p).1,
    extend P.net.transitions.keys fun t => (f.transition t).1,
    extend P.net.vars.keys fun v => (f.var v).1⟩
  have place : ∀ p : {p // p ∈ P.net.places.keys}, m.place p = f.place p :=
    extend_coe fun p => (f.place p).1
  have transition : ∀ t : {t // t ∈ P.net.transitions.keys}, m.transition t = f.transition t :=
    extend_coe fun t => (f.transition t).1
  have var : ∀ v : {v // v ∈ P.net.vars.keys}, m.variableName v = f.var v :=
    extend_coe fun v => (f.var v).1
  refine ⟨m, bijOn_extend f.place, bijOn_extend f.transition, bijOn_extend f.var,
    fun p x y hx hy => ?_, fun t x y hx hy => ?_, fun t ht => ?_, fun v z w hz hw => ?_, ?_, ?_⟩
  · obtain ⟨p, rfl⟩ : ∃ p' : {p // p ∈ P.net.places.keys}, p'.1 = p :=
      ⟨⟨p, OrderedMap.mem_keys_of_get? hx⟩, rfl⟩
    rw [place] at hy
    obtain rfl := OrderedMap.valueAt_eq hx
    obtain rfl := OrderedMap.valueAt_eq hy
    exact f.tokens p
  · obtain ⟨t, rfl⟩ : ∃ t' : {t // t ∈ P.net.transitions.keys}, t'.1 = t :=
      ⟨⟨t, OrderedMap.mem_keys_of_get? hx⟩, rfl⟩
    have admits := hP.net.admits hx
    have admits' := hQ.net.admits hy
    rw [transition] at hy
    obtain rfl := OrderedMap.valueAt_eq hx
    obtain rfl := OrderedMap.valueAt_eq hy
    have guard := (hQ.outline_guard_val _).symm.trans (f.guard t Subtype.val)
    exact ⟨f.visible t, guard, (image_eq_iff place admits.inputs admits'.inputs).1 (f.inputs t),
      (image_eq_iff place admits.outputs admits'.outputs).1 (f.outputs t)⟩
  · rw [transition ⟨t, ht⟩]
    exact f.activity ⟨t, ht⟩
  · obtain ⟨v, rfl⟩ : ∃ v' : {v // v ∈ P.net.vars.keys}, v'.1 = v :=
      ⟨⟨v, OrderedMap.mem_keys_of_get? hz⟩, rfl⟩
    rw [var] at hw
    obtain rfl := OrderedMap.valueAt_eq hz
    obtain rfl := OrderedMap.valueAt_eq hw
    simpa using congrFun (f.declared v) ""
  · exact (congrArg Subtype.val f.source).trans (place _).symm
  · exact (congrArg Subtype.val f.sink).trans (place _).symm

theorem Isomorphic.iso (h : P.Isomorphic Q) : Nonempty (hP.outline.Iso hQ.outline) := by
  obtain ⟨m, h⟩ := h
  have carries : ∀ t : {t // t ∈ P.net.transitions.keys},
      m.Carries (P.net.transitions.valueAt t)
        (Q.net.transitions.valueAt (bijOnEquiv h.transitions t)) := fun t =>
    h.carries t _ _ (OrderedMap.get?_valueAt _ t) (OrderedMap.get?_valueAt _ (bijOnEquiv _ t))
  refine ⟨{
    place := bijOnEquiv h.places
    transition := bijOnEquiv h.transitions
    var := bijOnEquiv h.vars
    source := Subtype.ext h.source
    sink := Subtype.ext h.sink
    tokens := fun p =>
      h.tokens p _ _ (OrderedMap.get?_valueAt _ p) (OrderedMap.get?_valueAt _ (bijOnEquiv _ p))
    visible := fun t => (carries t).visible
    activity := fun t => h.activity t t.2
    guard := fun t names => ?_
    inputs := fun t => ?_
    outputs := fun t => ?_
    declared := fun v => ?_ }⟩
  · have reads := (hP.net.admits (OrderedMap.get?_valueAt _ t)).reads
    refine (congrArg (Guard.rename _) (carries t).guard).trans ?_
    rw [Guard.rename_rename]
    refine Guard.rename_congr _ fun v hv => ?_
    have hv := reads v hv
    exact (extend_coe names (bijOnEquiv h.vars ⟨v, hv⟩)).trans (extend_coe (names ∘ _) ⟨v, hv⟩).symm
  · have admits := hP.net.admits (OrderedMap.get?_valueAt _ t)
    have admits' := hQ.net.admits (OrderedMap.get?_valueAt _ (bijOnEquiv h.transitions t))
    exact (image_eq_iff (fun _ => rfl) admits.inputs admits'.inputs).2 (carries t).inputs
  · have admits := hP.net.admits (OrderedMap.get?_valueAt _ t)
    have admits' := hQ.net.admits (OrderedMap.get?_valueAt _ (bijOnEquiv h.transitions t))
    exact (image_eq_iff (fun _ => rfl) admits.outputs admits'.outputs).2 (carries t).outputs
  · obtain ⟨value, kind, lower, upper⟩ := h.declared v _ _ (OrderedMap.get?_valueAt _ v)
      (OrderedMap.get?_valueAt _ (bijOnEquiv h.vars v))
    funext name
    simp [kind, value, lower, upper]

end Pattern

end ProcessNet
