import ProcessNet.Proofs.Number.Nearest
import ProcessNet.Proofs.Pattern.Built

/-!
Integer variables with integer bounds. A value is compared with the bounds after its conversion to double
precision. A value within the bounds is always admitted, and of those outside just the ones that are
rounded to a bound, which no value of at most 53 binary digits is. So a value that is admitted, and every
value found in a net, misses a bound by 512 at most.
-/

namespace ProcessNet

open Binary64 (Amounts Nearest Rounds)

namespace Binary64

variable {x y : Binary64}

theorem IsFinite.isNaN_eq_false (h : x.IsFinite) : x.isNaN = false := by
  rw [IsFinite] at h
  rw [isNaN, decide_eq_false_iff_not]
  exact h.le.not_gt

theorem lt_eq_false (hx : x.IsFinite) (hy : y.IsFinite) : x.lt y = false ↔ y.units ≤ x.units := by
  rw [lt, compare?, hx.isNaN_eq_false, hy.isNaN_eq_false, Bool.or_self, if_neg (by decide),
    beq_eq_false_iff_ne, Ne, Option.some.injEq, compare_lt_iff_lt, Int.not_lt]

variable {n m : ℤ}

theorem Nearest.lt_eq_false_iff (hx : x.Nearest n) (hy : y.Amounts m) :
    x.lt y = false ↔ m ≤ n ∨ Rounds n m := by
  rw [lt_eq_false hx.finite hy.1, hx.units_le_iff hy.1, hy.units_le_iff, hy.nearest_iff]

theorem Nearest.gt_eq_false_iff (hx : x.Nearest n) (hy : y.Amounts m) :
    y.lt x = false ↔ n ≤ m ∨ Rounds n m := by
  rw [lt_eq_false hy.1 hx.finite, hx.le_units_iff hy.1, hy.le_units_iff, hy.nearest_iff]

end Binary64

theorem natAbs_toInt_le (v : Int64) : v.toInt.natAbs ≤ 2 ^ 63 := by
  have := v.toInt_lt
  have := v.le_toInt
  omega

theorem forall_mem_iff_of_rel {α β : Type} {r : α → β → Prop} {o : Option α} {o' : Option β}
    {P : α → Prop} {Q : β → Prop} (rel : Option.Rel r o o') (h : ∀ {a b}, r a b → (P a ↔ Q b)) :
    (∀ a ∈ o, P a) ↔ ∀ b ∈ o', Q b := by
  cases rel with
  | some hab => simpa using h hab
  | none => simp

structure IntegerBounds where
  lower : Option ℤ
  upper : Option ℤ

namespace IntegerBounds

def Contain (bounds : IntegerBounds) (n : ℤ) : Prop :=
  (∀ l ∈ bounds.lower, l ≤ n) ∧ ∀ u ∈ bounds.upper, n ≤ u
deriving Decidable

/-- The integer is in the bounds, but it may be outside one that it is rounded to. -/
def ContainRounded (bounds : IntegerBounds) (n : ℤ) : Prop :=
  (∀ l ∈ bounds.lower, l ≤ n ∨ Rounds n l) ∧ ∀ u ∈ bounds.upper, n ≤ u ∨ Rounds n u

def widen (bounds : IntegerBounds) (k : ℤ) : IntegerBounds :=
  ⟨bounds.lower.map (· - k), bounds.upper.map (· + k)⟩

variable {bounds : IntegerBounds} {n : ℤ}

theorem containRounded_iff {x : Binary64} (h : x.Amounts n) :
    bounds.ContainRounded n ↔ bounds.Contain n := by
  have lower (l) : (l ≤ n ∨ Rounds n l) ↔ l ≤ n :=
    or_iff_left_of_imp fun rounds => (rounds.eq_of_amounts h).le
  have upper (u) : (n ≤ u ∨ Rounds n u) ↔ n ≤ u :=
    or_iff_left_of_imp fun rounds => (rounds.eq_of_amounts h).ge
  simp only [ContainRounded, Contain, lower, upper]

theorem ContainRounded.contain_widen (h : bounds.ContainRounded n) (range : n.natAbs ≤ 2 ^ 63) :
    (bounds.widen 512).Contain n := by
  refine ⟨fun l' hl' => ?_, fun u' hu' => ?_⟩
  · obtain ⟨l, hl, rfl⟩ := Option.map_eq_some_iff.1 hl'
    rcases h.1 l hl with le | rounds
    · omega
    · have := rounds.near range
      omega
  · obtain ⟨u, hu, rfl⟩ := Option.map_eq_some_iff.1 hu'
    rcases h.2 u hu with le | rounds
    · omega
    · have := rounds.near range
      omega

end IntegerBounds

namespace Variable

/-- An integer variable whose bounds, where it has any, are equal to integers. -/
structure BoundedBy (x : Variable) (bounds : IntegerBounds) : Prop where
  kind : x.kind = .int
  lower : Option.Rel Amounts x.lower bounds.lower
  upper : Option.Rel Amounts x.upper bounds.upper

variable {x : Variable} {v : Value} {bounds : IntegerBounds}

theorem validate_eq_ok_iff : x.validate v = .ok () ↔ suits x.kind v.kind = true ∧
    (∀ b ∈ x.lowerBound, v.number.lt b = false) ∧ ∀ b ∈ x.upperBound, b.lt v.number = false := by
  have above : (∀ b ∈ x.lowerBound, v.number.lt b = false) ↔
      x.lowerBound.filter v.number.lt = none := by
    simp only [Option.filter_eq_none_iff, Option.mem_def, Bool.not_eq_true]
  have below : (∀ b ∈ x.upperBound, b.lt v.number = false) ↔
      x.upperBound.filter (·.lt v.number) = none := by
    simp only [Option.filter_eq_none_iff, Option.mem_def, Bool.not_eq_true]
  rw [validate_eq_ok, unsuitable?, above, below]
  cases suits x.kind v.kind
  · simp
  · cases x.lowerBound.filter v.number.lt <;> simp

theorem BoundedBy.validate_int (bounded : x.BoundedBy bounds) (v : Int64) :
    x.validate (.int v) = .ok () ↔ bounds.ContainRounded v.toInt := by
  have near := Binary64.nearest_ofInt (natAbs_toInt_le v)
  have lowerBound : x.lowerBound = x.lower := by rw [Variable.lowerBound, bounded.kind]
  have upperBound : x.upperBound = x.upper := by rw [Variable.upperBound, bounded.kind]
  have suitable : suits x.kind (Value.int v).kind = true := by rw [bounded.kind]; rfl
  rw [validate_eq_ok_iff, lowerBound, upperBound, and_iff_right suitable]
  exact and_congr (forall_mem_iff_of_rel bounded.lower fun equal => near.lt_eq_false_iff equal)
    (forall_mem_iff_of_rel bounded.upper fun equal => near.gt_eq_false_iff equal)

theorem exists_built (h : ∀ v ∈ x.value, x.validate v = .ok ()) :
    ∃ net, Built (.net net) ∧ net.namedVariable? x.name = some x := by
  have suitable : x.value.bind x.unsuitable? = none :=
    Option.bind_eq_none_iff.2 fun v hv => validate_eq_ok.1 (h v hv)
  have run : (Edit.addVariable x).run ∅ =
      .ok x.name { (∅ : Net) with vars := (∅ : Net).vars.insert x.name x } := by
    rw [Edit.run_addVariable, suitable]
    exact if_neg List.not_mem_nil
  refine ⟨_, Built.empty.change (.addVariable x), ?_⟩
  rw [Change.edit, run_discard, run, endState, Net.namedVariable?, OrderedMap.get?_insert, if_pos rfl]

theorem exists_built_of_validate (h : x.validate v = .ok ()) : ∃ net, Built (.net net) ∧
    net.namedVariable? x.name = some { x with value := some v } := by
  refine exists_built (x := { x with value := some v }) fun w hw => ?_
  cases hw
  exact h

/-- An integer is admitted by a variable with integer bounds if it is within them or rounded to the one it
is beyond. If the integer is a double-precision number, it is admitted if and only if it is within. The
values that are found in nets that can be built are just those admitted, and at most 512 beyond a bound. -/
theorem integer_bounds_checked (bounded : x.BoundedBy bounds) :
    (∀ v : Int64, x.validate (.int v) = .ok () ↔ bounds.ContainRounded v.toInt) ∧
      (∀ (v : Int64) (b : Binary64), b.Amounts v.toInt →
        (x.validate (.int v) = .ok () ↔ bounds.Contain v.toInt)) ∧
      (∀ net name value, Built (.net net) → net.namedVariable? name = some x → x.value = some value →
        ∃ v : Int64, value = .int v ∧ bounds.ContainRounded v.toInt ∧
          (bounds.widen 512).Contain v.toInt) ∧
      ∀ v : Int64, bounds.ContainRounded v.toInt → ∃ net, Built (.net net) ∧
        net.namedVariable? x.name = some { x with value := some (.int v) } := by
  refine ⟨bounded.validate_int, fun v b equal => ?_, fun net name value built known holds => ?_,
    fun v within => exists_built_of_validate ((bounded.validate_int v).2 within)⟩
  · rw [bounded.validate_int, IntegerBounds.containRounded_iff equal]
  · have valid := built.wellFormed.valid known holds
    obtain ⟨v, rfl⟩ : ∃ v, value = .int v := by
      have suitable := (validate_eq_ok_iff.1 valid).1
      rw [bounded.kind] at suitable
      cases value with
      | int v => exact ⟨v, rfl⟩
      | float _ => cases suitable
      | bool _ => cases suitable
    have within := (bounded.validate_int v).1 valid
    exact ⟨v, rfl, within, within.contain_widen (natAbs_toInt_le v)⟩

def serial : Variable :=
  { Variable.declare "serial" .int with
    lower := some (.ofInt (-3)), upper := some (.ofInt 9007199254740992) }

def serialBounds : IntegerBounds := ⟨some (-3), some 9007199254740992⟩

theorem serial_bounds_checked : serial.BoundedBy serialBounds ∧
    serial.validate (.int (-4)) ≠ .ok () ∧ serial.validate (.int 7) = .ok () ∧
      serial.validate (.int 9007199254740993) = .ok () := by
  have bounded : serial.BoundedBy serialBounds :=
    ⟨rfl, .some (by decide +kernel), .some (by decide +kernel)⟩
  obtain ⟨rounded, exact, -⟩ := integer_bounds_checked bounded
  have below := (exact (-4) (.ofInt (-4)) (by decide +kernel)).not.2 (by decide +kernel)
  have within := (exact 7 (.ofInt 7) (by decide +kernel)).2 (by decide +kernel)
  have rounds : Rounds (9007199254740993 : Int64).toInt 9007199254740992 :=
    ⟨_, Binary64.nearest_ofInt (natAbs_toInt_le _), by decide +kernel⟩
  have beyond : serialBounds.ContainRounded (9007199254740993 : Int64).toInt :=
    ⟨fun l hl => .inl (by cases hl; decide), fun u hu => .inr (by cases hu; exact rounds)⟩
  exact ⟨bounded, below, within, (rounded _).2 beyond⟩

/-- The integer beyond the upper bound of the variable is admitted and can be found in a net. -/
theorem serial_exceeds_bound : serial.BoundedBy serialBounds ∧
    serial.validate (.int 9007199254740993) = .ok () ∧
    (∃ net, Built (.net net) ∧ net.namedVariable? "serial" =
      some { serial with value := some (.int 9007199254740993) }) ∧
    ¬serialBounds.Contain (9007199254740993 : Int64).toInt := by
  have admitted : serial.validate (.int 9007199254740993) = .ok () :=
    validate_eq_ok.2 (by decide +kernel)
  refine ⟨⟨rfl, .some (by decide +kernel), .some (by decide +kernel)⟩, admitted, ?_,
    by decide +kernel⟩
  exact exists_built_of_validate admitted

end Variable

end ProcessNet
