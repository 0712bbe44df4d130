import Mathlib
import ProcessNet.Proofs.Number.Rounding

/-!
What the conversion of an integer gives. Ranks with their sign list the finite numbers in order, the two
zeros at one place, so that the numbers around an integer are two neighbours in that list. The conversion
takes the nearer one, and of two equally near ones the one at the even place; an integer of at most 53
binary digits is converted to itself.
-/

namespace ProcessNet.Binary64

theorem unitsOfRank_shifted {cut q : ℕ} (normal : cut = 0 ∨ 2 ^ 52 ≤ q) (places : q ≤ 2 ^ 53) :
    unitsOfRank (cut * 2 ^ 52 + q) = q * 2 ^ cut := by
  have pow (k) : Nat.pow 2 k = 2 ^ k := rfl
  rw [unitsOfRank]
  simp only [pow]
  split
  next below =>
    obtain rfl : cut = 0 := by omega
    omega
  next above =>
    rcases Nat.eq_or_lt_of_le places with rfl | short
    · have exponent : (cut * 2 ^ 52 + 2 ^ 53) / 2 ^ 52 - 1 = cut + 1 := by omega
      have fraction : (cut * 2 ^ 52 + 2 ^ 53) % 2 ^ 52 = 0 := by omega
      rw [exponent, fraction, Nat.pow_succ 2 cut]
      omega
    · have exponent : (cut * 2 ^ 52 + q) / 2 ^ 52 - 1 = cut := by omega
      have fraction : 2 ^ 52 + (cut * 2 ^ 52 + q) % 2 ^ 52 = q := by omega
      rw [exponent, fraction]

theorem exists_shifted (r : ℕ) :
    ∃ cut q, r = cut * 2 ^ 52 + q ∧ (cut = 0 ∨ 2 ^ 52 ≤ q) ∧ q < 2 ^ 53 := by
  by_cases h : r < 2 ^ 52
  · exact ⟨0, r, by omega, .inl rfl, by omega⟩
  · exact ⟨r / 2 ^ 52 - 1, 2 ^ 52 + r % 2 ^ 52, by omega, .inr (by omega), by omega⟩

theorem strictMono_unitsOfRank : StrictMono unitsOfRank := by
  refine strictMono_nat_of_lt_succ fun r => ?_
  obtain ⟨cut, q, rfl, normal, places⟩ := exists_shifted r
  rw [unitsOfRank_shifted normal places.le, Nat.add_assoc,
    unitsOfRank_shifted (normal.imp_right Nat.le_succ_of_le) places]
  exact Nat.mul_lt_mul_of_pos_right q.lt_succ_self (Nat.pow_pos Nat.two_pos)

theorem roundQuotient_cases (n d : ℕ) :
    (roundQuotient n d = n / d ∧
      (2 * (n % d) < d ∨ 2 * (n % d) = d ∧ n / d % 2 = 0)) ∨
    (roundQuotient n d = n / d + 1 ∧
      (d < 2 * (n % d) ∨ 2 * (n % d) = d ∧ (n / d + 1) % 2 = 0)) := by
  rw [roundQuotient]
  split <;> omega

/-- The units at a place in the list of all numbers. -/
def unitsAt (k : ℤ) : ℤ := k.sign * unitsOfRank k.natAbs

theorem unitsAt_neg (k : ℤ) : unitsAt (-k) = -unitsAt k := by
  rw [unitsAt, unitsAt, Int.sign_neg, Int.natAbs_neg, Int.neg_mul]

theorem unitsAt_natCast (r : ℕ) : unitsAt r = unitsOfRank r := by
  rcases r with - | r
  · rfl
  · rw [unitsAt, Int.natAbs_natCast, Int.sign_eq_one_of_pos (by omega), Int.one_mul]

theorem strictMono_unitsAt : StrictMono unitsAt := by
  refine strictMono_of_odd_strictMonoOn_nonneg unitsAt_neg fun i hi j _ less => ?_
  obtain ⟨a, rfl⟩ := Int.eq_ofNat_of_zero_le hi
  obtain ⟨b, rfl⟩ := Int.eq_ofNat_of_zero_le (hi.trans less.le)
  rw [unitsAt_natCast, unitsAt_natCast]
  exact_mod_cast strictMono_unitsOfRank (Int.ofNat_lt.1 less)

/-- The place that is nearest to a number of units, an even one if there are two. -/
structure NearestPlace (m k : ℤ) : Prop where
  closest : ∀ j, (unitsAt k - m).natAbs ≤ (unitsAt j - m).natAbs
  even : ∀ j, (unitsAt j - m).natAbs = (unitsAt k - m).natAbs → j ≠ k → k % 2 = 0

theorem NearestPlace.neg {m k : ℤ} (h : NearestPlace m k) : NearestPlace (-m) (-k) := by
  have mirrored (j) : (unitsAt (-j) - -m).natAbs = (unitsAt j - m).natAbs := by
    rw [unitsAt_neg]
    omega
  refine ⟨fun j => ?_, fun j eq ne => ?_⟩
  · rw [mirrored, ← neg_neg j, mirrored]
    exact h.closest _
  · rw [← neg_neg j, mirrored, mirrored] at eq
    have := h.even _ eq (by omega)
    omega

theorem nearestPlace_left {m i : ℤ} (below : unitsAt i ≤ m)
    (h : m - unitsAt i < unitsAt (i + 1) - m ∨ m - unitsAt i = unitsAt (i + 1) - m ∧ i % 2 = 0) :
    NearestPlace m i := by
  refine ⟨fun j => ?_, fun j eq ne => ?_⟩
  · rcases lt_or_ge i j with after | before
    · have := strictMono_unitsAt.monotone (Int.add_one_le_of_lt after)
      omega
    · have := strictMono_unitsAt.monotone before
      omega
  · rcases Int.lt_or_gt_of_ne ne with before | after
    · have := strictMono_unitsAt before
      omega
    · have := strictMono_unitsAt.monotone (Int.add_one_le_of_lt after)
      omega

theorem nearestPlace_right {m i : ℤ} (above : m ≤ unitsAt (i + 1))
    (h : unitsAt (i + 1) - m < m - unitsAt i ∨
      unitsAt (i + 1) - m = m - unitsAt i ∧ (i + 1) % 2 = 0) : NearestPlace m (i + 1) := by
  have next : -(i + 1) + 1 = -i := by omega
  have mirrored : NearestPlace (-m) (-(i + 1)) := by
    refine nearestPlace_left ?_ ?_ <;> rw [unitsAt_neg]
    · omega
    · rw [next, unitsAt_neg]
      omega
  simpa using mirrored.neg

theorem nearestPlace_roundQuotient {m d : ℕ} {start : ℤ} (pos : 0 < d) (even : start % 2 = 0)
    (here : unitsAt (start + (m / d : ℕ)) = (m / d * d : ℕ))
    (next : unitsAt (start + (m / d : ℕ) + 1) = (m / d * d : ℕ) + d) :
    NearestPlace m (start + (roundQuotient m d : ℕ)) := by
  have parts := Nat.div_add_mod' m d
  have rest := Nat.mod_lt m pos
  rcases roundQuotient_cases m d with ⟨eq, near⟩ | ⟨eq, near⟩ <;> rw [eq]
  · refine nearestPlace_left ?_ ?_ <;> omega
  · rw [Int.natCast_succ, ← Int.add_assoc]
    refine nearestPlace_right ?_ ?_ <;> omega

/-- As long as it is finite, the rank of a whole number of units is its nearest place. -/
theorem nearestPlace_nearestRank {m : ℕ} (finite : nearestRank m 1 < infinityRank) :
    NearestPlace m (nearestRank m 1) := by
  obtain ⟨cut, hcut⟩ : ∃ cut, cut = m.log2 - 52 := ⟨_, rfl⟩
  have rank : nearestRank m 1 = cut * 2 ^ 52 + roundQuotient m (2 ^ cut) := by
    rw [nearestRank, Nat.div_one, ← hcut, Nat.one_mul] at finite ⊢
    exact Nat.min_eq_left (Nat.le_of_lt (by omega))
  have places : m / 2 ^ cut < 2 ^ 53 := by
    refine Nat.div_lt_of_lt_mul ?_
    rw [← Nat.pow_add]
    exact Nat.lt_of_lt_of_le Nat.lt_log2_self (Nat.pow_le_pow_right Nat.two_pos (by omega))
  have normal : cut = 0 ∨ 2 ^ 52 ≤ m / 2 ^ cut := by
    refine (Nat.eq_zero_or_pos cut).imp_right fun pos => ?_
    rw [Nat.le_div_iff_mul_le (Nat.pow_pos Nat.two_pos), ← Nat.pow_add, hcut,
      Nat.add_sub_cancel' (by omega)]
    refine Nat.log2_self_le fun zero => ?_
    rw [zero, Nat.log2_zero] at hcut
    omega
  have even : ((cut * 2 ^ 52 : ℕ) : ℤ) % 2 = 0 := by omega
  rw [rank, Int.natCast_add]
  refine nearestPlace_roundQuotient (Nat.pow_pos Nat.two_pos) even ?_ ?_
  · rw [← Int.natCast_add, unitsAt_natCast, unitsOfRank_shifted normal places.le]
  · rw [← Int.natCast_add, ← Int.natCast_succ, unitsAt_natCast, Nat.succ_eq_add_one, Nat.add_assoc,
      unitsOfRank_shifted (normal.imp_right Nat.le_succ_of_le) places, Nat.add_one_mul,
      Int.natCast_add]

/-- The place of a number among all, which both zeros share. -/
def place (x : Binary64) : ℤ := if x.negative then -(x.rank : ℤ) else x.rank

theorem natAbs_place (x : Binary64) : x.place.natAbs = x.rank := by
  rw [place]
  split <;> simp

theorem unitsAt_place (x : Binary64) : unitsAt x.place = x.units := by
  rw [place, units]
  split
  · rw [unitsAt_neg, unitsAt_natCast]
  · rw [unitsAt_natCast]

def IsFinite (x : Binary64) : Prop := (x.rank : ℕ) < infinityRank
deriving Decidable

theorem exists_at_place {k : ℤ} (h : k.natAbs < infinityRank) :
    ∃ x : Binary64, x.IsFinite ∧ x.place = k := by
  refine ⟨⟨decide (k < 0), k.natAbs, h.trans (by decide)⟩, h, ?_⟩
  rw [place]
  by_cases neg : k < 0
  · rw [if_pos (decide_eq_true neg)]
    exact Int.neg_eq_comm.1 (Int.ofNat_natAbs_of_nonpos neg.le).symm
  · rw [if_neg (by simpa using neg)]
    exact Int.natAbs_of_nonneg (Int.not_lt.1 neg)

@[irreducible] def unitsOfOne : ℕ := Nat.pow 2 1074

/-- The number is finite and equal to the integer. -/
def Amounts (x : Binary64) (n : ℤ) : Prop := x.IsFinite ∧ x.units = n * unitsOfOne
deriving Decidable

/-- No finite number is nearer to the integer, and one of odd rank is the only nearest. -/
structure Nearest (x : Binary64) (n : ℤ) : Prop where
  finite : x.IsFinite
  closest : ∀ y : Binary64, y.IsFinite →
    (x.units - n * unitsOfOne).natAbs ≤ (y.units - n * unitsOfOne).natAbs
  even : ∀ y : Binary64, y.IsFinite →
    (y.units - n * unitsOfOne).natAbs = (x.units - n * unitsOfOne).natAbs →
      y.units ≠ x.units → (x.rank : ℕ) % 2 = 0

variable {x y : Binary64} {n m : ℤ}

theorem place_eq_of_units_eq (h : x.units = y.units) : x.place = y.place := by
  rw [← unitsAt_place, ← unitsAt_place] at h
  exact strictMono_unitsAt.injective h

theorem rank_eq_of_units_eq (h : x.units = y.units) : (x.rank : ℕ) = y.rank := by
  rw [← natAbs_place, ← natAbs_place, place_eq_of_units_eq h]

theorem Nearest.of_units_eq (h : x.Nearest n) (eq : y.units = x.units) : y.Nearest n := by
  have rank := rank_eq_of_units_eq eq
  refine ⟨?_, fun z hz => ?_, fun z hz dist ne => ?_⟩
  · rw [IsFinite, rank]
    exact h.finite
  · rw [eq]
    exact h.closest z hz
  · rw [eq] at dist ne
    have := h.even z hz dist ne
    omega

theorem NearestPlace.nearest (h : NearestPlace (n * unitsOfOne) x.place) (finite : x.IsFinite) :
    x.Nearest n := by
  refine ⟨finite, fun y _ => ?_, fun y _ dist ne => ?_⟩
  · rw [← unitsAt_place, ← unitsAt_place]
    exact h.closest _
  · have apart : y.place ≠ x.place := fun eq => ne (by rw [← unitsAt_place, eq, unitsAt_place])
    rw [← unitsAt_place, ← unitsAt_place] at dist
    have := h.even _ dist apart
    have := natAbs_place x
    omega

theorem nearest_ofInt (h : n.natAbs ≤ 2 ^ 63) : (ofInt n).Nearest n := by
  have rank : ((ofInt n).rank : ℕ) = nearestRank (n.natAbs * unitsOfOne) 1 := by
    unfold unitsOfOne
    rfl
  have finite : (ofInt n).IsFinite := by
    rw [IsFinite, rank]
    refine Nat.lt_of_le_of_lt (nearestRank_le (k := 1138) (by decide) ?_) (by decide +kernel)
    rw [Nat.div_one]
    exact Nat.lt_of_le_of_lt (Nat.mul_le_mul_right _ h) (by decide +kernel)
  have near : NearestPlace ((n.natAbs * unitsOfOne : ℕ) : ℤ) ((ofInt n).rank : ℕ) := by
    rw [rank]
    exact nearestPlace_nearestRank (rank ▸ finite)
  refine NearestPlace.nearest ?_ finite
  have sign : (ofInt n).negative = decide (n < 0) := rfl
  rw [place, sign]
  rw [Int.natCast_mul] at near
  by_cases neg : n < 0
  · rw [if_pos (decide_eq_true neg)]
    rw [Int.ofNat_natAbs_of_nonpos neg.le] at near
    simpa using near.neg
  · rw [if_neg (by simpa using neg)]
    rwa [Int.natAbs_of_nonneg (Int.not_lt.1 neg)] at near

theorem Nearest.place_le (hx : x.Nearest n) (hy : y.Nearest n) : x.place ≤ y.place := by
  by_contra! less
  have apart := strictMono_unitsAt less
  rw [unitsAt_place, unitsAt_place] at apart
  have dist := Nat.le_antisymm (hx.closest y hy.finite) (hy.closest x hx.finite)
  have evenx := hx.even y hy.finite dist.symm apart.ne
  have eveny := hy.even x hx.finite dist apart.ne'
  rw [← natAbs_place] at evenx eveny
  -- Two places of the same parity have one between them, and its number is nearer.
  have between : y.place < y.place + 1 ∧ y.place + 1 < x.place := by omega
  have finitex := hx.finite
  have finitey := hy.finite
  rw [IsFinite, ← natAbs_place] at finitex finitey
  obtain ⟨z, finite, hz⟩ := exists_at_place (k := y.place + 1) (by omega)
  have below := strictMono_unitsAt between.1
  have above := strictMono_unitsAt between.2
  rw [← hz, unitsAt_place, unitsAt_place] at below above
  have nearer := hx.closest z finite
  omega

theorem Nearest.units_eq (hx : x.Nearest n) (hy : y.Nearest n) : x.units = y.units := by
  rw [← unitsAt_place, (hx.place_le hy).antisymm (hy.place_le hx), unitsAt_place]

theorem Nearest.units_le_iff (hx : x.Nearest n) (finite : y.IsFinite) :
    y.units ≤ x.units ↔ y.units ≤ n * unitsOfOne ∨ y.Nearest n := by
  have closest := hx.closest y finite
  constructor
  · intro le
    by_cases below : y.units ≤ n * unitsOfOne
    · exact .inl below
    · exact .inr (hx.of_units_eq (by omega))
  · rintro (below | near)
    · omega
    · exact (near.units_eq hx).le

theorem Nearest.le_units_iff (hx : x.Nearest n) (finite : y.IsFinite) :
    x.units ≤ y.units ↔ n * unitsOfOne ≤ y.units ∨ y.Nearest n := by
  have closest := hx.closest y finite
  constructor
  · intro le
    by_cases above : n * unitsOfOne ≤ y.units
    · exact .inl above
    · exact .inr (hx.of_units_eq (by omega))
  · rintro (above | near)
    · omega
    · exact (near.units_eq hx).ge

theorem unitsOfOne_pos : 0 < unitsOfOne := by decide +kernel

theorem Amounts.units_le_iff (h : x.Amounts m) : x.units ≤ n * unitsOfOne ↔ m ≤ n := by
  rw [h.2, mul_le_mul_iff_left₀ (Int.natCast_pos.2 unitsOfOne_pos)]

theorem Amounts.le_units_iff (h : x.Amounts m) : n * unitsOfOne ≤ x.units ↔ n ≤ m := by
  rw [h.2, mul_le_mul_iff_left₀ (Int.natCast_pos.2 unitsOfOne_pos)]

theorem Amounts.nearest (h : x.Amounts n) : x.Nearest n := by
  refine ⟨h.1, fun y _ => ?_, fun y _ dist ne => absurd ?_ ne⟩
  · rw [h.2, Int.sub_self]
    exact Nat.zero_le _
  · rw [h.2] at dist ⊢
    omega

def Rounds (n m : ℤ) : Prop := ∃ x : Binary64, x.Nearest n ∧ x.Amounts m

theorem Amounts.nearest_iff (h : x.Amounts m) : x.Nearest n ↔ Rounds n m := by
  refine ⟨fun near => ⟨x, near, h⟩, fun ⟨y, near, hy⟩ => near.of_units_eq ?_⟩
  rw [h.2, hy.2]

theorem Rounds.eq_of_amounts (h : Rounds n m) (hx : x.Amounts n) : m = n := by
  obtain ⟨y, near, hy⟩ := h
  have eq := near.units_eq hx.nearest
  rw [hy.2, hx.2] at eq
  exact mul_right_cancel₀ (Int.natCast_pos.2 unitsOfOne_pos).ne' eq

theorem exists_rank {a e : ℕ} (small : a ≤ 2 ^ 53) (he : 52 ≤ e) :
    ∃ r ≤ (e + 2) * 2 ^ 52, unitsOfRank r = a * 2 ^ e := by
  rcases Nat.eq_zero_or_pos a with rfl | pos
  · exact ⟨0, Nat.zero_le _, by rw [unitsOfRank_zero, Nat.zero_mul]⟩
  obtain ⟨l, hl, lower, upper⟩ : ∃ l ≤ 52, 2 ^ l ≤ a ∧ a ≤ 2 ^ (l + 1) := by
    rcases Nat.eq_or_lt_of_le small with rfl | less
    · exact ⟨52, le_rfl, by decide, le_rfl⟩
    · exact ⟨a.log2, Nat.le_of_lt_succ ((Nat.log2_lt pos.ne').2 less), Nat.log2_self_le pos.ne',
        Nat.lt_log2_self.le⟩
  have normal : 2 ^ 52 ≤ a * 2 ^ (52 - l) := by
    have := Nat.mul_le_mul_right (2 ^ (52 - l)) lower
    rwa [← Nat.pow_add, Nat.add_sub_cancel' hl] at this
  have places : a * 2 ^ (52 - l) ≤ 2 ^ 53 := by
    have := Nat.mul_le_mul_right (2 ^ (52 - l)) upper
    rwa [← Nat.pow_add, Nat.add_right_comm, Nat.add_sub_cancel' hl] at this
  have shift : 52 - l + (e + l - 52) = e := by omega
  refine ⟨(e + l - 52) * 2 ^ 52 + a * 2 ^ (52 - l), ?_, ?_⟩
  · have exponent : (e + l - 52) * 2 ^ 52 ≤ e * 2 ^ 52 := Nat.mul_le_mul_right _ (by omega)
    exact (Nat.add_le_add exponent places).trans_eq (by omega)
  · rw [unitsOfRank_shifted (.inr normal) places, Nat.mul_assoc, ← Nat.pow_add, shift]

theorem exists_amounts {e : ℕ} (small : n.natAbs ≤ 2 ^ 53) (he : e ≤ 10) :
    ∃ x : Binary64, x.Amounts (n * 2 ^ e) := by
  -- The power of two is used as such and must not be computed.
  obtain ⟨k, above, below, one⟩ : ∃ k, 52 ≤ k ∧ k ≤ 1074 ∧ unitsOfOne = 2 ^ k :=
    ⟨1074, by decide, le_rfl, by decide +kernel⟩
  obtain ⟨r, le, hr⟩ := exists_rank (e := e + k) small (by omega)
  have finite : r < infinityRank :=
    Nat.lt_of_le_of_lt (le.trans (Nat.mul_le_mul_right _ (by omega : _ ≤ 1086))) (by decide)
  have magnitude : (unitsOfRank r : ℤ) = n.natAbs * 2 ^ e * unitsOfOne := by
    rw [hr, Nat.pow_add, ← one, ← Nat.mul_assoc]
    norm_cast
  obtain ⟨i, hi, units⟩ : ∃ i : ℤ, i.natAbs = r ∧ unitsAt i = n * 2 ^ e * unitsOfOne := by
    rcases n.natAbs_eq with eq | eq
    · refine ⟨r, Int.natAbs_natCast r, ?_⟩
      rw [unitsAt_natCast, magnitude, ← eq]
    · refine ⟨-r, by rw [Int.natAbs_neg, Int.natAbs_natCast], ?_⟩
      rw [unitsAt_neg, unitsAt_natCast, magnitude, ← Int.neg_mul, ← Int.neg_mul, ← eq]
  obtain ⟨x, hx, rfl⟩ := exists_at_place (hi ▸ finite)
  exact ⟨x, hx, by rw [← unitsAt_place, units]⟩

/-- Every multiple of 1024 in the range is a number, and one of them is at most 512 away. -/
theorem Nearest.near (h : x.Nearest n) (range : n.natAbs ≤ 2 ^ 63) :
    (x.units - n * unitsOfOne).natAbs ≤ 512 * unitsOfOne := by
  obtain ⟨y, hy⟩ := exists_amounts (n := (n + 512) / 1024) (e := 10) (by omega) le_rfl
  have steps : -512 ≤ (n + 512) / 1024 * 2 ^ 10 - n ∧ (n + 512) / 1024 * 2 ^ 10 - n ≤ 512 := by omega
  have le := h.closest y hy.1
  rw [hy.2, ← Int.sub_mul, Int.natAbs_mul] at le
  refine le.trans (Nat.mul_le_mul ?_ le_rfl)
  omega

theorem Rounds.near (h : Rounds n m) (range : n.natAbs ≤ 2 ^ 63) : (m - n).natAbs ≤ 512 := by
  obtain ⟨x, near, hx⟩ := h
  have le := near.near range
  rw [hx.2, ← Int.sub_mul, Int.natAbs_mul, Int.natAbs_natCast] at le
  exact Nat.le_of_mul_le_mul_right le unitsOfOne_pos

end ProcessNet.Binary64
