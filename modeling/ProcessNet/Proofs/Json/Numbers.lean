import ProcessNet.Net.Place
import ProcessNet.Proofs.Json.Reading
import ProcessNet.Proofs.Number.Rounding

/-!
Natural numbers as they are written and read. Decimal digits give the number back, the first of them
is zero for zero alone, and below the capacity of a place no digit is cut off and no double overflows;
so a count of tokens is read exactly, whatever item or line end follows it.
-/

namespace ProcessNet

namespace Decimal

theorem natOfDigits_toDigits (n : ℕ) : natOfDigits (Nat.toDigits 10 n) = n :=
  Nat.ofDigitChars_eq_foldl.symm.trans Nat.ofDigitChars_ten_toDigits

theorem isDigit_of_mem_toDigits {n : ℕ} {c : Char} (h : c ∈ Nat.toDigits 10 n) :
    c.isDigit = true :=
  Nat.isDigit_of_mem_toDigits (by decide) (by decide) h

theorem eq_zero_of_toDigits {n : ℕ} {ds : List Char} (h : Nat.toDigits 10 n = '0' :: ds) :
    n = 0 := by
  induction n using Nat.strong_induction_on generalizing ds with
  | _ n ih =>
    by_cases small : n < 10
    · have one : ∀ n < 10, Nat.digitChar n = '0' → n = 0 := by decide
      rw [Nat.toDigits_of_lt_base small] at h
      exact one n small (List.cons.inj h).1
    · rw [Nat.toDigits_of_base_le (by decide) (by omega)] at h
      rcases front : Nat.toDigits 10 (n / 10) with _ | ⟨c, more⟩
      · exact absurd front Nat.toDigits_ne_nil
      · rw [front] at h
        obtain rfl := (List.cons.inj h).1
        have := ih (n / 10) (by omega) front
        omega

end Decimal

namespace Json

open Decimal (digitValue natOfDigits)

variable {rest ds : List Char} {c : Char} {n : ℕ}

theorem le_foldl_digits (ds : List Char) (s : ℕ) :
    s ≤ ds.foldl (fun n c => 10 * n + digitValue c) s := by
  induction ds generalizing s with
  | nil => exact Nat.le_refl s
  | cons c rest ih =>
    have := ih (10 * s + digitValue c)
    rw [List.foldl_cons]
    omega

theorem wholeSignificand_of_le (h : natOfDigits ds ≤ significandCapacity) :
    wholeSignificand ds = (natOfDigits ds, 0) := by
  have gathered (ds : List Char) (s : ℕ)
      (h : ds.foldl (fun n c => 10 * n + digitValue c) s ≤ significandCapacity) :
      ds.foldl (fun p c =>
        let next := 10 * p.1 + digitValue c
        if 0 < p.2 ∨ significandCapacity < next then (p.1, p.2 + 1) else (next, 0)) (s, 0) =
        (ds.foldl (fun n c => 10 * n + digitValue c) s, 0) := by
    induction ds generalizing s with
    | nil => rfl
    | cons c rest ih =>
      have fits := Nat.le_trans (le_foldl_digits rest _) h
      simp only [List.foldl_cons, Nat.lt_irrefl, false_or, Nat.not_lt.2 fits, if_false]
      exact ih _ h
  exact gathered ds 0 h

theorem units_ofInt_lt {k : ℕ} (h : n < 2 ^ k) :
    Binary64.unitsOfRank (Binary64.ofInt n).rank < 2 ^ (k + 1076) := by
  have rank : (Binary64.ofInt n).rank.val = Binary64.nearestRank (n * Nat.pow 2 1074) 1 := rfl
  have scaled : n * Nat.pow 2 1074 / 1 < 2 ^ (k + 1074) := by
    rw [Nat.div_one, Nat.pow_add]
    exact Nat.mul_lt_mul_of_lt_of_le h (by decide +kernel) (by decide +kernel)
  have units := Binary64.unitsOfRank_lt (Binary64.nearestRank_le (by omega) scaled)
  rw [rank]
  exact Nat.lt_of_lt_of_le units (Nat.pow_le_pow_right Nat.two_pos (by omega))

theorem exceedsDoubles_zero_of_le (h : n ≤ significandCapacity) : exceedsDoubles n 0 = false := by
  have below : n < 2 ^ 64 := Nat.lt_of_le_of_lt h (by decide)
  have one : Nat.pow 10 (Int.toNat 0) < 2 ^ 1 := by decide
  rw [exceedsDoubles]
  split
  · rfl
  rw [if_neg (by decide)]
  refine decide_eq_false (Nat.ne_of_lt ?_)
  refine Nat.lt_of_le_of_lt (Binary64.nearestRank_le (k := 2000) (by decide)
    (Nat.div_lt_of_lt_mul ?_)) (by decide)
  exact Nat.lt_of_lt_of_le (Nat.mul_lt_mul'' (units_ofInt_lt below) (units_ofInt_lt one))
    (by decide +kernel)

theorem Follows.not_digit (follows : Follows rest) :
    rest.takeWhile Char.isDigit = [] ∧ rest.dropWhile Char.isDigit = rest := by
  obtain ⟨more, rfl | rfl⟩ := follows <;> exact ⟨rfl, rfl⟩

theorem reads_wholeDigits (n : ℕ) (follows : Follows rest) :
    Reads wholeDigits (Nat.toDigits 10 n ++ rest) (Nat.toDigits 10 n) rest := by
  have digits (c) : c ∈ Nat.toDigits 10 n → c.isDigit = true := Decimal.isDigit_of_mem_toDigits
  rcases written : Nat.toDigits 10 n with _ | ⟨c, ds⟩
  · exact absurd written Nat.toDigits_ne_nil
  rw [written] at digits
  have shorter : rest.length < (c :: (ds ++ rest)).length := by
    rw [List.length_cons, List.length_append]
    omega
  have taken : digitsFrom c (ds ++ rest) = ⟨c :: ds, rest, shorter⟩ := by
    have later : ∀ d ∈ ds, d.isDigit = true := fun d hd => digits d (List.mem_cons_of_mem c hd)
    simp only [digitsFrom, List.takeWhile_append_of_pos later, List.dropWhile_append_of_pos later,
      follows.not_digit, List.append_nil]
  by_cases zero : c = '0'
  · subst zero
    obtain rfl := Decimal.eq_zero_of_toDigits written
    obtain rfl : ds = [] := (List.cons.inj written).2.symm
    refine ⟨Nat.lt_succ_self _, ?_⟩
    obtain ⟨more, rfl | rfl⟩ := follows <;> rfl
  · have plain : wholeDigits (c :: (ds ++ rest)) = .ok (digitsFrom c (ds ++ rest)) := by
      rw [wholeDigits]
      · exact if_pos (digits c List.mem_cons_self)
      · exact fun _ eq => zero (List.cons.inj eq).1
    exact ⟨_, plain.trans (congrArg _ taken)⟩

theorem reads_numeral (n : ℕ) (follows : Follows rest) :
    Reads numeral (Nat.toDigits 10 n ++ rest) ⟨false, Nat.toDigits 10 n, none, none⟩ rest := by
  obtain ⟨shorter, whole⟩ := reads_wholeDigits n follows
  have no_fraction : fraction rest = .ok (.none rest) := by
    obtain ⟨more, rfl | rfl⟩ := follows <;> rfl
  have no_exponent : exponent rest = .ok (.none rest) := by
    obtain ⟨more, rfl | rfl⟩ := follows <;> rfl
  have unsigned : unsignedNumeral false (Nat.toDigits 10 n ++ rest) =
      .ok ⟨⟨false, Nat.toDigits 10 n, none, none⟩, rest, shorter⟩ := by
    rw [unsignedNumeral, whole]
    show (fraction rest >>= _) = _
    rw [no_fraction]
    show (exponent rest >>= _) = _
    rw [no_exponent]
    rfl
  refine ⟨shorter, ?_⟩
  rw [numeral]
  · exact unsigned
  · intro more minus
    rcases written : Nat.toDigits 10 n with _ | ⟨c, ds⟩
    · exact Nat.toDigits_ne_nil written
    · rw [written] at minus
      obtain rfl := (List.cons.inj minus).1
      exact absurd (Decimal.isDigit_of_mem_toDigits (written ▸ List.mem_cons_self)) (by decide)

theorem not_outOfRange (h : n ≤ significandCapacity) :
    (⟨false, Nat.toDigits 10 n, none, none⟩ : Numeral).outOfRange = false := by
  have whole : wholeSignificand (Nat.toDigits 10 n) = (n, 0) := by
    have same := Decimal.natOfDigits_toDigits n
    rw [wholeSignificand_of_le (same.symm ▸ h), same]
  simp only [Numeral.outOfRange, whole]
  exact exceedsDoubles_zero_of_le h

theorem natural?_toDigits (h : n ≤ significandCapacity) :
    (⟨false, Nat.toDigits 10 n, none, none⟩ : Numeral).natural? = some n := by
  simp [Numeral.natural?, Decimal.natOfDigits_toDigits, h]

theorem reads_number (h : n ≤ significandCapacity) (follows : Follows rest) :
    Reads number (Nat.toDigits 10 n ++ rest) (some n) rest := by
  obtain ⟨shorter, read⟩ := reads_numeral n follows
  refine ⟨shorter, ?_⟩
  rw [number, read]
  show (if Numeral.outOfRange _ = true then _ else _) = _
  rw [not_outOfRange h, if_neg Bool.false_ne_true]
  show Except.ok (Parsed.mk (Numeral.natural? _) rest shorter) = _
  rw [natural?_toDigits h]

theorem reads_naturalNumber (h : n ≤ Place.capacity) (follows : Follows rest) :
    Reads naturalNumber (Layout.natural n ++ rest) n rest := by
  have read := reads_number h follows
  rw [naturalNumber, reads_afterBlanks, Layout.natural]
  rcases written : Nat.toDigits 10 n with _ | ⟨c, ds⟩
  · exact absurd written Nat.toDigits_ne_nil
  have digit : c.isDigit = true := Decimal.isDigit_of_mem_toDigits (written ▸ List.mem_cons_self)
  have solid : isBlank c = false := by
    by_contra blank
    simp only [isBlank, Bool.not_eq_false, Bool.or_eq_true, decide_eq_true_eq] at blank
    rcases blank with ((rfl | rfl) | rfl) | rfl <;> exact absurd digit (by decide)
  rw [written] at read
  rw [List.cons_append] at read ⊢
  rw [skipBlanks_cons solid]
  obtain ⟨shorter, read⟩ := read
  refine ⟨shorter, ?_⟩
  dsimp only
  rw [List.head?_cons, Option.any_some, if_pos (by simp [digit]), read]
  rfl

end Json

end ProcessNet
