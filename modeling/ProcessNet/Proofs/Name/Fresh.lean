import Mathlib.Data.Finset.Dedup
import Mathlib.Data.Finset.Card
import ProcessNet.Name.Fresh

/-!
Which name a fresh one is. The search tries the wanted name with no apostrophe, with one, with two and
so on, and stops at the first that is free. The names it has passed by are all taken and all different,
so there are no more of them than taken names. Names that are made fresh one after the other, each taken
from then on, are different from one another and from all that were taken before.
-/

namespace ProcessNet.Name

def primed (base : String) (k : ℕ) : String := base ++ String.ofList (List.replicate k '\'')

theorem primed_zero (base : String) : primed base 0 = base := by
  rw [primed, List.replicate_zero]
  exact String.append_empty

theorem primed_push (base : String) (k : ℕ) :
    primed (base.push '\'') k = primed base (k + 1) := by
  refine String.toList_injective ?_
  simp [primed, List.replicate_succ]

theorem length_primed (base : String) (k : ℕ) : (primed base k).length = base.length + k := by
  simp [primed]

theorem primed_injective (base : String) : Function.Injective (primed base) := by
  intro j k same
  have lengths := congrArg String.length same
  rw [length_primed, length_primed] at lengths
  exact Nat.add_left_cancel lengths

theorem exists_fresh_eq_primed (taken : List String) (base : String) : ∃ k,
    fresh taken base = primed base k ∧ (∀ j < k, primed base j ∈ taken) ∧
      primed base k ∉ taken := by
  fun_induction fresh taken base with
  | case1 base mem ih =>
    obtain ⟨k, found, passed, free⟩ := ih
    rw [primed_push] at found free
    refine ⟨k + 1, found, fun j hj => ?_, free⟩
    cases j with
    | zero => rwa [primed_zero]
    | succ j =>
      rw [← primed_push]
      exact passed j (Nat.lt_of_succ_lt_succ hj)
  | case2 base free =>
    refine ⟨0, (primed_zero base).symm, fun j hj => absurd hj (Nat.not_lt_zero j), ?_⟩
    rwa [primed_zero]

theorem le_card_of_passed {taken : List String} {base : String} {k : ℕ}
    (passed : ∀ j < k, primed base j ∈ taken) : k ≤ taken.toFinset.card := by
  have sub : (Finset.range k).image (primed base) ⊆ taken.toFinset := by
    intro name hn
    obtain ⟨j, hj, rfl⟩ := Finset.mem_image.1 hn
    exact List.mem_toFinset.2 (passed j (Finset.mem_range.1 hj))
  calc k = ((Finset.range k).image (primed base)).card := by
        rw [Finset.card_image_of_injective _ (primed_injective base), Finset.card_range]
    _ ≤ taken.toFinset.card := Finset.card_le_card sub

/-- Names made fresh one after the other, each of them taken for those that follow. -/
def freshInTurn : List String → List String → List String
  | _, [] => []
  | taken, base :: rest => fresh taken base :: freshInTurn (taken ++ [fresh taken base]) rest

theorem not_mem_of_mem_freshInTurn {taken bases : List String} {name : String}
    (h : name ∈ freshInTurn taken bases) : name ∉ taken := by
  induction bases generalizing taken with
  | nil => cases h
  | cons base rest ih =>
    rcases List.mem_cons.1 h with rfl | later
    · exact fresh_not_mem taken base
    · exact fun mem => ih later (List.mem_append_left _ mem)

theorem nodup_freshInTurn (taken bases : List String) : (freshInTurn taken bases).Nodup := by
  induction bases generalizing taken with
  | nil => exact List.nodup_nil
  | cons base rest ih =>
    refine List.nodup_cons.2 ⟨fun later => ?_, ih _⟩
    exact not_mem_of_mem_freshInTurn later (List.mem_append_right _ (List.mem_singleton_self _))

end ProcessNet.Name
