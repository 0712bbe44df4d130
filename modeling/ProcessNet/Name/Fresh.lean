/-!
Fresh names: a wanted name that is taken receives apostrophes until it is free. Each apostrophe makes
the candidate longer, so among the taken names at least as long as the candidate one fewer is left
whenever the candidate itself is taken; this count ends the search, and no bound has to be given.
-/

namespace ProcessNet.Name

/-- How many taken names are at least as long as the candidate. -/
def rivals (taken : List String) (candidate : String) : Nat :=
  taken.countP fun n => candidate.length ≤ n.length

theorem countP_lt_countP {α : Type} {p q : α → Bool} {l : List α} {a : α}
    (imp : ∀ x ∈ l, p x → q x) (mem : a ∈ l) (hp : ¬p a) (hq : q a) :
    l.countP p < l.countP q := by
  induction l with
  | nil => cases mem
  | cons b rest ih =>
    have tail := fun x hx => imp x (List.mem_cons_of_mem b hx)
    rcases List.mem_cons.1 mem with rfl | mem
    · rw [List.countP_cons_of_neg hp, List.countP_cons_of_pos hq]
      exact Nat.lt_succ_of_le (List.countP_mono_left tail)
    · have lt := ih tail mem
      by_cases hb : p b
      · rw [List.countP_cons_of_pos hb, List.countP_cons_of_pos (imp b List.mem_cons_self hb)]
        exact Nat.succ_lt_succ lt
      · rw [List.countP_cons_of_neg hb]
        exact Nat.lt_of_lt_of_le lt (List.sublist_cons_self b rest).countP_le

theorem rivals_push_lt {taken : List String} {candidate : String} (c : Char)
    (h : candidate ∈ taken) : rivals taken (candidate.push c) < rivals taken candidate := by
  refine countP_lt_countP (fun x _ hx => ?_) h ?_ ?_
  · simp only [String.length_push, decide_eq_true_eq] at hx ⊢
    omega
  · simp
  · simp

def fresh (taken : List String) (candidate : String) : String :=
  if candidate ∈ taken then fresh taken (candidate.push '\'') else candidate
termination_by rivals taken candidate
decreasing_by exact rivals_push_lt _ ‹_›

theorem fresh_of_not_mem {taken : List String} {candidate : String} (h : candidate ∉ taken) :
    fresh taken candidate = candidate := by
  rw [fresh, if_neg h]

theorem fresh_not_mem (taken : List String) (candidate : String) :
    fresh taken candidate ∉ taken := by
  fun_induction fresh taken candidate with
  | case1 _ _ ih => exact ih
  | case2 _ h => exact h

end ProcessNet.Name
