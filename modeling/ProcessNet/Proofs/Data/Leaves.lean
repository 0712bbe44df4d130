import Mathlib.Data.List.Basic
import ProcessNet.Data.Guard

/-!
The leaves of a guard, which are the parts that are no conjunctions themselves. However conjunctions
are nested, a guard answers as its leaves do one after the other from the left: the first that does not
accept decides, be it by a rejection or by an error. So a guard fails where one leaf fails to read its
variable and all leaves before it accept.
-/

namespace ProcessNet

theorem Variables.read_eq_error {vars : Variables} {name : String} {e : NetError} :
    vars.read name = .error e ↔
      (vars.get? name = none ∧ e = .unknownReference .variable name) ∨
        ∃ z, vars.get? name = some z ∧ z.value = none ∧ e = .unsetVariable name := by
  unfold Variables.read
  cases vars.get? name with
  | none => simp [eq_comm]
  | some z => cases h : z.value <;> simp [h, eq_comm]

namespace Guard

mutual

def leaves : Guard → List Guard
  | allOf guards => leavesAll guards
  | g => [g]

def leavesAll : List Guard → List Guard
  | [] => []
  | g :: rest => g.leaves ++ leavesAll rest

end

def isObjection : Except NetError Bool → Bool
  | .ok true => false
  | _ => true

/-- The first answer that is no acceptance, or an acceptance if there is none. -/
def firstObjection (answers : List (Except NetError Bool)) : Except NetError Bool :=
  (answers.find? isObjection).getD (.ok true)

theorem isObjection_iff {a : Except NetError Bool} : isObjection a = true ↔ a ≠ .ok true := by
  unfold isObjection
  split
  · simp
  · next other => simpa using other

theorem firstObjection_append (earlier later : List (Except NetError Bool)) :
    firstObjection (earlier ++ later) = match firstObjection earlier with
      | .ok true => firstObjection later
      | other => other := by
  unfold firstObjection
  rw [List.find?_append]
  cases h : earlier.find? isObjection with
  | none => rfl
  | some a =>
    have objection := isObjection_iff.1 (List.find?_some h)
    rw [Option.some_or, Option.getD_some]
    split
    · contradiction
    · rfl

theorem firstObjection_singleton (a : Except NetError Bool) : firstObjection [a] = a := by
  unfold firstObjection
  by_cases h : a = .ok true
  · rw [h]
    rfl
  · rw [List.find?_cons_of_pos (isObjection_iff.2 h)]
    rfl

theorem firstObjection_eq_error {answers : List (Except NetError Bool)} {e : NetError} :
    firstObjection answers = .error e ↔
      ∃ earlier later, answers = earlier ++ .error e :: later ∧ ∀ a ∈ earlier, a = .ok true := by
  have found : firstObjection answers = .error e ↔
      answers.find? isObjection = some (.error e) := by
    unfold firstObjection
    cases answers.find? isObjection <;> simp
  have accepted {a : Except NetError Bool} : (!isObjection a) = true ↔ a = .ok true := by
    rw [Bool.not_eq_true', ← Bool.not_eq_true, isObjection_iff, not_not]
  rw [found, List.find?_eq_some_iff_append, isObjection_iff]
  simp only [accepted]
  simp

variable {vars : Variables}

mutual

/-- A guard answers as its leaves do from the left, up to the first that does not accept. -/
theorem accepts_eq_firstObjection : (g : Guard) →
    g.accepts vars = firstObjection (g.leaves.map (·.accepts vars))
  | always => (firstObjection_singleton _).symm
  | compare _ _ _ => (firstObjection_singleton _).symm
  | truth _ _ => (firstObjection_singleton _).symm
  | predicate _ _ => (firstObjection_singleton _).symm
  | allOf guards => acceptsAll_eq_firstObjection guards

theorem acceptsAll_eq_firstObjection : (guards : List Guard) →
    acceptsAll vars guards = firstObjection ((leavesAll guards).map (·.accepts vars))
  | [] => rfl
  | g :: rest => by
    rw [leavesAll, List.map_append, firstObjection_append, ← accepts_eq_firstObjection g,
      ← acceptsAll_eq_firstObjection rest]
    rfl

end

mutual

theorem leaves_ne_allOf : (g : Guard) → ∀ leaf ∈ g.leaves, ∀ guards, leaf ≠ allOf guards
  | always, _, h, _, eq => nomatch (List.mem_singleton.1 h).symm.trans eq
  | compare _ _ _, _, h, _, eq => nomatch (List.mem_singleton.1 h).symm.trans eq
  | truth _ _, _, h, _, eq => nomatch (List.mem_singleton.1 h).symm.trans eq
  | predicate _ _, _, h, _, eq => nomatch (List.mem_singleton.1 h).symm.trans eq
  | allOf guards, leaf, h, _, eq => leavesAll_ne_allOf guards leaf h _ eq

theorem leavesAll_ne_allOf :
    (gs : List Guard) → ∀ leaf ∈ leavesAll gs, ∀ guards, leaf ≠ allOf guards
  | g :: rest, leaf, h, guards, eq => by
    rcases List.mem_append.1 h with h | h
    · exact leaves_ne_allOf g leaf h guards eq
    · exact leavesAll_ne_allOf rest leaf h guards eq

end

mutual

theorem reads_eq_flatMap_leaves : (g : Guard) → g.reads = g.leaves.flatMap reads
  | always => rfl
  | compare _ _ _ => rfl
  | truth _ _ => rfl
  | predicate _ _ => rfl
  | allOf guards => readsAll_eq_flatMap_leaves guards

theorem readsAll_eq_flatMap_leaves : (guards : List Guard) →
    readsAll guards = (leavesAll guards).flatMap reads
  | [] => rfl
  | g :: rest => by
    rw [readsAll, leavesAll, List.flatMap_append, ← reads_eq_flatMap_leaves g,
      ← readsAll_eq_flatMap_leaves rest]

end

theorem leaf_accepts_eq_error {leaf : Guard} {e : NetError} (h : ∀ guards, leaf ≠ allOf guards) :
    leaf.accepts vars = .error e ↔ ∃ name ∈ leaf.reads, vars.read name = .error e := by
  have map_eq_error (name : String) (f : Value → Bool) :
      (vars.read name).map f = .error e ↔ vars.read name = .error e := by
    cases vars.read name <;> simp [Except.map]
  cases leaf with
  | always => simp [accepts, reads]
  | compare name op v => simp [accepts, reads, map_eq_error]
  | truth name expected => simp [accepts, reads, map_eq_error]
  | predicate name holds => simp [accepts, reads, map_eq_error]
  | allOf guards => exact absurd rfl (h guards)

theorem accepts_eq_error_iff {g : Guard} {e : NetError} : g.accepts vars = .error e ↔
    ∃ before leaf after, g.leaves = before ++ leaf :: after ∧
      (∀ earlier ∈ before, earlier.accepts vars = .ok true) ∧
        ∃ name ∈ leaf.reads, vars.read name = .error e := by
  rw [accepts_eq_firstObjection, firstObjection_eq_error]
  constructor
  · rintro ⟨earlier, later, split, accepted⟩
    obtain ⟨before, rest, leaves, rfl, rest_eq⟩ := List.map_eq_append_iff.1 split
    obtain ⟨leaf, after, rfl, fails, -⟩ := List.map_eq_cons_iff.1 rest_eq
    have simple := leaves_ne_allOf g leaf (by simp [leaves])
    exact ⟨before, leaf, after, leaves, fun l hl => accepted _ (List.mem_map_of_mem hl),
      (leaf_accepts_eq_error simple).1 fails⟩
  · rintro ⟨before, leaf, after, leaves, accepted, fails⟩
    have simple := leaves_ne_allOf g leaf (by simp [leaves])
    refine ⟨before.map (·.accepts vars), after.map (·.accepts vars), ?_, ?_⟩
    · rw [leaves, List.map_append, List.map_cons, (leaf_accepts_eq_error simple).2 fails]
    · simpa using accepted

end Guard

end ProcessNet
