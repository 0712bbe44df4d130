import Mathlib.Data.Nat.Notation
import Mathlib.Tactic.Basic
import ProcessNet.Json.Layout
import ProcessNet.Json.Values

/-!
Reading what was written, as far as brackets go. A reader takes a written value from the front of a
text and leaves what follows it. Between brackets items stand on lines of their own, so what follows
one is a comma or the end of a line; readers of items have to be right for these followers only.
-/

namespace ProcessNet.Json

/-- From this text the reader takes the value, and the rest is left. -/
def Reads {α : Type} (reader : Reader α) (cs : List Char) (a : α) (rest : List Char) : Prop :=
  ∃ shorter, reader cs = .ok ⟨a, rest, shorter⟩

variable {α β : Type} {reader : Reader α} {cs rest : List Char} {a : α} {c : Char}

theorem reads_afterBlanks :
    Reads (afterBlanks reader) cs a rest ↔ Reads reader (skipBlanks cs) a rest := by
  constructor
  · rintro ⟨shorter, h⟩
    rw [afterBlanks] at h
    rcases read : reader (skipBlanks cs) with problem | p <;> rw [read] at h
    · cases h
    · cases h
      exact ⟨p.shorter, read⟩
  · rintro ⟨shorter, h⟩
    refine ⟨Nat.lt_of_lt_of_le shorter (length_skipBlanks_le cs), ?_⟩
    rw [afterBlanks, h]
    rfl

theorem skipBlanks_cons (h : isBlank c = false) : skipBlanks (c :: cs) = c :: cs := by
  simp [skipBlanks, h]

theorem skipBlanks_blank (h : isBlank c = true) : skipBlanks (c :: cs) = skipBlanks cs := by
  simp [skipBlanks, h]

theorem skipBlanks_newline (level : ℕ) (cs : List Char) :
    skipBlanks (Layout.newline level ++ cs) = skipBlanks cs := by
  have spaces (n : ℕ) : skipBlanks (List.replicate n ' ' ++ cs) = skipBlanks cs := by
    induction n with
    | zero => rfl
    | succ n ih => exact (skipBlanks_blank (by decide)).trans ih
  exact (skipBlanks_blank (by decide)).trans (spaces _)

theorem length_lt_of_skipBlanks (h : skipBlanks cs = c :: rest) : rest.length < cs.length := by
  have := length_skipBlanks_le cs
  rw [h, List.length_cons] at this
  omega

theorem turn_close {closing : Char} {first : Bool} (h : skipBlanks cs = closing :: rest) :
    ∃ shorter, turn closing first cs = .ok (.close rest shorter) := by
  refine ⟨length_lt_of_skipBlanks h, ?_⟩
  rw [turn]
  split
  · next none => cases h.symm.trans none
  · next d more found =>
    cases h.symm.trans found
    exact if_pos rfl

theorem turn_first {closing : Char} (h : skipBlanks cs = c :: rest) (ne : c ≠ closing) :
    ∃ le, turn closing true cs = .ok (.item (c :: rest) le) := by
  refine ⟨length_lt_of_skipBlanks h, ?_⟩
  rw [turn]
  split
  · next none => cases h.symm.trans none
  · next d more found =>
    cases h.symm.trans found
    exact (if_neg ne).trans (if_pos rfl)

theorem turn_next {closing : Char} {more : List Char} (h : skipBlanks cs = ',' :: more)
    (comma : ',' ≠ closing) (h' : skipBlanks more = c :: rest) (ne : c ≠ closing) :
    ∃ le, turn closing false cs = .ok (.item (c :: rest) le) := by
  refine ⟨Nat.lt_trans (length_lt_of_skipBlanks h') (length_lt_of_skipBlanks h), ?_⟩
  rw [turn]
  split
  · next none => cases h.symm.trans none
  · next d more found =>
    cases h.symm.trans found
    dsimp only
    rw [if_neg comma, if_neg Bool.false_ne_true, if_pos rfl]
    split
    · next none => cases h'.symm.trans none
    · next d more found =>
      cases h'.symm.trans found
      exact if_neg ne

namespace Layout

def inside (closing : Char) (level : ℕ) (first : Bool) : List (List Char) → List Char
  | [] => if first then [closing] else newline level ++ [closing]
  | item :: others =>
    (if first then [] else [',']) ++ newline (level + 1) ++ item ++ inside closing level false others

theorem bracketed_eq (opening closing : Char) (level : ℕ) (items : List (List Char)) :
    bracketed opening closing level items = opening :: inside closing level true items := by
  have later (lines : List (List Char)) (item : List Char) :
      List.intercalate [','] ((newline (level + 1) ++ item) ::
        lines.map (newline (level + 1) ++ ·)) ++ newline level ++ [closing] =
      newline (level + 1) ++ item ++ inside closing level false lines := by
    induction lines generalizing item with
    | nil => simp [List.intercalate, inside]
    | cons next rest ih =>
      have ih := ih next
      simp only [List.intercalate, List.map_cons, List.intersperse_cons_cons, List.flatten_cons,
        inside, List.append_assoc] at ih ⊢
      rw [ih]
      simp
  cases items with
  | nil => rfl
  | cons item others =>
    have := later others item
    simp only [bracketed, inside, List.map_cons, if_true, List.nil_append] at this ⊢
    rw [this]

end Layout

open Layout (inside newline bracketed_eq)

/-- A written item begins with this character, which is neither a blank nor the closing bracket. -/
def Starts (closing : Char) (item : List Char) : Prop :=
  ∃ c more, item = c :: more ∧ isBlank c = false ∧ c ≠ closing

def Follows (rest : List Char) : Prop := ∃ more, rest = ',' :: more ∨ rest = '\n' :: more

variable {closing : Char} {level : ℕ} {first : Bool} {item : List Char} {others : List (List Char)}

theorem follows_inside : Follows (inside closing level false others ++ rest) := by
  cases others with
  | nil => exact ⟨_, .inr rfl⟩
  | cons item others => exact ⟨_, .inl rfl⟩

theorem turn_inside_nil (h : isBlank closing = false) :
    ∃ shorter, turn closing first (inside closing level first [] ++ rest) =
      .ok (.close rest shorter) := by
  refine turn_close ?_
  cases first with
  | true => exact skipBlanks_cons h
  | false =>
    rw [inside, if_neg Bool.false_ne_true, List.append_assoc, skipBlanks_newline]
    exact skipBlanks_cons h

theorem turn_inside_cons (comma : ',' ≠ closing) (starts : Starts closing item) :
    ∃ le, turn closing first (inside closing level first (item :: others) ++ rest) =
      .ok (.item (item ++ (inside closing level false others ++ rest)) le) := by
  obtain ⟨c, more, rfl, solid, ne⟩ := starts
  have start (cs : List Char) : skipBlanks (newline (level + 1) ++ (c :: more ++ cs)) =
      c :: (more ++ cs) := by
    rw [skipBlanks_newline]
    exact skipBlanks_cons solid
  cases first with
  | true =>
    refine turn_first ?_ ne
    simp only [inside, if_true, List.nil_append, List.append_assoc]
    exact start _
  | false =>
    have comma_first : skipBlanks (inside closing level false ((c :: more) :: others) ++ rest) =
        ',' :: (newline (level + 1) ++ (c :: more ++ (inside closing level false others ++ rest))) := by
      rw [inside, if_neg Bool.false_ne_true]
      simp only [List.append_assoc]
      exact skipBlanks_cons (by decide)
    exact turn_next comma_first comma (start _) ne

theorem reads_items_close {shorter : rest.length < cs.length}
    (turned : turn ']' first cs = .ok (.close rest shorter)) :
    Reads (items reader first) cs [] rest := by
  refine ⟨shorter, ?_⟩
  rw [items, turned]
  rfl

theorem reads_items_item {start mid : List Char} {as : List α} {le : start.length ≤ cs.length}
    (turned : turn ']' first cs = .ok (.item start le)) (one : Reads reader start a mid)
    (others : Reads (items reader false) mid as rest) :
    Reads (items reader first) cs (a :: as) rest := by
  obtain ⟨shorter, one⟩ := one
  obtain ⟨shorter', others⟩ := others
  refine ⟨Nat.lt_of_lt_of_le (Nat.lt_trans shorter' shorter) le, ?_⟩
  rw [items, turned]
  show (reader start >>= _) = _
  rw [one]
  show (items reader false mid >>= _) = _
  rw [others]
  rfl

theorem reads_items {write : α → List Char} {as : List α} (h : ∀ a ∈ as, Starts ']' (write a) ∧
      ∀ rest, Follows rest → Reads reader (write a ++ rest) a rest) :
    Reads (items reader first) (inside ']' level first (as.map write) ++ rest) as rest := by
  induction as generalizing first with
  | nil =>
    obtain ⟨shorter, turned⟩ := turn_inside_nil (show isBlank ']' = false by decide)
    exact reads_items_close turned
  | cons a others ih =>
    obtain ⟨starts, reads⟩ := h a List.mem_cons_self
    obtain ⟨le, turned⟩ := turn_inside_cons (show ',' ≠ ']' by decide) starts
    exact reads_items_item turned (reads _ follows_inside)
      (ih fun b hb => h b (List.mem_cons_of_mem a hb))

theorem reads_array {write : α → List Char} {as : List α} (h : ∀ a ∈ as, Starts ']' (write a) ∧
      ∀ rest, Follows rest → Reads reader (write a ++ rest) a rest) :
    Reads (array reader) (Layout.array level (as.map write) ++ rest) as rest := by
  rw [Layout.array, bracketed_eq, array, reads_afterBlanks, List.cons_append,
    skipBlanks_cons (by decide)]
  have read : Reads (items reader true) (inside ']' level true (as.map write) ++ rest) as rest :=
    reads_items h
  obtain ⟨shorter, read⟩ := read
  refine ⟨Nat.lt_succ_of_lt shorter, ?_⟩
  show (items reader true _ >>= _) = _
  rw [read]
  rfl

end ProcessNet.Json
