import ProcessNet.Proofs.Json.Reading

/-!
Strings as they are written and read. Every character is written so that it is read back: quotes,
backslashes and control characters by an escape, of one letter or of four hexadecimal digits, all
others as they are. Strings of any characters are therefore read back, keys and texts alike.
-/

namespace ProcessNet.Json

open Layout (shortEscape? encodeChar encode hexDigit)
open Text (hexValue?)

variable {cs mid rest s : List Char} {c : Char}

theorem hexValue?_hexDigit : ∀ n < 16, hexValue? (hexDigit n) = some n := by decide

theorem letterEscape?_of_shortEscape? {e : Char} (h : shortEscape? c = some e) :
    letterEscape? e = some c ∧ e ≠ 'u' := by
  unfold shortEscape? at h
  split at h <;> cases h <;> exact ⟨rfl, by decide⟩

theorem ne_of_shortEscape?_eq_none (h : shortEscape? c = none) : c ≠ '"' ∧ c ≠ '\\' := by
  constructor <;> rintro rfl <;> cases h

theorem reads_escape_letter {e : Char} (h : letterEscape? e = some c) (ne : e ≠ 'u') :
    Reads escape (e :: rest) c rest := by
  refine ⟨Nat.lt_succ_self _, ?_⟩
  rw [escape]
  · rw [h]
    rfl
  · exact ne

theorem reads_escape_digits (h : c.toNat < 0x20) :
    Reads escape ('u' :: '0' :: '0' :: hexDigit (c.toNat / 16) :: hexDigit (c.toNat % 16) :: rest)
      c rest := by
  have zero : hexValue? '0' = some 0 := by decide
  have high := hexValue?_hexDigit (c.toNat / 16) (by omega)
  have low := hexValue?_hexDigit (c.toNat % 16) (by omega)
  have unit : ((0 * 16 + 0) * 16 + c.toNat / 16) * 16 + c.toNat % 16 = c.toNat := by omega
  have digits : Reads hexUnit
      ('0' :: '0' :: hexDigit (c.toNat / 16) :: hexDigit (c.toNat % 16) :: rest) c.toNat rest := by
    refine ⟨by simp only [List.length_cons]; omega, ?_⟩
    simp only [hexUnit, zero, high, low, unit]
  obtain ⟨shorter, read⟩ := digits
  have trailing : isTrailing c.toNat = false := by
    simp only [isTrailing, Bool.and_eq_false_iff, decide_eq_false_iff_not]
    omega
  have leading : isLeading c.toNat = false := by
    simp only [isLeading, Bool.and_eq_false_iff, decide_eq_false_iff_not]
    omega
  refine ⟨Nat.lt_succ_of_lt shorter, ?_⟩
  rw [escape]
  show (hexUnit _ >>= _) = _
  rw [read]
  show (if isTrailing c.toNat = true then _ else _) = _
  rw [trailing, if_neg Bool.false_ne_true, leading, if_neg Bool.false_ne_true]
  simp only [Parsed.map, Parsed.past, Parsed.within, Char.ofNat_toNat]
  rfl

theorem reads_characters_quote : Reads characters ('"' :: rest) [] rest := by
  refine ⟨Nat.lt_succ_self _, ?_⟩
  rw [characters]
  rfl

theorem reads_characters_escape (first : Reads escape cs c mid)
    (others : Reads characters mid s rest) : Reads characters ('\\' :: cs) (c :: s) rest := by
  obtain ⟨shorter, first⟩ := first
  obtain ⟨shorter', others⟩ := others
  refine ⟨Nat.lt_succ_of_lt (Nat.lt_trans shorter' shorter), ?_⟩
  rw [characters, first]
  show (characters mid >>= _) = _
  rw [others]
  rfl

theorem reads_characters_plain (quote : c ≠ '"') (backslash : c ≠ '\\') (solid : ¬c.toNat < 0x20)
    (others : Reads characters cs s rest) : Reads characters (c :: cs) (c :: s) rest := by
  obtain ⟨shorter, others⟩ := others
  refine ⟨Nat.lt_succ_of_lt shorter, ?_⟩
  rw [characters]
  · rw [if_neg solid, others]
    rfl
  · exact quote
  · exact backslash

theorem reads_characters (s rest : List Char) :
    Reads characters (s.flatMap encodeChar ++ '"' :: rest) s rest := by
  induction s with
  | nil => exact reads_characters_quote
  | cons c s ih =>
    rw [List.flatMap_cons, List.append_assoc, encodeChar]
    rcases escaped : shortEscape? c with _ | e
    · obtain ⟨quote, backslash⟩ := ne_of_shortEscape?_eq_none escaped
      by_cases control : c.toNat < 0x20
      · rw [if_pos control]
        exact reads_characters_escape (reads_escape_digits control) ih
      · rw [if_neg control]
        exact reads_characters_plain quote backslash control ih
    · obtain ⟨letter, ne⟩ := letterEscape?_of_shortEscape? escaped
      exact reads_characters_escape (reads_escape_letter letter ne) ih

theorem reads_string (s : String) (rest : List Char) :
    Reads string (s.toList.flatMap encodeChar ++ '"' :: rest) s rest := by
  obtain ⟨shorter, read⟩ := reads_characters s.toList rest
  refine ⟨shorter, ?_⟩
  rw [string, read]
  show Except.ok (Parsed.mk (String.ofList s.toList) rest shorter) = _
  rw [String.ofList_toList]

theorem encode_append (s : String) (rest : List Char) :
    encode s ++ rest = '"' :: (s.toList.flatMap encodeChar ++ '"' :: rest) := by
  simp [encode]

theorem reads_key (s : String) (rest : List Char) : Reads key (encode s ++ rest) s rest := by
  obtain ⟨shorter, read⟩ := reads_string s rest
  rw [encode_append]
  refine ⟨Nat.lt_succ_of_lt shorter, ?_⟩
  show (string _ >>= _) = _
  rw [read]
  rfl

theorem reads_text (s : String) (rest : List Char) : Reads text (encode s ++ rest) s rest := by
  obtain ⟨shorter, read⟩ := reads_string s rest
  rw [encode_append, text, reads_afterBlanks, skipBlanks_cons (by decide)]
  refine ⟨Nat.lt_succ_of_lt shorter, ?_⟩
  show (string _ >>= _) = _
  rw [read]
  rfl

theorem reads_optionalText (label : Option String) (rest : List Char) :
    Reads optionalText (label.elim Layout.null encode ++ rest) label rest := by
  rw [optionalText, reads_afterBlanks]
  cases label with
  | none =>
    rw [Option.elim_none, Layout.null, List.cons_append, skipBlanks_cons (by decide)]
    exact ⟨Nat.lt_add_of_pos_right (Nat.succ_pos 3), rfl⟩
  | some s =>
    have read := reads_text s rest
    rw [Option.elim_some]
    rw [encode_append] at read ⊢
    rw [skipBlanks_cons (by decide)]
    obtain ⟨shorter, read⟩ := read
    refine ⟨shorter, ?_⟩
    show (text _ >>= _) = _
    rw [read]
    rfl

end ProcessNet.Json
