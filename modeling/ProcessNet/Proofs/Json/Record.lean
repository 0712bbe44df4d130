import ProcessNet.Json.Record
import ProcessNet.Proofs.Json.Strings

/-!
Records as they are written and read. The members of a written object are read one by one, each into
the draft that the one before has left; a record is read back when every key is one of its fields, not
yet read, with a value that the reader of the field reads back, and the last draft is complete.
-/

namespace ProcessNet.Json

open Layout (inside member encode bracketed_eq)

variable {α β δ : Type} {cs mid rest : List Char} {c : Char}

theorem reads_mark (solid : isBlank c = false) : Reads (mark c) (c :: cs) () cs := by
  refine ⟨Nat.lt_succ_self _, ?_⟩
  rw [mark]
  split
  · next none => cases (skipBlanks_cons solid).symm.trans none
  · next d more found =>
    cases (skipBlanks_cons solid).symm.trans found
    exact if_pos rfl

theorem reads_space {reader : Reader β} {b : β} (h : Reads (afterBlanks reader) cs b rest) :
    Reads (afterBlanks reader) (' ' :: cs) b rest := by
  rw [reads_afterBlanks] at h ⊢
  rwa [skipBlanks_blank (by decide)]

theorem starts_member (name : String) (value : List Char) : Starts '\x7d' (member name value) :=
  ⟨'"', _, rfl, by decide, by decide⟩

namespace Record

variable (r : Record δ α)

inductive Fills : δ → List (String × List Char) → δ → Prop
  | nil (d : δ) : Fills d [] d
  | cons {d next last : δ} {name : String} {value : List Char}
      {others : List (String × List Char)} {field : Field δ} :
      r.fields.find? (·.key = name) = some field → field.isRead d = false →
        (∀ rest, Follows rest → Reads (field.read d) (' ' :: (value ++ rest)) next rest) →
          Fills next others last → Fills d ((name, value) :: others) last

variable {r} {d next last : δ} {name : String} {value : List Char}
  {members : List (String × List Char)}

theorem Fills.field {get : δ → Option β} {set : δ → β → δ} {reader : Reader β} {b : β}
    (found : r.fields.find? (·.key = name) = some (.of name get set (afterBlanks reader)))
    (unread : get d = none)
    (reads : ∀ rest, Follows rest → Reads (afterBlanks reader) (value ++ rest) b rest)
    (others : Fills r (set d b) members last) : Fills r d ((name, value) :: members) last := by
  refine .cons found (by simp [Field.of, unread]) (fun rest follows => ?_) others
  obtain ⟨shorter, read⟩ := reads_space (reads rest follows)
  refine ⟨shorter, ?_⟩
  show (afterBlanks reader _ >>= _) = _
  rw [read]
  rfl

theorem reads_value {field : Field δ} (found : r.fields.find? (·.key = name) = some field)
    (unread : field.isRead d = false) (reads : Reads (field.read d) cs next rest) :
    Reads (r.value name d) (':' :: cs) next rest := by
  have colon : Reads (mark ':') (':' :: cs) () cs := reads_mark (by decide)
  obtain ⟨shorter, marked⟩ := colon
  obtain ⟨shorter', read⟩ := reads
  refine ⟨Nat.lt_trans shorter' shorter, ?_⟩
  rw [value, found]
  dsimp only
  rw [if_neg (by simp [unread]), marked]
  show (field.read d cs >>= _) = _
  rw [read]
  rfl

theorem reads_members_close {first : Bool} {a : α} {shorter : rest.length < cs.length}
    (turned : turn '\x7d' first cs = .ok (.close rest shorter)) (finish : r.finish d = some a) :
    Reads (r.members first d) cs a rest := by
  refine ⟨shorter, ?_⟩
  rw [Record.members, turned]
  show r.close d rest shorter = _
  rw [close, finish]

theorem reads_members_item {first : Bool} {a : α} {start after : List Char}
    {le : start.length ≤ cs.length} (turned : turn '\x7d' first cs = .ok (.item start le))
    (named : Reads key start name mid) (one : Reads (r.value name d) mid next after)
    (others : Reads (r.members false next) after a rest) :
    Reads (r.members first d) cs a rest := by
  obtain ⟨shorter, named⟩ := named
  obtain ⟨shorter', one⟩ := one
  obtain ⟨shorter'', others⟩ := others
  have bound : rest.length < cs.length := by omega
  refine ⟨bound, ?_⟩
  rw [Record.members, turned]
  show (key start >>= _) = _
  rw [named]
  show (r.value name d mid >>= _) = _
  rw [one]
  show (r.members false next after >>= _) = _
  rw [others]
  rfl

theorem reads_members {level : ℕ} {first : Bool} {a : α} (fills : Fills r d members last)
    (finish : r.finish last = some a) :
    Reads (r.members first d)
      (inside '\x7d' level first (members.map fun m => member m.1 m.2) ++ rest) a rest := by
  induction fills generalizing first with
  | nil d =>
    obtain ⟨shorter, turned⟩ := turn_inside_nil (show isBlank '\x7d' = false by decide)
    exact reads_members_close turned finish
  | @cons d next last name value others field found unread reads _ ih =>
    obtain ⟨le, turned⟩ := turn_inside_cons (show ',' ≠ '\x7d' by decide) (starts_member name value)
    refine reads_members_item turned ?_ (reads_value found unread (reads _ follows_inside)) (ih finish)
    rw [member, List.append_assoc]
    exact reads_key name _

theorem reads_object {level : ℕ} {a : α} (fills : Fills r r.blank members last)
    (finish : r.finish last = some a) (rest : List Char) :
    Reads r.reader (Layout.object level members ++ rest) a rest := by
  rw [Layout.object, bracketed_eq, reader, reads_afterBlanks, List.cons_append,
    skipBlanks_cons (by decide)]
  have read : Reads (r.members true r.blank) (inside '\x7d' level true
      (members.map fun m => member m.1 m.2) ++ rest) a rest := reads_members fills finish
  obtain ⟨shorter, read⟩ := read
  refine ⟨Nat.lt_succ_of_lt shorter, ?_⟩
  show (r.members true r.blank _ >>= _) = _
  rw [read]
  rfl

end Record

end ProcessNet.Json
