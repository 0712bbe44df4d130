import ProcessNet.Collections.OrderedMap

/-!
Finite sets that remember the order of insertion. The arcs of a transition and the sources and sinks
of a net are such sets: order shows in every listing, repetition never does. Inserting a known
element changes nothing, so an element that is taken out and put back moves to the end.
-/

namespace ProcessNet

structure OrderedSet (α : Type) where
  toList : List α
  nodup : toList.Nodup

namespace OrderedSet

variable {α β : Type}

@[ext] theorem ext {s t : OrderedSet α} (h : s.toList = t.toList) : s = t := by
  cases s; cases t; cases h; rfl

def empty : OrderedSet α := ⟨[], List.nodup_nil⟩

instance : EmptyCollection (OrderedSet α) := ⟨empty⟩

instance : Inhabited (OrderedSet α) := ⟨empty⟩

instance : Membership α (OrderedSet α) := ⟨fun s a => a ∈ s.toList⟩

theorem mem_def {a : α} {s : OrderedSet α} : a ∈ s ↔ a ∈ s.toList := Iff.rfl

def size (s : OrderedSet α) : Nat := s.toList.length

def isEmpty (s : OrderedSet α) : Bool := s.toList.isEmpty

variable [DecidableEq α] [DecidableEq β]

instance (a : α) (s : OrderedSet α) : Decidable (a ∈ s) :=
  inferInstanceAs (Decidable (a ∈ s.toList))

def insert (s : OrderedSet α) (a : α) : OrderedSet α :=
  if h : a ∈ s then s
  else ⟨s.toList ++ [a], List.nodup_append.2 ⟨s.nodup, by simp, by
    intro b hb c hc; simp at hc; subst hc; exact fun eq => h (mem_def.2 (eq ▸ hb))⟩⟩

theorem mem_insert {s : OrderedSet α} {a b : α} : b ∈ s.insert a ↔ b ∈ s ∨ b = a := by
  unfold insert
  split
  · next h => exact ⟨Or.inl, fun o => o.elim id (· ▸ h)⟩
  · simp [mem_def]

theorem toList_insert_of_not_mem {s : OrderedSet α} {a : α} (h : a ∉ s) :
    (s.insert a).toList = s.toList ++ [a] := by
  rw [insert, dif_neg h]

def erase (s : OrderedSet α) (a : α) : OrderedSet α where
  toList := s.toList.filter (· ≠ a)
  nodup := s.nodup.sublist List.filter_sublist

theorem mem_erase {s : OrderedSet α} {a b : α} : b ∈ s.erase a ↔ b ∈ s ∧ b ≠ a := by
  simp [erase, mem_def]

def insertAll (s : OrderedSet α) (as : List α) : OrderedSet α := as.foldl insert s

theorem mem_insertAll {s : OrderedSet α} {as : List α} {b : α} :
    b ∈ s.insertAll as ↔ b ∈ s ∨ b ∈ as := by
  induction as generalizing s with
  | nil => simp [insertAll]
  | cons a rest ih =>
    have : s.insertAll (a :: rest) = (s.insert a).insertAll rest := rfl
    rw [this, ih, mem_insert, List.mem_cons, or_assoc]

def ofList (as : List α) : OrderedSet α := empty.insertAll as

theorem mem_ofList {as : List α} {b : α} : b ∈ ofList as ↔ b ∈ as := by
  rw [ofList, mem_insertAll]
  simp [mem_def, empty]

theorem toList_insertAll {s : OrderedSet α} {as : List α} (h : (s.toList ++ as).Nodup) :
    (s.insertAll as).toList = s.toList ++ as := by
  induction as generalizing s with
  | nil => simp [insertAll]
  | cons a rest ih =>
    have absent : a ∉ s := fun mem => (List.nodup_append.1 h).2.2 a mem a List.mem_cons_self rfl
    have step := toList_insert_of_not_mem absent
    have : s.insertAll (a :: rest) = (s.insert a).insertAll rest := rfl
    rw [this, ih (by rw [step]; simpa using h), step, List.append_assoc, List.singleton_append]

theorem toList_ofList {as : List α} (h : as.Nodup) : (ofList as).toList = as := by
  rw [ofList, toList_insertAll (by simpa [empty] using h)]
  rfl

/-- Elements with one image fall together. -/
def map (f : α → β) (s : OrderedSet α) : OrderedSet β := ofList (s.toList.map f)

omit [DecidableEq α] in
theorem mem_map {f : α → β} {s : OrderedSet α} {b : β} : b ∈ s.map f ↔ ∃ a ∈ s, f a = b := by
  rw [map, mem_ofList, List.mem_map]
  rfl

def diff (s t : OrderedSet α) : OrderedSet α where
  toList := s.toList.filter (· ∉ t)
  nodup := s.nodup.sublist List.filter_sublist

theorem mem_diff {s t : OrderedSet α} {b : α} : b ∈ s.diff t ↔ b ∈ s ∧ b ∉ t := by
  simp [diff, mem_def]

end OrderedSet

end ProcessNet
