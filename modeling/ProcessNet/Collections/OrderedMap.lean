/-!
Finite maps that remember the order in which their keys first arrived. The order is part of what an
answer shows, so it belongs to the type and two maps are equal exactly when their entry lists are.
A key occurs once: writing to a known key replaces the value where it stands, writing to a new key
appends. `get?` is the view through which the other operations are described.
-/

namespace ProcessNet

structure OrderedMap (κ β : Type) where
  entries : List (κ × β)
  nodup_keys : (entries.map Prod.fst).Nodup

namespace OrderedMap

variable {κ β γ : Type}

@[ext] theorem ext {m n : OrderedMap κ β} (h : m.entries = n.entries) : m = n := by
  cases m; cases n; cases h; rfl

def keys (m : OrderedMap κ β) : List κ := m.entries.map Prod.fst

def values (m : OrderedMap κ β) : List β := m.entries.map Prod.snd

def size (m : OrderedMap κ β) : Nat := m.entries.length

def isEmpty (m : OrderedMap κ β) : Bool := m.entries.isEmpty

def empty : OrderedMap κ β := ⟨[], List.nodup_nil⟩

instance : EmptyCollection (OrderedMap κ β) := ⟨empty⟩

instance : Inhabited (OrderedMap κ β) := ⟨empty⟩

@[simp] theorem keys_empty : (∅ : OrderedMap κ β).keys = [] := rfl

theorem length_keys (m : OrderedMap κ β) : m.keys.length = m.size := by
  simp [keys, size]

/-- Values are changed in place, each seen together with its key. -/
def mapValues (f : κ → β → γ) (m : OrderedMap κ β) : OrderedMap κ γ where
  entries := m.entries.map fun e => (e.1, f e.1 e.2)
  nodup_keys := by simpa [Function.comp_def] using m.nodup_keys

theorem keys_mapValues (f : κ → β → γ) (m : OrderedMap κ β) :
    (m.mapValues f).keys = m.keys := by
  simp [mapValues, keys, Function.comp_def]

theorem size_mapValues (f : κ → β → γ) (m : OrderedMap κ β) :
    (m.mapValues f).size = m.size := by
  simp [mapValues, size]

theorem values_mapValues (f : κ → β → γ) (m : OrderedMap κ β) :
    (m.mapValues f).values = m.entries.map fun e => f e.1 e.2 := by
  simp [mapValues, values, Function.comp_def]

theorem mapValues_congr {f g : κ → β → γ} {m : OrderedMap κ β}
    (h : ∀ e ∈ m.entries, f e.1 e.2 = g e.1 e.2) : m.mapValues f = m.mapValues g :=
  ext (List.map_congr_left fun e he => by rw [h e he])

theorem mapValues_self {f : κ → β → β} {m : OrderedMap κ β}
    (h : ∀ e ∈ m.entries, f e.1 e.2 = e.2) : m.mapValues f = m := by
  refine ext ((List.map_congr_left fun e he => ?_).trans (List.map_id _))
  rw [h e he, id_eq]

def filter (keep : κ → β → Bool) (m : OrderedMap κ β) : OrderedMap κ β where
  entries := m.entries.filter fun e => keep e.1 e.2
  nodup_keys := m.nodup_keys.sublist (List.filter_sublist.map _)

theorem eq_of_mem_entries {es : List (κ × β)} (nodup : (es.map Prod.fst).Nodup) {k : κ} {v w : β}
    (hv : (k, v) ∈ es) (hw : (k, w) ∈ es) : v = w := by
  induction es with
  | nil => cases hv
  | cons e rest ih =>
    simp only [List.map_cons, List.nodup_cons] at nodup
    have absent {u : β} (hu : (k, u) ∈ rest) : e.1 ≠ k :=
      fun eq => nodup.1 (eq ▸ List.mem_map_of_mem (f := Prod.fst) hu)
    rcases List.mem_cons.1 hv with hv | hv <;> rcases List.mem_cons.1 hw with hw | hw
    · exact (Prod.mk.inj (hv.trans hw.symm)).2
    · exact absurd (congrArg Prod.fst hv).symm (absent hw)
    · exact absurd (congrArg Prod.fst hw).symm (absent hv)
    · exact ih nodup.2 hv hw

variable [DecidableEq κ]

def get? (m : OrderedMap κ β) (k : κ) : Option β :=
  (m.entries.find? fun e => e.1 = k).map Prod.snd

def contains (m : OrderedMap κ β) (k : κ) : Bool := decide (k ∈ m.keys)

theorem get?_eq_some {m : OrderedMap κ β} {k : κ} {v : β} :
    m.get? k = some v ↔ (k, v) ∈ m.entries := by
  constructor
  · intro h
    obtain ⟨⟨k', v'⟩, he, rfl⟩ := Option.map_eq_some_iff.1 h
    have hk : k' = k := by simpa using List.find?_some he
    exact hk ▸ List.mem_of_find?_eq_some he
  · intro h
    rcases he : m.entries.find? (fun e => e.1 = k) with _ | ⟨k', v'⟩
    · simpa using List.find?_eq_none.1 he _ h
    · have hk : k' = k := by simpa using List.find?_some he
      subst hk
      rw [get?, he, Option.map_some,
        eq_of_mem_entries m.nodup_keys (List.mem_of_find?_eq_some he) h]

theorem mem_keys {m : OrderedMap κ β} {k : κ} : k ∈ m.keys ↔ ∃ v, m.get? k = some v := by
  simp [keys, get?_eq_some]

theorem mem_keys_of_get? {m : OrderedMap κ β} {k : κ} {v : β} (h : m.get? k = some v) :
    k ∈ m.keys :=
  mem_keys.2 ⟨v, h⟩

theorem get?_eq_none {m : OrderedMap κ β} {k : κ} : m.get? k = none ↔ k ∉ m.keys := by
  rw [mem_keys, Option.eq_none_iff_forall_ne_some, not_exists]

theorem mem_values {m : OrderedMap κ β} {v : β} : v ∈ m.values ↔ ∃ k, m.get? k = some v := by
  simp [values, get?_eq_some]

theorem contains_eq_true {m : OrderedMap κ β} {k : κ} : m.contains k = true ↔ k ∈ m.keys := by
  simp [contains]

theorem get?_mapValues (f : κ → β → γ) (m : OrderedMap κ β) (k : κ) :
    (m.mapValues f).get? k = (m.get? k).map (f k) := by
  ext v
  simp only [get?_eq_some, mapValues, List.mem_map, Option.map_eq_some_iff, Prod.mk.injEq,
    Prod.exists]
  constructor
  · rintro ⟨_, w, h, rfl, rfl⟩
    exact ⟨w, h, rfl⟩
  · rintro ⟨w, h, rfl⟩
    exact ⟨k, w, h, rfl, rfl⟩

theorem get?_filter (keep : κ → β → Bool) (m : OrderedMap κ β) (k : κ) :
    (m.filter keep).get? k = (m.get? k).filter (keep k) := by
  ext v
  simp [get?_eq_some, filter]

theorem mem_keys_filter {keep : κ → β → Bool} {m : OrderedMap κ β} {k : κ} :
    k ∈ (m.filter keep).keys ↔ ∃ v, m.get? k = some v ∧ keep k v = true := by
  simp only [mem_keys, get?_filter, Option.filter_eq_some_iff]

/-- Replaces the value of the first entry with this key, or appends a new entry. -/
def insertEntry (k : κ) (v : β) : List (κ × β) → List (κ × β)
  | [] => [(k, v)]
  | e :: rest => if e.1 = k then (k, v) :: rest else e :: insertEntry k v rest

theorem keys_insertEntry (k : κ) (v : β) (es : List (κ × β)) :
    (insertEntry k v es).map Prod.fst =
      if k ∈ es.map Prod.fst then es.map Prod.fst else es.map Prod.fst ++ [k] := by
  induction es with
  | nil => simp [insertEntry]
  | cons e rest ih =>
    by_cases h : e.1 = k
    · simp [insertEntry, h]
    · have h' : ¬k = e.1 := fun eq => h eq.symm
      simp only [insertEntry, if_neg h, List.map_cons, ih, List.mem_cons, h', false_or]
      split <;> simp

def insert (m : OrderedMap κ β) (k : κ) (v : β) : OrderedMap κ β where
  entries := insertEntry k v m.entries
  nodup_keys := by
    rw [keys_insertEntry]
    split
    · exact m.nodup_keys
    · next h => exact List.nodup_append.2 ⟨m.nodup_keys, by simp, by
        intro a ha b hb; simp at hb; subst hb; exact fun eq => h (eq ▸ ha)⟩

theorem keys_insert (m : OrderedMap κ β) (k : κ) (v : β) :
    (m.insert k v).keys = if k ∈ m.keys then m.keys else m.keys ++ [k] :=
  keys_insertEntry k v m.entries

theorem insertEntry_of_not_mem {k : κ} {v : β} {es : List (κ × β)}
    (h : k ∉ es.map Prod.fst) : insertEntry k v es = es ++ [(k, v)] := by
  induction es with
  | nil => rfl
  | cons e rest ih =>
    simp only [List.map_cons, List.mem_cons, not_or] at h
    rw [insertEntry, if_neg (Ne.symm h.1), ih h.2, List.cons_append]

theorem entries_insert_of_not_mem {m : OrderedMap κ β} {k : κ} {v : β} (h : k ∉ m.keys) :
    (m.insert k v).entries = m.entries ++ [(k, v)] :=
  insertEntry_of_not_mem h

theorem mem_insertEntry {k k' : κ} {v w : β} {es : List (κ × β)}
    (nodup : (es.map Prod.fst).Nodup) :
    (k', w) ∈ insertEntry k v es ↔ if k' = k then w = v else (k', w) ∈ es := by
  induction es with
  | nil => by_cases h : k' = k <;> simp [insertEntry, h]
  | cons e rest ih =>
    simp only [List.map_cons, List.nodup_cons] at nodup
    by_cases he : e.1 = k
    · have absent : (k, w) ∉ rest := fun h =>
        nodup.1 (he ▸ List.mem_map_of_mem (f := Prod.fst) h)
      by_cases h : k' = k
      · subst h; simp [insertEntry, he, absent]
      · have : (k', w) ≠ e := fun eq => h (by rw [← he, ← eq])
        simp [insertEntry, he, h, this]
    · rw [insertEntry, if_neg he, List.mem_cons, ih nodup.2]
      by_cases h : k' = k
      · subst h
        have : (k', w) ≠ e := fun eq => he (by rw [← eq])
        simp [this]
      · simp [h]

theorem get?_insert (m : OrderedMap κ β) (k k' : κ) (v : β) :
    (m.insert k v).get? k' = if k' = k then some v else m.get? k' := by
  ext w
  rw [get?_eq_some, insert, mem_insertEntry m.nodup_keys]
  split
  · simp [eq_comm]
  · exact get?_eq_some.symm

/-- The other entries keep their order. -/
def erase (m : OrderedMap κ β) (k : κ) : OrderedMap κ β := m.filter fun k' _ => k' ≠ k

theorem size_erase_lt {m : OrderedMap κ β} {k : κ} {v : β} (h : m.get? k = some v) :
    (m.erase k).size < m.size := by
  obtain ⟨e, he, -⟩ := Option.map_eq_some_iff.1 h
  have hmem := List.mem_of_find?_eq_some he
  have hkey := List.find?_some he
  simp only [decide_eq_true_eq] at hkey
  refine Nat.lt_of_le_of_ne (List.length_filter_le _ _) fun eq => ?_
  have := List.length_filter_eq_length_iff.1 eq e hmem
  simp [hkey] at this

theorem get?_erase (m : OrderedMap κ β) (k k' : κ) :
    (m.erase k).get? k' = if k' = k then none else m.get? k' := by
  rw [erase, get?_filter]
  by_cases h : k' = k
  · cases m.get? k' <;> simp [h]
  · cases m.get? k' <;> simp [h]

/-- An unknown key leaves the map as it is. -/
def modify (m : OrderedMap κ β) (k : κ) (f : β → β) : OrderedMap κ β :=
  m.mapValues fun k' v => if k' = k then f v else v

theorem get?_modify (m : OrderedMap κ β) (k k' : κ) (f : β → β) :
    (m.modify k f).get? k' = if k' = k then (m.get? k').map f else m.get? k' := by
  rw [modify, get?_mapValues]
  by_cases h : k' = k <;> simp [h]

theorem keys_modify (m : OrderedMap κ β) (k : κ) (f : β → β) :
    (m.modify k f).keys = m.keys :=
  keys_mapValues _ m

theorem size_modify (m : OrderedMap κ β) (k : κ) (f : β → β) :
    (m.modify k f).size = m.size :=
  size_mapValues _ m

/-- Later entries for a key replace the value and keep the first position. -/
def ofList (es : List (κ × β)) : OrderedMap κ β :=
  es.foldl (fun m e => m.insert e.1 e.2) empty

theorem entries_foldl_insert {m : OrderedMap κ β} {es : List (κ × β)}
    (nodup : (m.keys ++ es.map Prod.fst).Nodup) :
    (es.foldl (fun m e => m.insert e.1 e.2) m).entries = m.entries ++ es := by
  induction es generalizing m with
  | nil => simp
  | cons e rest ih =>
    have fresh : e.1 ∉ m.keys := fun mem =>
      (List.nodup_append.1 nodup).2.2 e.1 mem e.1 List.mem_cons_self rfl
    have keys : (m.insert e.1 e.2).keys = m.keys ++ [e.1] := by rw [keys_insert, if_neg fresh]
    rw [List.foldl_cons, ih (by simpa [keys] using nodup), entries_insert_of_not_mem fresh,
      List.append_assoc, List.singleton_append]

/-- With one entry for each key, all entries stay as they are. -/
theorem entries_ofList {es : List (κ × β)} (nodup : (es.map Prod.fst).Nodup) :
    (ofList es).entries = es :=
  entries_foldl_insert nodup

end OrderedMap

end ProcessNet
