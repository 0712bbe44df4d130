import ProcessNet.Proofs.Name.Fresh
import ProcessNet.Proofs.Net.Growth

/-!
Elements added one after the other under fresh names. Each addition takes the names of its kind that the
net has by then, those of the earlier additions among them, and appends one entry. So the net keeps all
entries it had, in their places and with their values; what is new are the additions in their order, under
names that are different from one another and from all that were there.
-/

namespace ProcessNet

/-- An element to be added, its name derived from a wanted one. -/
inductive Addition
  | place (base : String)
  | silent (base : String)
  | copy (x : Variable)

namespace Addition

def kind : Addition → ElementKind
  | place _ => .place
  | silent _ => .transition
  | copy _ => .variable

def base : Addition → String
  | place base => base
  | silent base => base
  | copy x => x.name

/-- Answers with the name that the element has been given. -/
def grow : Addition → Growth String
  | place base => return (← Growth.freshPlace base).name
  | silent base => return (← Growth.freshSilent base).name
  | copy x => Growth.freshVariable x

def place? : Addition × String → Option (PlaceId × Place)
  | (place _, name) => some (⟨name⟩, .blank ⟨name⟩)
  | _ => none

def transition? : Addition × String → Option (TransitionId × Transition)
  | (silent _, name) => some (⟨name⟩, .silent ⟨name⟩)
  | _ => none

def namedVariable? : Addition × String → Option (String × Variable)
  | (copy x, name) => some (name, { x with name := name })
  | _ => none

/-- The names wanted for one kind of element. -/
def bases (kind : ElementKind) (additions : List Addition) : List String :=
  (additions.filter (·.kind = kind)).map base

/-- The names given to one kind of element. -/
def names (kind : ElementKind) (made : List (Addition × String)) : List String :=
  (made.filter (·.1.kind = kind)).map Prod.snd

theorem bases_cons (kind : ElementKind) (a : Addition) (rest : List Addition) :
    bases kind (a :: rest) = if a.kind = kind then a.base :: bases kind rest else bases kind rest := by
  by_cases h : a.kind = kind <;> simp [bases, h]

theorem names_cons (kind : ElementKind) (e : Addition × String) (rest : List (Addition × String)) :
    names kind (e :: rest) =
      if e.1.kind = kind then e.2 :: names kind rest else names kind rest := by
  by_cases h : e.1.kind = kind <;> simp [names, h]

theorem names_eq_map {κ β : Type} {f : Addition × String → Option (κ × β)} {g : κ → String}
    {kind : ElementKind}
    (h : ∀ e, (f e).map (fun x => g x.1) = if e.1.kind = kind then some e.2 else none)
    (made : List (Addition × String)) :
    names kind made = (made.filterMap f).map fun x => g x.1 := by
  induction made with
  | nil => rfl
  | cons e rest ih =>
    have first := h e
    rw [names_cons, ih, List.filterMap_cons]
    cases he : f e with
    | none =>
      rw [he] at first
      by_cases same : e.1.kind = kind
      · rw [if_pos same] at first
        cases first
      · rw [if_neg same]
    | some x =>
      rw [he] at first
      by_cases same : e.1.kind = kind
      · rw [if_pos same] at first ⊢
        exact congrArg (· :: _) (Option.some.inj first).symm
      · rw [if_neg same] at first
        cases first

end Addition

namespace Net

def names (net : Net) : ElementKind → List String
  | .place => net.places.keys.map PlaceId.name
  | .transition => net.transitions.keys.map TransitionId.name
  | .variable => net.vars.keys

/-- The later net has what the net had, and after it what was added, in this order. -/
structure Gains (net : Net) (made : List (Addition × String)) (net' : Net) : Prop where
  places : net'.places.entries = net.places.entries ++ made.filterMap Addition.place?
  transitions : net'.transitions.entries =
    net.transitions.entries ++ made.filterMap Addition.transition?
  vars : net'.vars.entries = net.vars.entries ++ made.filterMap Addition.namedVariable?

namespace Gains

variable {net net₁ net₂ : Net} {made later : List (Addition × String)}

theorem refl (net : Net) : net.Gains [] net :=
  ⟨(List.append_nil _).symm, (List.append_nil _).symm, (List.append_nil _).symm⟩

theorem trans (h : net.Gains made net₁) (h' : net₁.Gains later net₂) :
    net.Gains (made ++ later) net₂ where
  places := by rw [h'.places, h.places, List.filterMap_append, List.append_assoc]
  transitions := by rw [h'.transitions, h.transitions, List.filterMap_append, List.append_assoc]
  vars := by rw [h'.vars, h.vars, List.filterMap_append, List.append_assoc]

theorem names_eq (h : net.Gains made net₁) (kind : ElementKind) :
    net₁.names kind = net.names kind ++ Addition.names kind made := by
  cases kind with
  | place =>
    rw [Addition.names_eq_map (f := Addition.place?) (g := PlaceId.name)]
    · simp [names, OrderedMap.keys, h.places]
    · rintro ⟨_ | _ | _, _⟩ <;> rfl
  | transition =>
    rw [Addition.names_eq_map (f := Addition.transition?) (g := TransitionId.name)]
    · simp [names, OrderedMap.keys, h.transitions]
    · rintro ⟨_ | _ | _, _⟩ <;> rfl
  | «variable» =>
    rw [Addition.names_eq_map (f := Addition.namedVariable?) (g := id)]
    · simp [names, OrderedMap.keys, h.vars]
    · rintro ⟨_ | _ | _, _⟩ <;> rfl

end Gains

end Net

namespace Growth

open Net (Gains)

theorem run_grow (a : Addition) (net : Net) : ∃ net',
    a.grow.run net = (Name.fresh (net.names a.kind) a.base, net') ∧
      net.Gains [(a, Name.fresh (net.names a.kind) a.base)] net' := by
  cases a with
  | place base =>
    exact ⟨_, rfl, OrderedMap.entries_insert_of_not_mem (net.freshPlaceId_not_mem base),
      (List.append_nil _).symm, (List.append_nil _).symm⟩
  | silent base =>
    exact ⟨_, rfl, (List.append_nil _).symm,
      OrderedMap.entries_insert_of_not_mem (net.freshTransitionId_not_mem base),
      (List.append_nil _).symm⟩
  | copy x =>
    exact ⟨_, rfl, (List.append_nil _).symm, (List.append_nil _).symm,
      OrderedMap.entries_insert_of_not_mem (Name.fresh_not_mem _ _)⟩

theorem run_mapM_cons (a : Addition) (rest : List Addition) (net : Net) :
    ((a :: rest).mapM Addition.grow).run net =
      ((a.grow.run net).1 :: ((rest.mapM Addition.grow).run (a.grow.run net).2).1,
        ((rest.mapM Addition.grow).run (a.grow.run net).2).2) := by
  rw [List.mapM_cons]
  rfl

theorem run_mapM_grow (additions : List Addition) (net : Net) : ∃ given net',
    (additions.mapM Addition.grow).run net = (given, net') ∧ given.length = additions.length ∧
      net.Gains (additions.zip given) net' ∧ ∀ kind, Addition.names kind (additions.zip given) =
        Name.freshInTurn (net.names kind) (Addition.bases kind additions) := by
  induction additions generalizing net with
  | nil => exact ⟨[], net, rfl, rfl, .refl net, fun _ => rfl⟩
  | cons a rest ih =>
    obtain ⟨net₁, first, gains⟩ := run_grow a net
    obtain ⟨given, net', later, length, gains', names⟩ := ih net₁
    refine ⟨Name.fresh (net.names a.kind) a.base :: given, net', ?_, congrArg (· + 1) length,
      gains.trans gains', fun kind => ?_⟩
    · rw [run_mapM_cons, first, later]
    · rw [List.zip_cons_cons, Addition.names_cons, Addition.bases_cons, names kind,
        gains.names_eq kind, Addition.names_cons]
      by_cases same : a.kind = kind
      · subst same
        rw [if_pos rfl, if_pos rfl, if_pos rfl]
        rfl
      · rw [if_neg same, if_neg same, if_neg same]
        exact congrArg₂ _ (List.append_nil _) rfl

/-- A fresh name is the wanted one with the least number of apostrophes that makes it free, which is at
most the number of taken names. Elements that are added to a net one after the other, of whatever kinds
and from whatever wanted names, are appended to what the net has; for each kind their names are made fresh
in turn, and so they are different from one another and from all names of that kind in the net. -/
theorem fresh_names_apart :
    (∀ (taken : List String) (base : String), ∃ k, Name.fresh taken base = Name.primed base k ∧
      (∀ j < k, Name.primed base j ∈ taken) ∧ Name.primed base k ∉ taken ∧
      k ≤ taken.toFinset.card) ∧
    ∀ (net : Net) (additions : List Addition), ∃ given net',
      (additions.mapM Addition.grow).run net = (given, net') ∧ given.length = additions.length ∧
      net.Gains (additions.zip given) net' ∧
      ∀ kind, Addition.names kind (additions.zip given) =
          Name.freshInTurn (net.names kind) (Addition.bases kind additions) ∧
        (Addition.names kind (additions.zip given)).Nodup ∧
        ∀ name ∈ Addition.names kind (additions.zip given), name ∉ net.names kind := by
  refine ⟨fun taken base => ?_, fun net additions => ?_⟩
  · obtain ⟨k, found, passed, free⟩ := Name.exists_fresh_eq_primed taken base
    exact ⟨k, found, passed, free, Name.le_card_of_passed passed⟩
  · obtain ⟨given, net', run, length, gains, names⟩ := run_mapM_grow additions net
    refine ⟨given, net', run, length, gains, fun kind => ⟨names kind, ?_, fun name given => ?_⟩⟩
    · rw [names kind]
      exact Name.nodup_freshInTurn _ _
    · rw [names kind] at given
      exact Name.not_mem_of_mem_freshInTurn given

/-- Wanted names that end in apostrophes themselves, one of them equal to a name given earlier. -/
example : Name.freshInTurn ["a", "a'"] ["a", "a''", "b"] = ["a''", "a'''", "b"] := by decide +kernel

end Growth

end ProcessNet
