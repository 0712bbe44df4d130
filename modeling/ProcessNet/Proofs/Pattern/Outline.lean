import ProcessNet.Proofs.Pattern.Operators

/-!
Patterns without names. An outline holds what a pattern consists of, over any types of elements;
guards and variables are given there by what they become under names. A skeleton joins outlines as it
joins patterns. Outlines that correspond, joined by skeletons that correspond, give outlines that
correspond; in this way the laws of the operators are read off their skeletons, and no name is looked
at.
-/

namespace ProcessNet

structure Outline where
  Place : Type
  Transition : Type
  Variable : Type
  source : Place
  sink : Place
  tokens : Place → ℕ
  visible : Transition → Bool
  activity : Transition → Option String
  guard : Transition → (Variable → String) → Guard
  inputs : Transition → Set Place
  outputs : Transition → Set Place
  declared : Variable → String → ProcessNet.Variable

namespace Outline

structure Iso (a b : Outline) where
  place : a.Place ≃ b.Place
  transition : a.Transition ≃ b.Transition
  var : a.Variable ≃ b.Variable
  source : b.source = place a.source
  sink : b.sink = place a.sink
  tokens : ∀ p, b.tokens (place p) = a.tokens p
  visible : ∀ t, b.visible (transition t) = a.visible t
  activity : ∀ t, b.activity (transition t) = a.activity t
  guard : ∀ t names, b.guard (transition t) names = a.guard t (names ∘ var)
  inputs : ∀ t, b.inputs (transition t) = place '' a.inputs t
  outputs : ∀ t, b.outputs (transition t) = place '' a.outputs t
  declared : ∀ v, b.declared (var v) = a.declared v

namespace Iso

variable {a b c : Outline}

def refl (a : Outline) : a.Iso a where
  place := .refl _
  transition := .refl _
  var := .refl _
  source := rfl
  sink := rfl
  tokens _ := rfl
  visible _ := rfl
  activity _ := rfl
  guard _ _ := rfl
  inputs _ := (Set.image_id _).symm
  outputs _ := (Set.image_id _).symm
  declared _ := rfl

def symm (f : a.Iso b) : b.Iso a where
  place := f.place.symm
  transition := f.transition.symm
  var := f.var.symm
  source := by rw [f.source, Equiv.symm_apply_apply]
  sink := by rw [f.sink, Equiv.symm_apply_apply]
  tokens p := by rw [← f.tokens, Equiv.apply_symm_apply]
  visible t := by rw [← f.visible, Equiv.apply_symm_apply]
  activity t := by rw [← f.activity, Equiv.apply_symm_apply]
  guard t names := by
    have back := f.guard (f.transition.symm t) (names ∘ f.var.symm)
    rw [Equiv.apply_symm_apply, Function.comp_assoc, Equiv.symm_comp_self, Function.comp_id] at back
    exact back.symm
  inputs t := by
    rw [← f.transition.apply_symm_apply t, f.inputs, Equiv.symm_apply_apply,
      Equiv.symm_image_image]
  outputs t := by
    rw [← f.transition.apply_symm_apply t, f.outputs, Equiv.symm_apply_apply,
      Equiv.symm_image_image]
  declared v := by rw [← f.declared, Equiv.apply_symm_apply]

def trans (f : a.Iso b) (g : b.Iso c) : a.Iso c where
  place := f.place.trans g.place
  transition := f.transition.trans g.transition
  var := f.var.trans g.var
  source := by rw [g.source, f.source, Equiv.trans_apply]
  sink := by rw [g.sink, f.sink, Equiv.trans_apply]
  tokens p := by rw [Equiv.trans_apply, g.tokens, f.tokens]
  visible t := by rw [Equiv.trans_apply, g.visible, f.visible]
  activity t := by rw [Equiv.trans_apply, g.activity, f.activity]
  guard t names := by rw [Equiv.trans_apply, g.guard, f.guard, Function.comp_assoc, Equiv.coe_trans]
  inputs t := by
    rw [Equiv.trans_apply, g.inputs, f.inputs, Set.image_image, Equiv.coe_trans]
    rfl
  outputs t := by
    rw [Equiv.trans_apply, g.outputs, f.outputs, Set.image_image, Equiv.coe_trans]
    rfl
  declared v := by rw [Equiv.trans_apply, g.declared, f.declared]

end Iso

end Outline

def Port.map {I I' S S' : Type} (f : I → I') (g : S → S') : Port I S → Port I' S'
  | .entry i => .entry (f i)
  | .exit i => .exit (f i)
  | .spot s => .spot (g s)

theorem Port.map_refl {I S : Type} :
    (Port.map (Equiv.refl I) (Equiv.refl S) : Port I S → Port I S) = id := by
  funext y
  cases y <;> rfl

namespace Skeleton

variable {I I' S S' R R' : Type}

/-- The order of the lists is left open. -/
structure Iso (k : Skeleton I S R) (k' : Skeleton I' S' R') where
  part : I ≃ I'
  spot : S ≃ S'
  route : R ≃ R'
  take : ∀ r, (k'.take (route r)).Perm ((k.take r).map (.map part spot))
  put : ∀ r, (k'.put (route r)).Perm ((k.put r).map (.map part spot))
  source : k'.source = k.source.map part spot
  sink : k'.sink = k.sink.map part spot

def inner (o : I → Outline) (i : I) (p : (o i).Place) : (Σ i, (o i).Place) ⊕ S := .inl ⟨i, p⟩

def joint (o : I → Outline) : Port I S → (Σ i, (o i).Place) ⊕ S
  | .entry i => inner o i (o i).source
  | .exit i => inner o i (o i).sink
  | .spot s => .inr s

/-- The outlines joined as the skeleton says. -/
abbrev glue (k : Skeleton I S R) (o : I → Outline) : Outline where
  Place := (Σ i, (o i).Place) ⊕ S
  Transition := (Σ i, (o i).Transition) ⊕ R
  Variable := Σ i, (o i).Variable
  source := joint o k.source
  sink := joint o k.sink
  tokens := Sum.elim (fun p => (o p.1).tokens p.2) fun _ => 0
  visible := Sum.elim (fun t => (o t.1).visible t.2) fun _ => false
  activity := Sum.elim (fun t => (o t.1).activity t.2) fun _ => none
  guard := Sum.elim (fun t names => (o t.1).guard t.2 fun v => names ⟨t.1, v⟩) fun _ _ => .always
  inputs := Sum.elim (fun t => inner o t.1 '' (o t.1).inputs t.2)
    fun r => joint o '' {y | y ∈ k.take r}
  outputs := Sum.elim (fun t => inner o t.1 '' (o t.1).outputs t.2)
    fun r => joint o '' {y | y ∈ k.put r}
  declared v := (o v.1).declared v.2

namespace Iso

variable {k : Skeleton I S R} {k' : Skeleton I' S' R'}

def refl (k : Skeleton I S R) : k.Iso k where
  part := .refl I
  spot := .refl S
  route := .refl R
  take r := by rw [Port.map_refl, List.map_id, Equiv.refl_apply]
  put r := by rw [Port.map_refl, List.map_id, Equiv.refl_apply]
  source := by rw [Port.map_refl, id]
  sink := by rw [Port.map_refl, id]

variable {o : I → Outline} {o' : I' → Outline}

def placeEquiv (e : k.Iso k') (f : ∀ i, (o i).Iso (o' (e.part i))) :
    (Σ i, (o i).Place) ⊕ S ≃ (Σ i, (o' i).Place) ⊕ S' :=
  .sumCongr (.sigmaCongr e.part fun i => (f i).place) e.spot

variable (e : k.Iso k') (f : ∀ i, (o i).Iso (o' (e.part i)))

theorem joint_map (y : Port I S) :
    joint o' (y.map e.part e.spot) = e.placeEquiv f (joint o y) := by
  cases y with
  | entry i => exact congrArg (inner o' (e.part i)) (f i).source
  | exit i => exact congrArg (inner o' (e.part i)) (f i).sink
  | spot s => rfl

theorem image_inner (i : I) (s : Set (o i).Place) :
    inner o' (e.part i) '' ((f i).place '' s) = e.placeEquiv f '' (inner o i '' s) := by
  rw [Set.image_image, Set.image_image]
  rfl

theorem image_joint {ys : List (Port I S)} {ys' : List (Port I' S')}
    (perm : ys'.Perm (ys.map (.map e.part e.spot))) :
    joint o' '' {y | y ∈ ys'} = e.placeEquiv f '' (joint o '' {y | y ∈ ys}) := by
  ext p
  simp only [Set.mem_image, Set.mem_ofPred_eq, perm.mem_iff, List.mem_map,
    exists_exists_and_eq_and, e.joint_map f]

def glue : (k.glue o).Iso (k'.glue o') where
  place := e.placeEquiv f
  transition := .sumCongr (.sigmaCongr e.part fun i => (f i).transition) e.route
  var := .sigmaCongr e.part fun i => (f i).var
  source := (congrArg (joint o') e.source).trans (e.joint_map f _)
  sink := (congrArg (joint o') e.sink).trans (e.joint_map f _)
  tokens := by
    rintro (⟨i, p⟩ | s)
    · exact (f i).tokens p
    · rfl
  visible := by
    rintro (⟨i, t⟩ | r)
    · exact (f i).visible t
    · rfl
  activity := by
    rintro (⟨i, t⟩ | r)
    · exact (f i).activity t
    · rfl
  guard := by
    rintro (⟨i, t⟩ | r) names
    · exact (f i).guard t _
    · rfl
  inputs := by
    rintro (⟨i, t⟩ | r)
    · exact (congrArg _ ((f i).inputs t)).trans (e.image_inner f i _)
    · exact e.image_joint f (e.take r)
  outputs := by
    rintro (⟨i, t⟩ | r)
    · exact (congrArg _ ((f i).outputs t)).trans (e.image_inner f i _)
    · exact e.image_joint f (e.put r)
  declared v := (f v.1).declared v.2

end Iso

section Symmetries

variable {parts : List I} {all : ∀ i, i ∈ parts} {parts' : List I'} {all' : ∀ i, i ∈ parts'}

def choiceIso (e : I ≃ I') : (choice parts all).Iso (choice parts' all') where
  part := e
  spot := .refl _
  route :=
    { toFun := Gate.pick (fun i => .enter (e i)) fun i => .leave (e i)
      invFun := Gate.pick (fun i => .enter (e.symm i)) fun i => .leave (e.symm i)
      left_inv := by rintro (i | i) <;> simp
      right_inv := by rintro (i | i) <;> simp }
  take := by rintro (i | i) <;> exact .refl _
  put := by rintro (i | i) <;> exact .refl _
  source := rfl
  sink := rfl

def parallelSwap : parallel.Iso parallel where
  part := .boolNot
  spot := .refl _
  route := .refl _
  take := by rintro (_ | _) <;> decide
  put := by rintro (_ | _) <;> decide
  source := rfl
  sink := rfl

def interleavingSwap : interleaving.Iso interleaving where
  part := .boolNot
  spot :=
    { toFun := Turn.pick .source .mutex .sink (fun i => .entry !i) fun i => .exit !i
      invFun := Turn.pick .source .mutex .sink (fun i => .entry !i) fun i => .exit !i
      left_inv := by rintro (_ | _ | _ | i | i) <;> simp
      right_inv := by rintro (_ | _ | _ | i | i) <;> simp }
  route :=
    { toFun := Pass.pick .split .join (fun i => .enter !i) fun i => .leave !i
      invFun := Pass.pick .split .join (fun i => .enter !i) fun i => .leave !i
      left_inv := by rintro (_ | i | i | _) <;> simp
      right_inv := by rintro (_ | i | i | _) <;> simp }
  take := by rintro (_ | (_ | _) | (_ | _) | _) <;> decide
  put := by rintro (_ | (_ | _) | (_ | _) | _) <;> decide
  source := rfl
  sink := rfl

end Symmetries

end Skeleton

namespace Outline

abbrev chain (a b : Outline) : Outline where
  Place := a.Place ⊕ b.Place
  Transition := a.Transition ⊕ Unit ⊕ b.Transition
  Variable := a.Variable ⊕ b.Variable
  source := .inl a.source
  sink := .inr b.sink
  tokens := Sum.elim a.tokens b.tokens
  visible := Sum.elim a.visible (Sum.elim (fun _ => false) b.visible)
  activity := Sum.elim a.activity (Sum.elim (fun _ => none) b.activity)
  guard := Sum.elim (fun t names => a.guard t (names ∘ .inl))
    (Sum.elim (fun _ _ => .always) fun t names => b.guard t (names ∘ .inr))
  inputs := Sum.elim (fun t => Sum.inl '' a.inputs t)
    (Sum.elim (fun _ => {.inl a.sink}) fun t => Sum.inr '' b.inputs t)
  outputs := Sum.elim (fun t => Sum.inl '' a.outputs t)
    (Sum.elim (fun _ => {.inr b.source}) fun t => Sum.inr '' b.outputs t)
  declared := Sum.elim a.declared b.declared

def Iso.chainAssoc (a b c : Outline) : ((a.chain b).chain c).Iso (a.chain (b.chain c)) where
  place := .sumAssoc _ _ _
  transition := (Equiv.sumAssoc _ _ _).trans (.sumCongr (.refl _) (.sumAssoc _ _ _))
  var := .sumAssoc _ _ _
  source := rfl
  sink := rfl
  tokens := by rintro ((_ | _) | _) <;> rfl
  visible := by rintro ((_ | _ | _) | _ | _) <;> rfl
  activity := by rintro ((_ | _ | _) | _ | _) <;> rfl
  guard := by rintro ((_ | _ | _) | _ | _) _ <;> rfl
  inputs := by rintro ((_ | _ | _) | _ | _) <;> simp [Set.image_image]
  outputs := by rintro ((_ | _ | _) | _ | _) <;> simp [Set.image_image]
  declared := by rintro ((_ | _) | _) <;> rfl

section Flat

variable (o : Bool → Outline)

def flatPlace : (Σ i, (o i).Place) ⊕ Empty ≃ (o false).Place ⊕ (o true).Place where
  toFun
    | .inl ⟨false, p⟩ => .inl p
    | .inl ⟨true, p⟩ => .inr p
  invFun := Sum.elim (Skeleton.inner o false) (Skeleton.inner o true)
  left_inv := by rintro (⟨_ | _, _⟩ | ⟨⟨⟩⟩) <;> rfl
  right_inv := by rintro (_ | _) <;> rfl

def flatTransition : (Σ i, (o i).Transition) ⊕ Unit ≃
    (o false).Transition ⊕ Unit ⊕ (o true).Transition where
  toFun
    | .inl ⟨false, t⟩ => .inl t
    | .inl ⟨true, t⟩ => .inr (.inr t)
    | .inr r => .inr (.inl r)
  invFun
    | .inl t => .inl ⟨false, t⟩
    | .inr (.inl r) => .inr r
    | .inr (.inr t) => .inl ⟨true, t⟩
  left_inv := by rintro (⟨_ | _, _⟩ | _) <;> rfl
  right_inv := by rintro (_ | _ | _) <;> rfl

def flatVar : (Σ i, (o i).Variable) ≃ (o false).Variable ⊕ (o true).Variable where
  toFun
    | ⟨false, v⟩ => .inl v
    | ⟨true, v⟩ => .inr v
  invFun := Sum.elim (fun v => ⟨false, v⟩) fun v => ⟨true, v⟩
  left_inv := by rintro ⟨_ | _, _⟩ <;> rfl
  right_inv := by rintro (_ | _) <;> rfl

def Iso.glueSequence : (Skeleton.sequence.glue o).Iso ((o false).chain (o true)) where
  place := flatPlace o
  transition := flatTransition o
  var := flatVar o
  source := rfl
  sink := rfl
  tokens := by rintro (⟨_ | _, _⟩ | ⟨⟨⟩⟩) <;> rfl
  visible := by rintro (⟨_ | _, _⟩ | _) <;> rfl
  activity := by rintro (⟨_ | _, _⟩ | _) <;> rfl
  guard := by rintro (⟨_ | _, _⟩ | _) _ <;> rfl
  inputs := by
    rintro (⟨_ | _, _⟩ | _) <;>
      simp [Set.image_image, flatPlace, flatTransition, Skeleton.inner, Skeleton.joint,
        Skeleton.sequence]
  outputs := by
    rintro (⟨_ | _, _⟩ | _) <;>
      simp [Set.image_image, flatPlace, flatTransition, Skeleton.inner, Skeleton.joint,
        Skeleton.sequence]
  declared := by rintro ⟨_ | _, _⟩ <;> rfl

end Flat

def both (a b : Outline) : Bool → Outline
  | false => a
  | true => b

def Iso.chain {a a' b b' : Outline} (f : a.Iso a') (g : b.Iso b') :
    (a.chain b).Iso (a'.chain b') :=
  ((glueSequence (both a b)).symm.trans ((Skeleton.Iso.refl .sequence).glue (Bool.rec f g))).trans
    (glueSequence (both a' b'))

end Outline

end ProcessNet
