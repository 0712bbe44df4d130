import ProcessNet.Proofs.Pattern.Assembly
import ProcessNet.Proofs.TokenGame.Operators

/-!
Every operator of the algebra puts its operands together by its skeleton. Each work of a composition
is followed with the blueprint it yields, and at its end the names that were drawn on the way are
collected into a naming.
-/

namespace ProcessNet

namespace Naming

variable {I S R : Type} {k : Skeleton I S R} {operand : I → Pattern}

/-- The names found by the work are those of the skeleton's elements, and the answer is its ends. -/
def Found (k : Skeleton I S R) (operand : I → Pattern) (ends : PlaceId × PlaceId)
    (b : Blueprint) : Prop :=
  ∃ n : Naming I S R, b = n.blueprint k operand ∧
    ends = (n.place (port operand k.source), n.place (port operand k.sink))

theorem assembles_finish_of (holds : Naming I S R → Prop) {work : Compose (PlaceId × PlaceId)}
    (h : Compose.Yields work (.ofParts []) fun ends b => ∃ n : Naming I S R, holds n ∧
      b = n.blueprint k operand ∧ ends = (n.place (port operand k.source),
        n.place (port operand k.sink))) :
    ∃ n : Naming I S R, holds n ∧ n.Assembles k operand (Compose.finish work) := by
  obtain ⟨b, ⟨n, hn, rfl, ends⟩, describes⟩ := Compose.finish_describes h
  obtain ⟨source, sink⟩ := Prod.mk.inj ends
  exact ⟨n, hn, describes, source, sink⟩

theorem assembles_finish {work : Compose (PlaceId × PlaceId)}
    (h : Compose.Yields work (.ofParts []) (Found k operand)) :
    ∃ n : Naming I S R, n.Assembles k operand (Compose.finish work) := by
  obtain ⟨n, -, assembles⟩ := assembles_finish_of (fun _ => True) (h.mono
    fun _ _ found => found.imp fun n eq => ⟨trivial, eq⟩)
  exact ⟨n, assembles⟩

end Naming

namespace Pattern

open Compose
open Naming (Found assembles_finish assembles_finish_of)

def pair {α : Type} (a b : α) : Bool → α
  | false => a
  | true => b

theorem forall_pair {α : Type} {holds : α → Prop} {a b : α} (ha : holds a) (hb : holds b) :
    ∀ i, holds (pair a b i)
  | false => ha
  | true => hb

def copies (P Q : Pattern) : Renaming × Renaming :=
  let work : Compose (Renaming × Renaming) := do
    let first ← absorb P
    let second ← absorb Q
    return (first, second)
  (work.run ⟨∅, ∅⟩).1

section Assembling

variable {P Q : Pattern} (hP : P.WellFormed) (hQ : Q.WellFormed)

include hP hQ

theorem sequence_assembles : ∃ n : Naming Bool Empty Unit,
    n.Assembles .sequence (pair P Q) (sequence P Q) := by
  refine assembles_finish ((yields_absorbEnds hP.net []).bind ?_)
  rintro _ _ ⟨r₁, rfl, rfl⟩
  refine (yields_absorbEnds hQ.net _).bind ?_
  rintro _ _ ⟨r₂, rfl, rfl⟩
  refine (yields_route _ _ _).bind ?_
  rintro _ _ ⟨t, rfl⟩
  exact .pure ⟨⟨pair r₁ r₂, nofun, fun _ => t⟩, rfl, rfl⟩

theorem parallel_assembles : ∃ n : Naming Bool Outer Outer,
    n.Assembles .parallel (pair P Q) (parallel P Q) := by
  refine assembles_finish ((yields_absorbEnds hP.net []).bind ?_)
  rintro _ _ ⟨r₁, rfl, rfl⟩
  refine (yields_absorbEnds hQ.net _).bind ?_
  rintro _ _ ⟨r₂, rfl, rfl⟩
  refine (yields_place _).bind ?_
  rintro source _ rfl
  refine (yields_route _ _ _).bind ?_
  rintro _ _ ⟨split, rfl⟩
  refine (yields_place _).bind ?_
  rintro sink _ rfl
  refine (yields_route _ _ _).bind ?_
  rintro _ _ ⟨join, rfl⟩
  exact .pure ⟨⟨pair r₁ r₂, Outer.pick source sink, Outer.pick split join⟩, rfl, rfl⟩

theorem interleaving_assembles_copies : ∃ n : Naming Bool Turn Pass,
    n.rename = pair (copies P Q).1 (copies P Q).2 ∧
      n.Assembles .interleaving (pair P Q) (interleaving P Q) := by
  have first := absorb_describes hP.net Blueprint.describes_empty
  refine assembles_finish_of _ ((yields_absorbEnds_run hP.net Blueprint.describes_empty).bind ?_)
  rintro _ _ ⟨rfl, rfl⟩
  refine (yields_absorbEnds_run hQ.net first).bind ?_
  rintro _ _ ⟨rfl, rfl⟩
  refine (yields_place _).bind fun source b hs => (yields_place _).bind fun mutex b' hm => ?_
  subst hs hm
  refine (yields_place _).bind ?_
  rintro sink _ rfl
  refine (yields_place _).bind ?_
  rintro entry₁ _ rfl
  refine (yields_place _).bind ?_
  rintro entry₂ _ rfl
  refine (yields_place _).bind ?_
  rintro exit₁ _ rfl
  refine (yields_place _).bind ?_
  rintro exit₂ _ rfl
  refine (yields_route _ _ _).bind ?_
  rintro _ _ ⟨split, rfl⟩
  refine (yields_route _ _ _).bind ?_
  rintro _ _ ⟨enter₁, rfl⟩
  refine (yields_route _ _ _).bind ?_
  rintro _ _ ⟨enter₂, rfl⟩
  refine (yields_route _ _ _).bind ?_
  rintro _ _ ⟨leave₁, rfl⟩
  refine (yields_route _ _ _).bind ?_
  rintro _ _ ⟨leave₂, rfl⟩
  refine (yields_route _ _ _).bind ?_
  rintro _ _ ⟨join, rfl⟩
  exact .pure ⟨⟨pair (copies P Q).1 (copies P Q).2,
    Turn.pick source mutex sink (pair entry₁ entry₂) (pair exit₁ exit₂),
    Pass.pick split join (pair enter₁ enter₂) (pair leave₁ leave₂)⟩, rfl, rfl, rfl⟩

theorem interleaving_assembles : ∃ n : Naming Bool Turn Pass,
    n.Assembles .interleaving (pair P Q) (interleaving P Q) :=
  (interleaving_assembles_copies hP hQ).imp fun _ h => h.2

omit hP hQ in
theorem place_ne_place {r₁ r₂ : Renaming} {c : Composition} {p q : PlaceId}
    (h : (Blueprint.ofParts [(P, r₁), (Q, r₂)]).Describes c) (hp : p ∈ P.net.places.keys)
    (hq : q ∈ Q.net.places.keys) : r₁.place p ≠ r₂.place q := by
  have nodup := c.net.places.nodup_keys
  rw [h.places] at nodup
  simp only [Blueprint.ofParts, List.flatMap_cons, List.flatMap_nil, List.append_nil, List.map_nil,
    List.map_append, Renaming.placeEntries, List.map_map] at nodup
  obtain ⟨e, he, rfl⟩ := List.mem_map.1 hp
  obtain ⟨e', he', rfl⟩ := List.mem_map.1 hq
  exact (List.nodup_append.1 nodup).2.2 _ (List.mem_map_of_mem he) _ (List.mem_map_of_mem he')

theorem choice_assembles : ∃ n : Naming Bool Outer (Gate Bool),
    n.Assembles (.choice [false, true] (by decide)) (pair P Q) (choice P Q) := by
  refine assembles_finish ((yields_absorbEnds hP.net []).bind ?_)
  rintro _ _ ⟨r₁, rfl, rfl⟩
  refine (yields_absorbEnds hQ.net _).bind ?_
  rintro _ _ ⟨r₂, rfl, rfl⟩
  refine .of_describes fun c described => ?_
  have ne : r₁.place P.sink ≠ r₂.place Q.sink :=
    place_ne_place described (hP.ends.sink_mem hP.net) (hQ.ends.sink_mem hQ.net)
  refine (yields_place _).bind ?_
  rintro source _ rfl
  refine (yields_route _ _ _).bind ?_
  rintro _ _ ⟨enter₁, rfl⟩
  refine (yields_route _ _ _).bind ?_
  rintro _ _ ⟨enter₂, rfl⟩
  refine (yields_newSink (by simpa using ne)).bind ?_
  rintro sink _ ⟨ts, length, rfl⟩
  obtain ⟨leave₁, leave₂, rfl⟩ := List.length_eq_two.1 length
  exact .pure ⟨⟨pair r₁ r₂, Outer.pick source sink,
    Gate.pick (pair enter₁ enter₂) (pair leave₁ leave₂)⟩, rfl, rfl⟩

omit hQ in
theorem repetition_assembles : ∃ n : Naming Unit Outer Loop,
    n.Assembles .repetition (fun _ => P) (repetition P) := by
  refine assembles_finish ((yields_absorbEnds hP.net []).bind ?_)
  rintro _ _ ⟨r, rfl, rfl⟩
  refine (yields_place _).bind ?_
  rintro source _ rfl
  refine (yields_place _).bind ?_
  rintro sink _ rfl
  refine (yields_route _ _ _).bind ?_
  rintro _ _ ⟨enter, rfl⟩
  refine (yields_route _ _ _).bind ?_
  rintro _ _ ⟨leave, rfl⟩
  refine (yields_route _ _ _).bind ?_
  rintro _ _ ⟨again, rfl⟩
  exact .pure ⟨⟨fun _ => r, Outer.pick source sink, Loop.pick enter leave again⟩, rfl, rfl⟩

omit hP hQ in
theorem zip_eq_map_finRange {α β : Type} {as : List α} {bs : List β}
    (h : bs.length = as.length) :
    as.zip bs = (List.finRange as.length).map fun i => (as[i], bs[i]) := by
  refine List.ext_getElem (by simp [h]) fun i _ _ => ?_
  simp

omit hP hQ in
theorem nonempty_of_choiceList {Ps : List Pattern} {result : Pattern}
    (h : choiceList Ps = .ok result) : Nonempty (Fin Ps.length) := by
  rcases Ps with _ | ⟨P, rest⟩
  · cases h
  · exact ⟨⟨0, Nat.succ_pos _⟩⟩

omit hP hQ in
theorem choiceList_assembles {Ps : List Pattern} (wf : ∀ P ∈ Ps, P.WellFormed)
    {result : Pattern} (h : choiceList Ps = .ok result) :
    ∃ n : Naming (Fin Ps.length) Outer (Gate (Fin Ps.length)),
      n.Assembles (.choice (List.finRange _) List.mem_finRange) (fun i => Ps[i]) result := by
  rw [choiceList] at h
  split at h
  · cases h
  obtain rfl := Except.ok.inj h
  refine assembles_finish ((yields_mapM_absorbEnds (fun P hP => (wf P hP).net) []).bind ?_)
  rintro _ _ ⟨rs, hrs, rfl, rfl⟩
  refine (yields_place _).bind ?_
  rintro source _ rfl
  refine (yields_forM_route _ _ _ _).bind ?_
  rintro _ _ ⟨ts, hts, rfl⟩
  refine (yields_place _).bind ?_
  rintro sink _ rfl
  refine (yields_forM_route _ _ _ _).bind ?_
  rintro _ _ ⟨us, hus, rfl⟩
  simp only [List.length_map, List.length_zip, hrs, Nat.min_self] at hts hus
  refine .pure ⟨⟨fun i => rs[i], Outer.pick source sink,
    Gate.pick (fun i => ts[i]) fun i => us[i]⟩, ?_, rfl⟩
  simp only [Blueprint.ofParts, Blueprint.withPlace, Naming.blueprint, Skeleton.choice,
    List.map_append, List.map_map, List.nil_append, List.map_cons, List.map_nil]
  refine congrArg₂ (Blueprint.mk · _ ·) ?_ (congrArg₂ (· ++ ·) ?_ ?_)
  · exact zip_eq_map_finRange hrs
  · refine List.ext_getElem (by simp [hts, hrs]) fun i _ _ => ?_
    simp [Naming.place, Naming.port, Skeleton.site]
  · refine List.ext_getElem (by simp [hus, hrs]) fun i _ _ => ?_
    simp [Naming.place, Naming.port, Skeleton.site]

end Assembling

/-- The operator puts two patterns together by the skeleton. -/
def JoinsBy {S R : Type} (op : Pattern → Pattern → Pattern) (k : Skeleton Bool S R) : Prop :=
  ∀ {P Q : Pattern}, P.WellFormed → Q.WellFormed →
    (op P Q).WellFormed ∧ ∃ n : Naming Bool S R, n.Assembles k (pair P Q) (op P Q)

section Binary

variable {S R : Type} {op : Pattern → Pattern → Pattern} {k : Skeleton Bool S R}

theorem joinsBy_of_assembles [DecidableEq S] (ends : k.game.HasEnds k.source k.sink)
    (assembles : ∀ {P Q : Pattern}, P.WellFormed → Q.WellFormed →
      ∃ n : Naming Bool S R, n.Assembles k (pair P Q) (op P Q)) : JoinsBy op k := by
  intro P Q hP hQ
  obtain ⟨n, h⟩ := assembles hP hQ
  exact ⟨h.wellFormed (forall_pair hP hQ) ends, n, h⟩

theorem sequence_joins : JoinsBy sequence .sequence :=
  joinsBy_of_assembles Skeleton.sequence_hasEnds sequence_assembles

theorem choice_joins : JoinsBy choice (.choice [false, true] (by decide)) :=
  joinsBy_of_assembles (Skeleton.choice_hasEnds _ _) choice_assembles

theorem parallel_joins : JoinsBy parallel .parallel :=
  joinsBy_of_assembles Skeleton.parallel_hasEnds parallel_assembles

theorem interleaving_joins : JoinsBy interleaving .interleaving :=
  joinsBy_of_assembles Skeleton.interleaving_hasEnds interleaving_assembles

end Binary

theorem repetition_wellFormed {P : Pattern} (hP : P.WellFormed) : (repetition P).WellFormed := by
  obtain ⟨n, assembles⟩ := repetition_assembles hP
  exact assembles.wellFormed (fun _ => hP) Skeleton.repetition_hasEnds

theorem exists_choiceList {Ps : List Pattern} (ne : Ps ≠ []) : ∃ P, choiceList Ps = .ok P :=
  ⟨_, if_neg fun empty => ne (List.isEmpty_iff.1 empty)⟩

theorem choiceList_wellFormed {Ps : List Pattern} {P : Pattern} (hPs : ∀ P ∈ Ps, P.WellFormed)
    (h : choiceList Ps = .ok P) : P.WellFormed := by
  obtain ⟨n, assembles⟩ := choiceList_assembles hPs h
  have := nonempty_of_choiceList h
  exact assembles.wellFormed (fun i => hPs _ (List.getElem_mem i.isLt)) (Skeleton.choice_hasEnds _ _)

end Pattern

end ProcessNet
