import ProcessNet.Proofs.Pattern.OutlineAssembly

/-!
The laws of the pattern algebra. Sequences may be bracketed in any way, the operands of the other
operators may change places, and an operand may be exchanged for one that is alike up to names; the
results are alike up to names. Each law is one of the skeleton by which the operator puts its operands
together.
-/

namespace ProcessNet

theorem exists_equiv_of_perm {α : Type} {l l' : List α} (perm : l.Perm l') :
    ∃ e : Fin l.length ≃ Fin l'.length, ∀ i, l.get i = l'.get (e i) := by
  have positions : List.Forall₂ (fun a i => l.get i = a) l (List.finRange l.length) :=
    List.forall₂_iff_get.2 ⟨by simp, fun i _ _ => by simp⟩
  obtain ⟨is, found, permuted⟩ := List.perm_comp_forall₂ perm.symm positions
  have nodup : is.Nodup := permuted.nodup_iff.2 (List.nodup_finRange _)
  have all : ∀ i, i ∈ is := fun i => permuted.mem_iff.2 (List.mem_finRange i)
  obtain ⟨length, found⟩ := List.forall₂_iff_get.1 found
  let e := (finCongr length).trans (nodup.getEquivOfForallMemList is all)
  have same : ∀ j, l.get (e j) = l'.get j := fun j => found j j.2 (length ▸ j.2)
  refine ⟨e.symm, fun i => ?_⟩
  rw [← same, Equiv.apply_symm_apply]

theorem Naming.Assembles.isomorphic {I S R I' S' R' : Type} {k : Skeleton I S R}
    {k' : Skeleton I' S' R'} {operand : I → Pattern} {operand' : I' → Pattern} {P P' : Pattern}
    {n : Naming I S R} {n' : Naming I' S' R'} (h : n.Assembles k operand P)
    (h' : n'.Assembles k' operand' P') (wf : ∀ i, (operand i).WellFormed)
    (wf' : ∀ i, (operand' i).WellFormed) (hP : P.WellFormed) (hP' : P'.WellFormed) (e : k.Iso k')
    (f : ∀ i, (operand i).Isomorphic (operand' (e.part i))) : P.Isomorphic P' := by
  have operands : ∀ i, Nonempty ((wf i).outline.Iso (wf' (e.part i)).outline) := fun i =>
    (f i).iso (wf i) (wf' _)
  have joined : (Naming.joined k wf).Iso (Naming.joined k' wf') :=
    e.glue fun i => (operands i).some
  exact Pattern.isomorphic_of_iso hP hP'
    (((h.outlineIso wf hP).symm.trans joined).trans (h'.outlineIso wf' hP'))

namespace Pattern

variable {A A' B B' C P Q : Pattern}

theorem Isomorphic.refl (h : P.WellFormed) : P.Isomorphic P := isomorphic_of_iso h h (.refl _)

theorem isomorphic_equivalence :
    Equivalence fun P Q : {P : Pattern // P.WellFormed} => P.1.Isomorphic Q.1 where
  refl P := .refl P.2
  symm {P Q} h := (h.iso P.2 Q.2).elim fun f => isomorphic_of_iso Q.2 P.2 f.symm
  trans {P Q R} h g := (h.iso P.2 Q.2).elim fun f => (g.iso Q.2 R.2).elim fun f' =>
    isomorphic_of_iso P.2 R.2 (f.trans f')

section Binary

variable {S R : Type} {op : Pattern → Pattern → Pattern} {k : Skeleton Bool S R}

variable (joins : JoinsBy op k) (hA : A.WellFormed) (hB : B.WellFormed)

include joins hA hB

theorem JoinsBy.congr (hA' : A'.WellFormed) (hB' : B'.WellFormed) (a : A.Isomorphic A')
    (b : B.Isomorphic B') : (op A B).Isomorphic (op A' B') := by
  obtain ⟨hP, n, h⟩ := joins hA hB
  obtain ⟨hP', n', h'⟩ := joins hA' hB'
  exact h.isomorphic h' (forall_pair hA hB) (forall_pair hA' hB') hP hP' (.refl k) (Bool.rec a b)

theorem JoinsBy.comm (swap : k.Iso k) (swaps : swap.part = .boolNot) :
    (op A B).Isomorphic (op B A) := by
  obtain ⟨hP, n, h⟩ := joins hA hB
  obtain ⟨hP', n', h'⟩ := joins hB hA
  refine h.isomorphic h' (forall_pair hA hB) (forall_pair hB hA) hP hP' swap ?_
  rw [swaps]
  exact Bool.rec (.refl hA) (.refl hB)

end Binary

theorem nonempty_chain (hA : A.WellFormed) (hB : B.WellFormed) (hP : (sequence A B).WellFormed) :
    Nonempty (hP.outline.Iso (hA.outline.chain hB.outline)) := by
  obtain ⟨n, h⟩ := sequence_assembles hA hB
  exact ⟨(h.outlineIso (forall_pair hA hB) hP).symm.trans (Outline.Iso.glueSequence _)⟩

theorem sequence_assoc (hA : A.WellFormed) (hB : B.WellFormed) (hC : C.WellFormed) :
    (sequence (sequence A B) C).Isomorphic (sequence A (sequence B C)) := by
  have hAB := (sequence_joins hA hB).1
  have hBC := (sequence_joins hB hC).1
  have hL := (sequence_joins hAB hC).1
  have hR := (sequence_joins hA hBC).1
  obtain ⟨inner⟩ := nonempty_chain hA hB hAB
  obtain ⟨outer⟩ := nonempty_chain hAB hC hL
  obtain ⟨inner'⟩ := nonempty_chain hB hC hBC
  obtain ⟨outer'⟩ := nonempty_chain hA hBC hR
  refine isomorphic_of_iso hL hR ?_
  have left := outer.trans (inner.chain (.refl hC.outline))
  have right := outer'.trans ((Outline.Iso.refl hA.outline).chain inner')
  exact (left.trans (.chainAssoc _ _ _)).trans right.symm

theorem repetition_congr (hA : A.WellFormed) (hA' : A'.WellFormed) (a : A.Isomorphic A') :
    (repetition A).Isomorphic (repetition A') := by
  obtain ⟨n, h⟩ := repetition_assembles hA
  obtain ⟨n', h'⟩ := repetition_assembles hA'
  exact h.isomorphic h' (fun _ => hA) (fun _ => hA') (repetition_wellFormed hA)
    (repetition_wellFormed hA') (.refl _) fun _ => a

theorem choiceList_isomorphic {Ps Qs : List Pattern} (hPs : ∀ P ∈ Ps, P.WellFormed)
    (hQs : ∀ Q ∈ Qs, Q.WellFormed) (ne : Ps ≠ []) (e : Fin Ps.length ≃ Fin Qs.length)
    (f : ∀ i, (Ps.get i).Isomorphic (Qs.get (e i))) :
    ∃ P Q, choiceList Ps = .ok P ∧ choiceList Qs = .ok Q ∧ P.Isomorphic Q := by
  have ne' : Qs ≠ [] := by
    rintro rfl
    exact (e ⟨0, List.length_pos_of_ne_nil ne⟩).elim0
  obtain ⟨P, hP⟩ := exists_choiceList ne
  obtain ⟨Q, hQ⟩ := exists_choiceList ne'
  obtain ⟨n, h⟩ := choiceList_assembles hPs hP
  obtain ⟨n', h'⟩ := choiceList_assembles hQs hQ
  refine ⟨P, Q, hP, hQ, h.isomorphic h' (fun i => hPs _ (List.getElem_mem i.isLt))
    (fun i => hQs _ (List.getElem_mem i.isLt)) (choiceList_wellFormed hPs hP)
    (choiceList_wellFormed hQs hQ) (Skeleton.choiceIso e) f⟩

end Pattern

open Pattern

/-- The laws hold of whatever patterns are built. -/
theorem Pattern.laws_up_to_names :
    (∀ A B C, Built (.pattern A) → Built (.pattern B) → Built (.pattern C) →
      (sequence (sequence A B) C).Isomorphic (sequence A (sequence B C))) ∧
    (∀ A B, Built (.pattern A) → Built (.pattern B) →
      (choice A B).Isomorphic (choice B A) ∧ (parallel A B).Isomorphic (parallel B A) ∧
        (interleaving A B).Isomorphic (interleaving B A)) ∧
    (∀ Ps Qs : List Pattern, (∀ P ∈ Ps, Built (.pattern P)) → Ps ≠ [] → Ps.Perm Qs →
      ∃ P Q, choiceList Ps = .ok P ∧ choiceList Qs = .ok Q ∧ P.Isomorphic Q) ∧
    (∀ A A' B B', Built (.pattern A) → Built (.pattern A') → Built (.pattern B) →
      Built (.pattern B') → A.Isomorphic A' → B.Isomorphic B' →
        (sequence A B).Isomorphic (sequence A' B') ∧ (choice A B).Isomorphic (choice A' B') ∧
          (parallel A B).Isomorphic (parallel A' B') ∧
            (interleaving A B).Isomorphic (interleaving A' B')) ∧
    (∀ Ps Qs : List Pattern, (∀ P ∈ Ps, Built (.pattern P)) → (∀ Q ∈ Qs, Built (.pattern Q)) →
      Ps ≠ [] → List.Forall₂ Isomorphic Ps Qs →
        ∃ P Q, choiceList Ps = .ok P ∧ choiceList Qs = .ok Q ∧ P.Isomorphic Q) ∧
    ∀ A A', Built (.pattern A) → Built (.pattern A') → A.Isomorphic A' →
      (repetition A).Isomorphic (repetition A') := by
  refine ⟨fun A B C hA hB hC => sequence_assoc hA.wellFormed hB.wellFormed hC.wellFormed,
    fun A B hA hB => ?_, fun Ps Qs hPs ne perm => ?_, fun A A' B B' hA hA' hB hB' a b => ?_,
    fun Ps Qs hPs hQs ne alike => ?_,
    fun A A' hA hA' a => repetition_congr hA.wellFormed hA'.wellFormed a⟩
  · have hA : A.WellFormed := hA.wellFormed
    have hB : B.WellFormed := hB.wellFormed
    exact ⟨choice_joins.comm hA hB (Skeleton.choiceIso .boolNot) rfl,
      parallel_joins.comm hA hB Skeleton.parallelSwap rfl,
      interleaving_joins.comm hA hB Skeleton.interleavingSwap rfl⟩
  · have wf : ∀ P ∈ Ps, P.WellFormed := fun P hP => (hPs P hP).wellFormed
    obtain ⟨e, same⟩ := exists_equiv_of_perm perm
    refine choiceList_isomorphic wf (fun Q hQ => wf Q (perm.mem_iff.2 hQ)) ne e fun i => ?_
    rw [← same]
    exact .refl (wf _ (List.getElem_mem i.isLt))
  · have hA : A.WellFormed := hA.wellFormed
    have hB : B.WellFormed := hB.wellFormed
    have hA' : A'.WellFormed := hA'.wellFormed
    have hB' : B'.WellFormed := hB'.wellFormed
    exact ⟨sequence_joins.congr hA hB hA' hB' a b, choice_joins.congr hA hB hA' hB' a b,
      parallel_joins.congr hA hB hA' hB' a b, interleaving_joins.congr hA hB hA' hB' a b⟩
  · obtain ⟨length, alike⟩ := List.forall₂_iff_get.1 alike
    exact choiceList_isomorphic (fun P hP => (hPs P hP).wellFormed)
      (fun Q hQ => (hQs Q hQ).wellFormed) ne (finCongr length) fun i => alike i i.2 (length ▸ i.2)

theorem Pattern.laws_of_task_and_metered :
    (sequence (sequence task metered) task).Isomorphic (sequence task (sequence metered task)) ∧
      (∃ P Q, choiceList [task, task, metered] = .ok P ∧ choiceList [metered, task, task] = .ok Q ∧
        P.Isomorphic Q) ∧
      (interleaving (choice task metered) (choice metered task)).Isomorphic
        (interleaving (choice metered task) (choice task metered)) ∧
      (∃ P Q, choiceList [choice task metered] = .ok P ∧ choiceList [choice metered task] = .ok Q ∧
        P.Isomorphic Q) ∧
      (repetition (choice task metered)).Isomorphic (repetition (choice metered task)) := by
  obtain ⟨assoc, comm, perm, congr, congrList, again⟩ := laws_up_to_names
  have operands : ∀ P ∈ [task, task] ++ [metered], Built (.pattern P) := by
    simp [built_task, built_metered]
  have left : Built (.pattern (choice task metered)) := .choice built_task built_metered
  have right : Built (.pattern (choice metered task)) := .choice built_metered built_task
  have alike := (comm _ _ built_task built_metered).1
  have back := (comm _ _ built_metered built_task).1
  refine ⟨assoc _ _ _ built_task built_metered built_task,
    perm ([task, task] ++ [metered]) _ operands (by simp) List.perm_append_comm,
    (congr _ _ _ _ left right right left alike back).2.2.2,
    congrList _ _ ?_ ?_ (by simp) (.cons alike .nil), again _ _ left right alike⟩
  · simpa using left
  · simpa using right

end ProcessNet
