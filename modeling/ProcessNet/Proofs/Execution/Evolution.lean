import Mathlib.Order.Defs.Unbundled
import ProcessNet.Execution.Session

/-!
What a computation does to its state, whether it answers or stops: the state in which it ends is
related to the state in which it began. A relation that is reflexive and transitive passes through
sequences and loops, so it has to be checked for the single steps only. A computation that answers
from every state of a kind, in a state of the kind, can be followed by another one of which the same
is known.
-/

namespace ProcessNet

variable {ε σ α β : Type}

def endState : EStateM.Result ε σ α → σ
  | .ok _ s => s
  | .error _ s => s

theorem run_discard (x : EStateM ε σ α) (s : σ) : (discard x).run s =
    match x.run s with
    | .ok _ s' => .ok () s'
    | .error e s' => .error e s' := by
  show EStateM.run (x >>= fun _ => pure ()) s = _
  rw [EStateM.run_bind]
  rcases x.run s with ⟨a, s'⟩ | ⟨e, s'⟩ <;> rfl

def Evolves (R : σ → σ → Prop) (x : EStateM ε σ α) : Prop := ∀ s, R s (endState (x.run s))

namespace Evolves

variable {R : σ → σ → Prop} {x : EStateM ε σ α} {f : α → EStateM ε σ β}

theorem mono {R' : σ → σ → Prop} (imp : ∀ s s', R s s' → R' s s') (hx : Evolves R x) :
    Evolves R' x :=
  fun s => imp _ _ (hx s)

theorem ok (hx : Evolves R x) {s s' : σ} {a : α} (h : x.run s = .ok a s') : R s s' := by
  simpa only [h, endState] using hx s

theorem modify {f : σ → σ} (h : ∀ s, R s (f s)) :
    Evolves R (modify f : EStateM ε σ PUnit) := h

theorem pure [Std.Refl R] (a : α) : Evolves R (pure a : EStateM ε σ α) := fun s => Std.Refl.refl s

theorem throw [Std.Refl R] (e : ε) : Evolves R (throw e : EStateM ε σ α) :=
  fun s => Std.Refl.refl s

theorem discard (hx : Evolves R x) : Evolves R (discard x) := by
  intro s
  have hs := hx s
  rw [run_discard]
  rcases h : x.run s with ⟨a, s'⟩ | ⟨e, s'⟩ <;> rw [h] at hs <;> exact hs

variable [Std.Refl R] [IsTrans σ R]

omit [Std.Refl R] in
theorem bind (hx : Evolves R x) (hf : ∀ a, Evolves R (f a)) : Evolves R (x >>= f) := by
  intro s
  have hs := hx s
  rw [EStateM.run_bind]
  rcases h : x.run s with ⟨a, s'⟩ | ⟨e, s'⟩ <;> rw [h] at hs
  · exact IsTrans.trans _ _ _ hs (hf a s')
  · exact hs

theorem forM {body : α → EStateM ε σ PUnit} {as : List α}
    (h : ∀ a ∈ as, Evolves R (body a)) : Evolves R (as.forM body) := by
  induction as with
  | nil => exact pure _
  | cons a rest ih =>
    exact bind (h a List.mem_cons_self) fun _ => ih fun b hb => h b (List.mem_cons_of_mem a hb)

theorem foldlM {body : β → α → EStateM ε σ β} {as : List α}
    (h : ∀ b, ∀ a ∈ as, Evolves R (body b a)) (b : β) : Evolves R (as.foldlM body b) := by
  induction as generalizing b with
  | nil => exact pure _
  | cons a rest ih =>
    exact bind (h b a List.mem_cons_self) fun b' =>
      ih (fun b c hc => h b c (List.mem_cons_of_mem a hc)) b'

end Evolves

/-- From the states with the property the computation does not stop, and it ends in one of them. -/
def Answers (I : σ → Prop) (x : EStateM ε σ α) : Prop :=
  ∀ s, I s → ∃ a s', x.run s = .ok a s' ∧ I s'

namespace Answers

variable {I : σ → Prop} {x : EStateM ε σ α} {f : α → EStateM ε σ β}

theorem pure (a : α) : Answers I (pure a : EStateM ε σ α) := fun s hs => ⟨a, s, rfl, hs⟩

theorem modify {f : σ → σ} (h : ∀ s, I s → I (f s)) :
    Answers I (modify f : EStateM ε σ PUnit) := fun s hs => ⟨⟨⟩, f s, rfl, h s hs⟩

theorem bind (hx : Answers I x) (hf : ∀ a, Answers I (f a)) : Answers I (x >>= f) := by
  intro s hs
  obtain ⟨a, s', run, hs'⟩ := hx s hs
  rw [EStateM.run_bind, run]
  exact hf a s' hs'

end Answers

end ProcessNet
