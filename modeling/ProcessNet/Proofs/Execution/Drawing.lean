import ProcessNet.Proofs.Execution.Voting

/-!
Computations that only draw words. Such a computation changes nothing but the number of words drawn,
and its answer depends on the net and on the words it drew: where a net is the same and the same
words come next, it answers the same, whatever else the stream holds and however many words were
drawn before. The votes of a step are collected in this way.
-/

namespace ProcessNet.Run

def OnlyDraws {α : Type} (x : Words → Run α) : Prop :=
  ∀ words s a s', (x words).run s = .ok a s' → ∃ n, s' = { s with drawn := s.drawn + n } ∧
    ∀ words' u, u.net = s.net → (∀ i < n, words' (u.drawn + i) = words (s.drawn + i)) →
      (x words').run u = .ok a { u with drawn := u.drawn + n }

namespace OnlyDraws

variable {α β : Type} {x : Words → Run α} {f : Words → α → Run β}

theorem pure (a : α) : OnlyDraws fun _ => (pure a : Run α) := by
  intro words s b s' h
  obtain ⟨rfl, rfl⟩ := pure_eq_ok.1 h
  exact ⟨0, rfl, fun _ _ _ _ => rfl⟩

theorem net : OnlyDraws fun _ => net := by
  intro words s n s' h
  obtain ⟨rfl, rfl⟩ := net_eq_ok.1 h
  exact ⟨0, rfl, fun _ u same _ => net_eq_ok.2 ⟨same, rfl⟩⟩

theorem ofExcept (y : Except NetError α) : OnlyDraws fun _ => ofExcept y := by
  cases y with
  | ok a => exact pure a
  | error e => exact fun _ _ _ _ h => nomatch h

theorem nextWord : OnlyDraws nextWord := by
  intro words s a s' h
  rw [run_nextWord] at h
  obtain ⟨rfl, rfl⟩ := EStateM.Result.ok.inj h
  refine ⟨1, rfl, fun words' u _ agree => ?_⟩
  have first := agree 0 Nat.one_pos
  simp only [Nat.add_zero] at first
  rw [run_nextWord, first]

theorem bind (hx : OnlyDraws x) (hf : ∀ a, OnlyDraws fun words => f words a) :
    OnlyDraws fun words => x words >>= f words := by
  intro words s b s' h
  obtain ⟨a, s₁, first, second⟩ := bind_eq_ok.1 h
  obtain ⟨n, rfl, again⟩ := hx _ _ _ _ first
  obtain ⟨m, rfl, again'⟩ := hf a _ _ _ _ second
  refine ⟨n + m, by rw [Nat.add_assoc], fun words' u same agree => ?_⟩
  refine bind_eq_ok.2 ⟨a, _, again words' u same fun i hi => agree i (by omega), ?_⟩
  -- the second part reads on where the first one stopped
  have later := again' words' { u with drawn := u.drawn + n } same fun i hi => by
    have := agree (n + i) (by omega)
    rwa [← Nat.add_assoc, ← Nat.add_assoc] at this
  rwa [Nat.add_assoc] at later

theorem foldlM {body : Words → β → α → Run β}
    (each : ∀ b a, OnlyDraws fun words => body words b a) (as : List α) (b : β) :
    OnlyDraws fun words => as.foldlM (body words) b := by
  induction as generalizing b with
  | nil => exact pure b
  | cons a rest ih =>
    simp only [List.foldlM_cons]
    exact (each b a).bind fun b' => ih b'

end OnlyDraws

theorem drawIndex_onlyDraws (n : ℕ) : OnlyDraws fun words => drawIndex words n := by
  refine OnlyDraws.nextWord.bind fun word => ?_
  dsimp only
  by_cases enough : word * n % Nat.pow 2 32 ≤ Nat.pow 2 32 - n
  · simp only [if_pos enough]
    exact .pure _
  · simp only [if_neg enough]
    exact OnlyDraws.nextWord.bind fun second => .pure _

theorem drawFrom_onlyDraws {α : Type} (candidates : List α) :
    OnlyDraws fun words => drawFrom words candidates := by
  simp only [drawFrom]
  by_cases none : candidates.isEmpty = true
  · simp only [if_pos none]
    exact .pure _
  · simp only [if_neg none]
    exact (drawIndex_onlyDraws _).bind fun i => .pure _

theorem vote_onlyDraws (votes : Votes) (place : Place) :
    OnlyDraws fun words => vote words votes place := by
  refine OnlyDraws.net.bind fun net => (OnlyDraws.ofExcept _).bind fun candidates => ?_
  refine (drawFrom_onlyDraws candidates).bind fun chosen => ?_
  cases chosen <;> exact .pure _

theorem collectVotes_onlyDraws : OnlyDraws collectVotes :=
  OnlyDraws.net.bind fun _ => OnlyDraws.foldlM vote_onlyDraws _ _

end ProcessNet.Run
