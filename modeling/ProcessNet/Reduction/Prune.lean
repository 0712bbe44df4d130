import ProcessNet.Reduction.Silent

/-!
Reduction of a net by passes. A pass computes the sources once, offers every transition present at
its start for removal, in order and on the net as the earlier removals have left it, and then drops
the places that no arc touches any more. Passes can be repeated until one removes nothing. Each pass
makes the net smaller by at least as many elements as it reports, which is why the repetition ends.
-/

namespace ProcessNet

/-- What a reduction removed, in order. -/
structure PruneReport where
  steps : List Bypass
  transitions : List TransitionId
  places : List PlaceId

namespace PruneReport

def none : PruneReport := ⟨[], [], []⟩

def isEmpty (report : PruneReport) : Bool :=
  report.transitions.isEmpty && report.places.isEmpty

def append (r s : PruneReport) : PruneReport :=
  ⟨r.steps ++ s.steps, r.transitions ++ s.transitions, r.places ++ s.places⟩

end PruneReport

namespace Net

/-- The number of elements that a reduction can remove. -/
def size (net : Net) : Nat := net.transitions.size + net.places.size

def isConnected (net : Net) (p : PlaceId) : Bool :=
  net.transitions.values.any fun t => p ∈ t.inputs || p ∈ t.outputs

def dropUnconnected (net : Net) : Net :=
  { net with places := net.places.filter fun p _ => net.isConnected p }

def unconnected (net : Net) : List PlaceId := net.places.keys.filter (!net.isConnected ·)

theorem size_dropUnconnected (net : Net) :
    net.dropUnconnected.size + net.unconnected.length = net.size := by
  have key : ∀ es : List (PlaceId × Place),
      (es.filter fun e => net.isConnected e.1).length +
        ((es.map Prod.fst).filter (!net.isConnected ·)).length = es.length := by
    intro es
    induction es with
    | nil => rfl
    | cons e rest ih =>
      cases h : net.isConnected e.1 <;> simp [h] <;> omega
  have := key net.places.entries
  simp only [size, dropUnconnected, unconnected, OrderedMap.filter, OrderedMap.size,
    OrderedMap.keys] at this ⊢
  omega

theorem size_bypass_lt {net : Net} {sources : OrderedSet PlaceId} {t : TransitionId}
    {p q : PlaceId} (h : net.bypass? sources t = some (p, q)) :
    (net.bypass t p q).size < net.size := by
  obtain ⟨x, hx, -⟩ := Option.bind_eq_some_iff.1 h
  have := OrderedMap.size_erase_lt hx
  simp only [bypass, size, OrderedMap.size_mapValues]
  omega

end Net

namespace Run

def removeSilents (sources : OrderedSet PlaceId) : List TransitionId → Run (List Bypass)
  | [] => return []
  | t :: rest => do
    let removed ← removeSilent sources t
    let later ← removeSilents sources rest
    return removed.toList ++ later

def prune : Run PruneReport := do
  let net ← net
  let steps ← removeSilents net.sources net.transitions.keys
  let places := (← Run.net).unconnected
  modifyNet Net.dropUnconnected
  record (.pruned steps.length places.length)
  return ⟨steps, steps.map (·.transition), places⟩

theorem size_updatePlace {p : PlaceId} {change : Place → Except Fault Place} {s s' : Session}
    (h : updatePlace p change s = .ok () s') : s'.net.size = s.net.size := by
  obtain ⟨_, _, hn, h⟩ := bind_eq_ok.1 h
  obtain ⟨rfl, rfl⟩ := net_eq_ok.1 hn
  rcases hx : s.net.place? p with _ | x
  · rw [hx] at h
    rw [(pure_eq_ok.1 h).2]
  · rw [hx] at h
    rcases hy : change x with _ | y
    · simp only [hy] at h
      cases h
    · simp only [hy] at h
      rw [modifyNet_eq_ok.1 h]
      simp [Net.size, OrderedMap.size_modify]

theorem size_moveTokens {p q : PlaceId} {s s' : Session} (h : moveTokens p q s = .ok () s') :
    s'.net.size = s.net.size := by
  obtain ⟨_, _, hn, h⟩ := bind_eq_ok.1 h
  obtain ⟨rfl, rfl⟩ := net_eq_ok.1 hn
  by_cases hz : (s.net.place? p).elim 0 Place.tokens = 0
  · rw [if_pos hz] at h
    rw [(pure_eq_ok.1 h).2]
  · rw [if_neg hz] at h
    obtain ⟨_, _, hq, hp⟩ := bind_eq_ok.1 h
    rw [size_updatePlace hp, size_updatePlace hq]

theorem size_removeSilent {sources : OrderedSet PlaceId} {t : TransitionId}
    {removed : Option Bypass} {s s' : Session} (h : removeSilent sources t s = .ok removed s') :
    s'.net.size + removed.toList.length ≤ s.net.size := by
  obtain ⟨_, _, hn, h⟩ := bind_eq_ok.1 h
  obtain ⟨rfl, rfl⟩ := net_eq_ok.1 hn
  rcases hb : s.net.bypass? sources t with _ | ⟨p, q⟩
  · rw [hb] at h
    obtain ⟨rfl, rfl⟩ := pure_eq_ok.1 h
    simp
  · rw [hb] at h
    obtain ⟨_, _, hd, h⟩ := bind_eq_ok.1 h
    obtain ⟨_, _, hm, h⟩ := bind_eq_ok.1 h
    obtain ⟨_, _, hr, h⟩ := bind_eq_ok.1 h
    obtain ⟨rfl, rfl⟩ := pure_eq_ok.1 h
    have lt := Net.size_bypass_lt hb
    have eq := size_moveTokens hm
    rw [modifyNet_eq_ok.1 hd] at eq
    rw [record_eq_ok.1 hr]
    dsimp only [Option.toList_some, List.length_singleton] at eq ⊢
    omega

theorem size_removeSilents {sources : OrderedSet PlaceId} {ts : List TransitionId}
    {steps : List Bypass} {s s' : Session} (h : removeSilents sources ts s = .ok steps s') :
    s'.net.size + steps.length ≤ s.net.size := by
  induction ts generalizing s steps with
  | nil =>
    obtain ⟨rfl, rfl⟩ := pure_eq_ok.1 h
    simp
  | cons t rest ih =>
    obtain ⟨_, _, h₁, h⟩ := bind_eq_ok.1 h
    obtain ⟨_, _, h₂, h⟩ := bind_eq_ok.1 h
    obtain ⟨rfl, rfl⟩ := pure_eq_ok.1 h
    have := size_removeSilent h₁
    have := ih h₂
    simp only [List.length_append]
    omega

theorem size_prune {report : PruneReport} {s s' : Session} (h : prune s = .ok report s') :
    s'.net.size + report.transitions.length + report.places.length ≤ s.net.size := by
  obtain ⟨_, _, hn, h⟩ := bind_eq_ok.1 h
  obtain ⟨rfl, rfl⟩ := net_eq_ok.1 hn
  obtain ⟨_, s₁, hs, h⟩ := bind_eq_ok.1 h
  obtain ⟨_, _, hn, h⟩ := bind_eq_ok.1 h
  obtain ⟨rfl, rfl⟩ := net_eq_ok.1 hn
  obtain ⟨_, _, hd, h⟩ := bind_eq_ok.1 h
  obtain ⟨_, _, hr, h⟩ := bind_eq_ok.1 h
  obtain ⟨rfl, rfl⟩ := pure_eq_ok.1 h
  have removed := size_removeSilents hs
  have dropped := s₁.net.size_dropUnconnected
  rw [record_eq_ok.1 hr, modifyNet_eq_ok.1 hd]
  simp only [List.length_map]
  omega

theorem size_prune_lt {report : PruneReport} {s s' : Session} (h : prune s = .ok report s')
    (some_removed : ¬report.isEmpty) : s'.net.size < s.net.size := by
  have le := size_prune h
  have : report.transitions.length + report.places.length ≠ 0 := by
    simpa [PruneReport.isEmpty, List.isEmpty_iff, and_comm] using some_removed
  omega

/-- Further passes after those already reported. -/
def pruneUntilStill (earlier : PruneReport) : Run PruneReport := fun s =>
  match _h : prune s with
  | .error fault s' => .error fault s'
  | .ok report s' =>
    if report.isEmpty then .ok earlier s' else pruneUntilStill (earlier.append report) s'
termination_by s => s.net.size
decreasing_by exact size_prune_lt ‹_› ‹_›

def pruneExhaustively : Run PruneReport := pruneUntilStill .none

end Run

end ProcessNet
