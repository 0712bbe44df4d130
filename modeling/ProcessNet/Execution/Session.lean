import ProcessNet.Execution.Journal
import ProcessNet.Net.Basic

/-!
The state in which a net is run: the net itself, the journal of events and the number of random words
drawn so far. A run that stops by a fault still shows the state it reached; tokens that had moved
before the fault stay moved.
-/

namespace ProcessNet

structure Session where
  net : Net
  journal : Array Event
  drawn : Nat

abbrev Run := EStateM Fault Session

namespace Session

def start (net : Net) : Session := ⟨net, #[], 0⟩

end Session

namespace Run

def refuse {α : Type} (e : NetError) : Run α := throw (.refused e)

def ofExcept {α : Type} (x : Except NetError α) : Run α :=
  match x with
  | .ok a => pure a
  | .error e => refuse e

def net : Run Net := return (← get).net

def modifyNet (f : Net → Net) : Run Unit := modify fun s => { s with net := f s.net }

def record (e : Event) : Run Unit := modify fun s => { s with journal := s.journal.push e }

theorem bind_eq_ok {α β : Type} {x : Run α} {f : α → Run β} {s s' : Session} {b : β} :
    (x >>= f) s = .ok b s' ↔ ∃ a s₁, x s = .ok a s₁ ∧ f a s₁ = .ok b s' := by
  simp only [bind, EStateM.bind]
  cases x s <;> simp [and_assoc]

theorem bind_eq_error {α β : Type} {x : Run α} {f : α → Run β} {s s' : Session} {fault : Fault} :
    (x >>= f) s = .error fault s' ↔
      x s = .error fault s' ∨ ∃ a s₁, x s = .ok a s₁ ∧ f a s₁ = .error fault s' := by
  simp only [bind, EStateM.bind]
  cases x s <;> simp [and_assoc]

theorem pure_eq_ok {α : Type} {a b : α} {s s' : Session} :
    (pure a : Run α) s = .ok b s' ↔ a = b ∧ s = s' := by
  simp [pure, EStateM.pure]

theorem net_eq_ok {n : Net} {s s' : Session} : net s = .ok n s' ↔ s.net = n ∧ s = s' := by
  change EStateM.Result.ok s.net s = .ok n s' ↔ _
  rw [EStateM.Result.ok.injEq]

theorem run_net_bind {α : Type} (f : Net → Run α) (s : Session) :
    (net >>= f).run s = (f s.net).run s := rfl

theorem modifyNet_eq_ok {f : Net → Net} {s s' : Session} :
    modifyNet f s = .ok () s' ↔ s' = { s with net := f s.net } := by
  change EStateM.Result.ok () { s with net := f s.net } = .ok () s' ↔ _
  simp only [EStateM.Result.ok.injEq, true_and, eq_comm]

theorem record_eq_ok {e : Event} {s s' : Session} :
    record e s = .ok () s' ↔ s' = { s with journal := s.journal.push e } := by
  change EStateM.Result.ok () { s with journal := s.journal.push e } = .ok () s' ↔ _
  simp only [EStateM.Result.ok.injEq, true_and, eq_comm]

/-- Replaces the tokens of a place by what the change allows; an unknown place changes nothing. -/
def updatePlace (p : PlaceId) (change : Place → Except Fault Place) : Run Unit := do
  match (← net).place? p with
  | none => return
  | some x =>
    match change x with
    | .ok y => modifyNet fun net => { net with places := net.places.modify p fun _ => y }
    | .error fault => throw fault

end Run

end ProcessNet
