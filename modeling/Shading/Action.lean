import Shading.Fault

/-!
# Actions

An action reads and changes a state and may fail; what it changed before it failed stays
changed.
-/

namespace Shading

/-- An action on a state: from the state before to a result or a fault, and the state after. -/
def Action (σ α : Type) : Type :=
  σ → Except Fault α × σ

namespace Action

variable {σ α β γ : Type}

/-- Runs an action from a state. -/
def run (action : Action σ α) (s : σ) : Except Fault α × σ :=
  action s

/-- One action after another, the second only if the first does not fail. -/
def andThen (action : Action σ α) (next : α → Action σ β) : Action σ β := fun s =>
  match action s with
  | (.ok a, s') => next a s'
  | (.error fault, s') => (.error fault, s')

instance : Monad (Action σ) where
  pure a := fun s => (.ok a, s)
  bind := andThen

/-- Fails and changes nothing. -/
def fail (fault : Fault) : Action σ α := fun s =>
  (.error fault, s)

/-- The state as it is. -/
def state : Action σ σ := fun s =>
  (.ok s, s)

/-- Changes the state. -/
def update (f : σ → σ) : Action σ Unit := fun s =>
  (.ok (), f s)

/-- A result or a fault that is already known. -/
def ofExcept (result : Except Fault α) : Action σ α := fun s =>
  (result, s)

@[simp] theorem run_pure (a : α) (s : σ) : (pure a : Action σ α).run s = (.ok a, s) := rfl

theorem run_bind (action : Action σ α) (next : α → Action σ β) (s : σ) :
    (action >>= next).run s =
      match action.run s with
      | (.ok a, s') => (next a).run s'
      | (.error fault, s') => (.error fault, s') := rfl

theorem run_bind_ok {action : Action σ α} {s s' : σ} {a : α} (h : action.run s = (.ok a, s'))
    (next : α → Action σ β) : (action >>= next).run s = (next a).run s' := by
  rw [run_bind, h]

theorem run_bind_error {action : Action σ α} {s s' : σ} {fault : Fault}
    (h : action.run s = (.error fault, s')) (next : α → Action σ β) :
    (action >>= next).run s = (.error fault, s') := by
  rw [run_bind, h]

@[simp] theorem run_fail (fault : Fault) (s : σ) :
    (fail fault : Action σ α).run s = (.error fault, s) := rfl

@[simp] theorem run_state (s : σ) : (state : Action σ σ).run s = (.ok s, s) := rfl

@[simp] theorem run_update (f : σ → σ) (s : σ) : (update f).run s = (.ok (), f s) := rfl

@[simp] theorem run_ofExcept (result : Except Fault α) (s : σ) :
    (ofExcept result : Action σ α).run s = (result, s) := rfl

theorem id_map (action : Action σ α) : id <$> action = action := by
  funext s
  change (action >>= fun a => pure (id a)).run s = action.run s
  rw [run_bind]
  rcases action.run s with ⟨_ | a, s'⟩
  · rfl
  · rfl

theorem bind_assoc (action : Action σ α) (next : α → Action σ β) (last : β → Action σ γ) :
    (action >>= next) >>= last = action >>= fun a => next a >>= last := by
  funext s
  change ((action >>= next) >>= last).run s = (action >>= fun a => next a >>= last).run s
  rw [run_bind, run_bind, run_bind]
  rcases action.run s with ⟨_ | a, s'⟩
  · rfl
  · rfl

instance : LawfulMonad (Action σ) :=
  .mk' _ id_map (fun _ _ => rfl) bind_assoc

end Action

end Shading
