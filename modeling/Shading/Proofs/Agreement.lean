import Shading.Proofs.Independence

/-!
# Reported events have no influence

Two sessions agree if they differ at most in the events reported so far.  A statement
gives the same in both and leaves sessions that agree again, so the order in which
reading a source and reading its statements report is of no consequence to anything else.

* `Alike`: two runs that differ in nothing but events, and how such runs compose.
* `Agrees.run_statements`: statements read in sessions that agree.
-/

namespace Shading.Session

/-! ## Sessions that agree -/

/-- The same session, reported events aside. -/
structure Agrees (session other : Session) : Prop where
  options : session.options = other.options
  scope : session.scope = other.scope
  store : session.store = other.store

variable {session other : Session}

theorem Agrees.refl (session : Session) : session.Agrees session :=
  ⟨rfl, rfl, rfl⟩

theorem Agrees.symm (h : session.Agrees other) : other.Agrees session :=
  ⟨h.options.symm, h.scope.symm, h.store.symm⟩

theorem Agrees.trans {third : Session} (h : session.Agrees other) (h' : other.Agrees third) :
    session.Agrees third :=
  ⟨h.options.trans h'.options, h.scope.trans h'.scope, h.store.trans h'.store⟩

theorem Agrees.resolve_eq (h : session.Agrees other) (text : Text) :
    session.resolve text = other.resolve text := by
  have hsetting : session.setting = other.setting := by
    simp [setting, h.options, h.scope, h.store]
  rw [resolve, resolve, hsetting, h.options]

theorem Agrees.enter (h : session.Agrees other) (outcome : Except Fault (Option Expr)) :
    (enter outcome session).Agrees (enter outcome other) := by
  unfold Session.enter
  split
  next e =>
    unfold enterScope
    rw [h.options, h.store, h.scope]
    split
    · split
      · exact ⟨rfl, rfl, rfl⟩
      · exact h
    · exact h
  next => exact h

/-! ## Runs that are alike -/

/-- Two runs with the same outcome, which end in sessions that agree. -/
structure Alike {α : Type} (first second : Except Fault α × Session) : Prop where
  outcome : first.1 = second.1
  final : first.2.Agrees second.2

variable {α β : Type}

theorem Alike.symm {first second : Except Fault α × Session} (h : Alike first second) :
    Alike second first :=
  ⟨h.outcome.symm, h.final.symm⟩

theorem Alike.trans {first second third : Except Fault α × Session} (h : Alike first second)
    (h' : Alike second third) : Alike first third :=
  ⟨h.outcome.trans h'.outcome, h.final.trans h'.final⟩

/-- Steps that go on alike from runs that are alike. -/
theorem Alike.bind {step step' : Run α} (h : Alike (step.run session) (step'.run other))
    {next next' : α → Run β}
    (hnext : ∀ a (s s' : Session), step.run session = (.ok a, s) → s.Agrees s' →
      Alike ((next a).run s) ((next' a).run s')) :
    Alike ((step >>= next).run session) ((step' >>= next').run other) := by
  obtain ⟨houtcome, hfinal⟩ := h
  rw [Action.run_bind, Action.run_bind]
  revert houtcome hfinal hnext
  obtain ⟨outcome, s⟩ := step.run session
  obtain ⟨outcome', s'⟩ := step'.run other
  rintro hnext (rfl : outcome = outcome') hfinal
  cases outcome with
  | error fault => exact ⟨rfl, hfinal⟩
  | ok a => exact hnext a s s' rfl hfinal

theorem Agrees.run_pure (h : session.Agrees other) (a : α) :
    Alike ((pure a : Run α).run session) ((pure a : Run α).run other) :=
  ⟨rfl, h⟩

theorem Agrees.run_statement (h : session.Agrees other) (text : Text) :
    Alike ((statement text).run session) ((statement text).run other) := by
  obtain ⟨events, hrun⟩ := run_statement_enter session text
  obtain ⟨events', hrun'⟩ := run_statement_enter other text
  rw [hrun, hrun', ← h.resolve_eq text]
  refine ⟨rfl, Agrees.enter ?_ _⟩
  exact ⟨h.options, h.scope, by rw [h.store]⟩

theorem Agrees.run_statements (h : session.Agrees other) (texts : List Text) :
    Alike ((statements texts).run session) ((statements texts).run other) := by
  induction texts generalizing session other with
  | nil => exact h.run_pure []
  | cons first rest ih =>
      refine (h.run_statement first).bind fun value s s' _ hs => ?_
      exact (ih hs).bind fun values t t' _ ht => ht.run_pure _

end Shading.Session
