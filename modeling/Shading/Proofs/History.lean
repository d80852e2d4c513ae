import Shading.Proofs.WellFormed
import Shading.Proofs.Agreement

/-!
# How the scope changes in the course of a session

Calls read statements one after the other, and only what a statement gives can enter the
scope.  `Session.history` lists every statement that a sequence of calls reads, across
the calls and up to the first fault within each of them, with the session that it is read
in; so the states between two statements of one source are states of the history too.

* `Step.find?_after`: what one statement does to the scope.
* `chained_history`: each statement is read in the state that the one before it left.
* `find?_afterSteps`: what any number of statements do to the scope.
* `scope_history`: the same for every state that a sequence of calls passes through.
-/

namespace Shading

theorem Scope.find?_insert (scope : Scope) (key other : Text) (id : VariableId) :
    (scope.insert key id).find? other = if other = key then some id else scope.find? other := by
  by_cases hother : other = key
  · rw [if_pos hother, hother, find?_insert_self]
  have hfilter : ∀ bindings : List (Text × VariableId),
      (bindings.filter fun binding => binding.1 != key).lookup other = bindings.lookup other := by
    intro bindings
    induction bindings with
    | nil => rfl
    | cons binding rest ih =>
        obtain ⟨bound, target⟩ := binding
        by_cases hbound : bound = key
        · have hne : (other == bound) = false := by simpa [hbound] using hother
          simp [hbound, List.lookup_cons, ih, hbound ▸ hne]
        · simp [hbound, List.lookup_cons, ih]
  have hne : (other == key) = false := by simpa using hother
  rw [if_neg hother, insert, find?, List.lookup_cons, hne]
  exact hfilter scope.bindings

/-! ## One statement -/

/-- A statement in the course of a session: its text, and the session that it is read in. -/
structure Step where
  text : Text
  before : Session

namespace Step

/-- What the statement gives. -/
def outcome (step : Step) : Except Fault (Option Expr) :=
  ((Session.statement step.text).run step.before).1

/-- The session after the statement. -/
def after (step : Step) : Session :=
  ((Session.statement step.text).run step.before).2

/-- The named variable that the statement gives, with its name. -/
def returned? (step : Step) : Option (Text × VariableId) :=
  match step.outcome with
  | .ok (some (.var id)) => ((step.after.store.get? id).bind (·.name)).map fun name => (name, id)
  | _ => none

theorem options_after (step : Step) : step.after.options = step.before.options := by
  obtain ⟨events, hrun⟩ := Session.run_statement_enter step.before step.text
  rw [after, hrun]
  unfold Session.enter Session.enterScope
  repeat' split
  all_goals rfl

theorem store_after (step : Step) :
    step.after.store = step.before.store.commit (step.before.resolve step.text).2 := by
  obtain ⟨events, hrun⟩ := Session.run_statement_enter step.before step.text
  rw [after, hrun]
  unfold Session.enter
  split
  · rw [Session.store_enterScope]
  · rfl

/-- A variable keeps its name. -/
theorem name_after (step : Step) {id : VariableId} {name : Text}
    (h : (step.before.store.get? id).bind (·.name) = some name) :
    (step.after.store.get? id).bind (·.name) = some name := by
  obtain ⟨v, hv, hname⟩ := Option.bind_eq_some_iff.mp h
  rw [store_after, Store.get?_commit (Store.lt_size_of_get? hv), hv]
  cases (step.before.resolve step.text).2.written? id with
  | none => exact hname
  | some e => exact hname

theorem scope_after (step : Step) :
    step.after.scope =
      match step.before.options.declares, step.returned? with
      | true, some (name, id) => step.before.scope.insert name id
      | _, _ => step.before.scope := by
  obtain ⟨events, hrun⟩ := Session.run_statement_enter step.before step.text
  unfold returned? outcome after
  rw [hrun]
  cases (step.before.resolve step.text).1 with
  | error fault => simp [Session.enter]
  | ok value =>
      cases value with
      | none => simp [Session.enter]
      | some e =>
          cases e with
          | var id =>
              simp only [Session.enter, Session.store_enterScope]
              unfold Session.enterScope
              cases step.before.options.declares with
              | false => rfl
              | true =>
                  dsimp only
                  cases (Store.get? _ id).bind (·.name) <;> rfl
          | unary operation input => simp [Session.enter, Session.enterScope]
          | binary operation left right => simp [Session.enter, Session.enterScope]
          | literal value => simp [Session.enter, Session.enterScope]
          | name text => simp [Session.enter, Session.enterScope]

/-- A returned variable has the name that it is returned with. -/
theorem name_of_returned? {step : Step} {name : Text} {id : VariableId}
    (h : step.returned? = some (name, id)) :
    (step.after.store.get? id).bind (·.name) = some name := by
  unfold returned? at h
  split at h
  · obtain ⟨found, hfound, hpair⟩ := Option.map_eq_some_iff.mp h
    obtain ⟨rfl, rfl⟩ := Prod.mk.inj hpair
    exact hfound
  · simp at h

/-- The variable that the last statement to give one of this name gives. -/
def latest? (name : Text) (steps : List Step) : Option VariableId :=
  (steps.filterMap returned?).reverse.lookup name

theorem latest?_append (name : Text) (earlier later : List Step) :
    latest? name (earlier ++ later) = (latest? name later).or (latest? name earlier) := by
  simp [latest?, List.lookup_append]

/-- What a statement does to the scope. -/
theorem find?_after {step : Step} (h : step.before.options.declares = true) (key : Text) :
    step.after.scope.find? key = (latest? key [step]).or (step.before.scope.find? key) := by
  rw [scope_after, h]
  cases hreturned : step.returned? with
  | none => simp [latest?, hreturned]
  | some binding =>
      obtain ⟨name, id⟩ := binding
      dsimp only
      rw [Scope.find?_insert]
      by_cases hkey : key = name
      · simp [latest?, hreturned, hkey]
      · have hne : (key == name) = false := by simpa using hkey
        simp [latest?, hreturned, hkey, List.lookup_cons, hne]

end Step

/-! ## Sequences of statements -/

namespace Session

/-- Each statement is read in the state that the one before it left. -/
def Chained : Session → List Step → Prop
  | _, [] => True
  | session, step :: rest => step.before.Agrees session ∧ step.after.Chained rest

/-- The session after the last of some statements. -/
def afterSteps : Session → List Step → Session
  | session, [] => session
  | _, step :: rest => step.after.afterSteps rest

theorem Agrees.afterSteps {session other : Session} (h : session.Agrees other)
    (steps : List Step) : (session.afterSteps steps).Agrees (other.afterSteps steps) := by
  cases steps with
  | nil => exact h
  | cons step rest => exact .refl _

theorem Agrees.chained {session other : Session} (h : session.Agrees other) {steps : List Step}
    (hchained : session.Chained steps) : other.Chained steps := by
  cases steps with
  | nil => trivial
  | cons step rest => exact ⟨hchained.1.trans h, hchained.2⟩

theorem afterSteps_append (session : Session) (earlier later : List Step) :
    session.afterSteps (earlier ++ later) = (session.afterSteps earlier).afterSteps later := by
  induction earlier generalizing session with
  | nil => rfl
  | cons step rest ih => exact ih step.after

theorem chained_append {session : Session} {earlier later : List Step} :
    session.Chained (earlier ++ later) ↔
      session.Chained earlier ∧ (session.afterSteps earlier).Chained later := by
  induction earlier generalizing session with
  | nil => simp [Chained, afterSteps]
  | cons step rest ih =>
      simp only [List.cons_append, Chained, afterSteps, ih, and_assoc]

variable {session : Session} {steps : List Step}

theorem Chained.options_eq (h : session.Chained steps) :
    (session.afterSteps steps).options = session.options := by
  induction steps generalizing session with
  | nil => rfl
  | cons step rest ih =>
      calc (step.after.afterSteps rest).options
          = step.after.options := ih h.2
        _ = step.before.options := step.options_after
        _ = session.options := h.1.options

theorem Chained.options_of_mem (h : session.Chained steps) {step : Step} (hstep : step ∈ steps) :
    step.before.options = session.options := by
  obtain ⟨earlier, later, rfl⟩ := List.append_of_mem hstep
  obtain ⟨hearlier, hlater⟩ := chained_append.mp h
  rw [hlater.1.options, hearlier.options_eq]

/-- Without declarations the scope stays as it is. -/
theorem Chained.scope_eq (h : session.Chained steps)
    (hdeclares : session.options.declares = false) :
    (session.afterSteps steps).scope = session.scope := by
  induction steps generalizing session with
  | nil => rfl
  | cons step rest ih =>
      have hbefore : step.before.options.declares = false := by rw [h.1.options, hdeclares]
      have hafter : step.after.options.declares = false := by rw [step.options_after, hbefore]
      calc (step.after.afterSteps rest).scope
          = step.after.scope := ih h.2 hafter
        _ = step.before.scope := by rw [step.scope_after, hbefore]
        _ = session.scope := h.1.scope

/-- What some statements do to the scope: a key is bound to the variable of that name that was
given last, and as before if none was given. -/
theorem Chained.find?_afterSteps (h : session.Chained steps)
    (hdeclares : session.options.declares = true) (key : Text) :
    (session.afterSteps steps).scope.find? key =
      (Step.latest? key steps).or (session.scope.find? key) := by
  induction steps generalizing session with
  | nil => rfl
  | cons step rest ih =>
      have hbefore : step.before.options.declares = true := by rw [h.1.options, hdeclares]
      have hafter : step.after.options.declares = true := by rw [step.options_after, hbefore]
      calc (step.after.afterSteps rest).scope.find? key
          = (Step.latest? key rest).or (step.after.scope.find? key) := ih h.2 hafter
        _ = (Step.latest? key rest).or
              ((Step.latest? key [step]).or (session.scope.find? key)) := by
            rw [Step.find?_after hbefore, h.1.scope]
        _ = (Step.latest? key (step :: rest)).or (session.scope.find? key) := by
            rw [← Option.or_assoc, ← Step.latest?_append, List.singleton_append]

/-- Every key is the name of the variable that it is bound to. -/
def Named (session : Session) : Prop :=
  ∀ key id, session.scope.find? key = some id →
    (session.store.get? id).bind (·.name) = some key

theorem Named.after {step : Step} (h : step.before.Named) : step.after.Named := by
  intro key id hfind
  rw [step.scope_after] at hfind
  split at hfind
  next name given _ hreturned =>
    rw [Scope.find?_insert] at hfind
    split at hfind
    next heq =>
      obtain rfl : given = id := by simpa using hfind
      rw [heq]
      exact Step.name_of_returned? hreturned
    next => exact step.name_after (h key id hfind)
  next => exact step.name_after (h key id hfind)

theorem Named.afterSteps (h : session.Named) (hchained : session.Chained steps) :
    (session.afterSteps steps).Named := by
  induction steps generalizing session with
  | nil => exact h
  | cons step rest ih =>
      have hbefore : step.before.Named := by
        intro key id hfind
        rw [hchained.1.scope] at hfind
        rw [hchained.1.store]
        exact h key id hfind
      exact ih hbefore.after hchained.2

/-! ## The statements of calls -/

/-- The statements of a list that are read: all up to the first that fails. -/
def stepsFrom : Session → List Text → List Step
  | _, [] => []
  | session, text :: rest =>
      let step : Step := ⟨text, session⟩
      match step.outcome with
      | .ok _ => step :: step.after.stepsFrom rest
      | .error _ => [step]

theorem chained_stepsFrom (session : Session) (texts : List Text) :
    session.Chained (session.stepsFrom texts) := by
  induction texts generalizing session with
  | nil => trivial
  | cons text rest ih =>
      rw [stepsFrom]
      split
      · exact ⟨.refl _, ih _⟩
      · exact ⟨.refl _, trivial⟩

theorem run_statements (session : Session) (texts : List Text) :
    ((statements texts).run session).2 = session.afterSteps (session.stepsFrom texts) := by
  induction texts generalizing session with
  | nil => rfl
  | cons text rest ih =>
      rw [statements, stepsFrom]
      cases hrun : (statement text).run session with
      | mk outcome next =>
          have houtcome : (Step.mk text session).outcome = outcome := by rw [Step.outcome, hrun]
          have hafter : (Step.mk text session).after = next := by rw [Step.after, hrun]
          rw [houtcome]
          cases outcome with
          | error fault =>
              rw [Action.run_bind_error hrun]
              exact hafter.symm
          | ok value =>
              rw [Action.run_bind_ok hrun, afterSteps, hafter, ← ih next]
              cases hrest : (statements rest).run next with
              | mk others last =>
                  cases others with
                  | error fault => rw [Action.run_bind_error hrest]
                  | ok values => rw [Action.run_bind_ok hrest, Action.run_pure]

theorem options_run_statements (session : Session) (texts : List Text) :
    ((statements texts).run session).2.options = session.options := by
  rw [run_statements]
  exact (chained_stepsFrom session texts).options_eq

end Session

namespace Call

/-- The statements that a call has to read. -/
def texts (limit : Nat) : Call → List Text
  | .statement text => [text]
  | .source text =>
      match Source.code text >>= Brackets.curly.cut limit with
      | .ok blocks => Piece.allStatements blocks
      | .error _ => []

/-- The session in which a call starts to read statements. -/
def start : Call → Session → Session
  | .statement _, session => session
  | .source text, session => { session with events := session.events ++ Source.events text }

theorem agrees_start (call : Call) (session : Session) : (call.start session).Agrees session := by
  cases call with
  | statement text => exact .refl _
  | source text => exact ⟨rfl, rfl, rfl⟩

/-- The statements that a call reads. -/
def steps (call : Call) (session : Session) : List Step :=
  (call.start session).stepsFrom (call.texts session.options.limit)

theorem run_step (call : Call) (session : Session) :
    (call.step.run session).2 = (call.start session).afterSteps (call.steps session) := by
  cases call with
  | statement text =>
      have hsteps : session.stepsFrom [text] = [⟨text, session⟩] := by
        rw [Session.stepsFrom, Session.stepsFrom]
        split <;> rfl
      rw [steps, texts, start, hsteps, step]
      cases hrun : (Session.statement text).run session with
      | mk outcome next =>
          have hafter : (Step.mk text session).after = next := by rw [Step.after, hrun]
          cases outcome with
          | error fault =>
              rw [Action.run_bind_error hrun, Session.afterSteps, hafter]
              rfl
          | ok value =>
              rw [Action.run_bind_ok hrun, Session.afterSteps, hafter]
              rfl
  | source text =>
      rw [step, Session.run_source, steps, texts]
      cases Source.code text >>= Brackets.curly.cut session.options.limit with
      | ok blocks => exact Session.run_statements _ _
      | error fault => rfl

end Call

namespace Session

/-- Every statement that calls read, in order. -/
def history : Session → List Call → List Step
  | _, [] => []
  | session, call :: rest => call.steps session ++ (call.step.run session).2.history rest

/-- The history leads from the session before the calls to the session after them. -/
theorem chained_history (session : Session) (calls : List Call) :
    session.Chained (session.history calls) ∧
      (session.after calls).Agrees (session.afterSteps (session.history calls)) := by
  induction calls generalizing session with
  | nil => exact ⟨trivial, .refl _⟩
  | cons call rest ih =>
      obtain ⟨hchained, hafter⟩ := ih (call.step.run session).2
      have hstart := call.agrees_start session
      have hnext :
          ((call.step.run session).2).Agrees (session.afterSteps (call.steps session)) := by
        rw [call.run_step]
        exact hstart.afterSteps _
      have hfirst := hstart.chained (chained_stepsFrom _ (call.texts session.options.limit))
      refine ⟨chained_append.mpr ⟨hfirst, hnext.chained hchained⟩, ?_⟩
      rw [history, afterSteps_append]
      exact hafter.trans (hnext.afterSteps _)

/-- The scope in every state that calls pass through.  Unless the session declares, it is that of
the beginning.  If it does, a statement changes it only if it gives a named variable, and then
at most at that name; so no key is lost, and a key is bound to the variable of that name that
was given last, or as in the beginning.  And if keys were names, they stay so. -/
theorem scope_history (initial : Session) (calls : List Call) :
    initial.Chained (initial.history calls) ∧
    (initial.after calls).Agrees (initial.afterSteps (initial.history calls)) ∧
    (initial.options.declares = false → ∀ steps, steps <+: initial.history calls →
      (initial.afterSteps steps).scope = initial.scope) ∧
    (initial.options.declares = true →
      (∀ step ∈ initial.history calls,
        (step.returned? = none → step.after.scope = step.before.scope) ∧
        ∀ name id, step.returned? = some (name, id) → step.after.scope.find? name = some id ∧
          ∀ key, key ≠ name → step.after.scope.find? key = step.before.scope.find? key) ∧
      (∀ earlier steps, earlier <+: steps → steps <+: initial.history calls → ∀ key,
        (initial.afterSteps earlier).scope.find? key ≠ none →
          (initial.afterSteps steps).scope.find? key ≠ none) ∧
      ∀ steps, steps <+: initial.history calls → ∀ key,
        (initial.afterSteps steps).scope.find? key =
          (Step.latest? key steps).or (initial.scope.find? key)) ∧
    (initial.Named → ∀ steps, steps <+: initial.history calls →
      (initial.afterSteps steps).Named) := by
  obtain ⟨hchained, hafter⟩ := chained_history initial calls
  have hinitial : ∀ {steps}, steps <+: initial.history calls → initial.Chained steps := by
    rintro steps ⟨later, hlater⟩
    rw [← hlater] at hchained
    exact (chained_append.mp hchained).1
  refine ⟨hchained, hafter, fun hdeclares steps hsteps => (hinitial hsteps).scope_eq hdeclares,
    fun hdeclares => ⟨fun step hstep => ?_, ?_, fun steps hsteps key =>
      (hinitial hsteps).find?_afterSteps hdeclares key⟩,
    fun hnamed steps hsteps => hnamed.afterSteps (hinitial hsteps)⟩
  · have hbefore : step.before.options.declares = true := by
      rw [hchained.options_of_mem hstep, hdeclares]
    have hscope := step.scope_after
    rw [hbefore] at hscope
    refine ⟨fun hreturned => ?_, fun name id hreturned => ?_⟩
    · rw [hscope, hreturned]
    · rw [hscope, hreturned]
      refine ⟨Scope.find?_insert_self .., fun key hkey => ?_⟩
      rw [Scope.find?_insert, if_neg hkey]
  · rintro earlier steps ⟨more, rfl⟩ hsteps key hbound
    have hearlier : earlier <+: initial.history calls := (List.prefix_append ..).trans hsteps
    rw [(hinitial hearlier).find?_afterSteps hdeclares] at hbound
    rw [(hinitial hsteps).find?_afterSteps hdeclares, Step.latest?_append, Option.or_assoc]
    simp [hbound]

/-- A name is declared twice, the second time in a block whose source then fails. -/
theorem scope_history_redeclared :
    let initial : Session :=
      { options := { declares := true }
        scope := ⟨[(['x'], 0)]⟩
        store := ⟨#[.single .float (some ['x'])]⟩ }
    let quiet : Session := { initial with options := {} }
    let calls : List Call :=
      [.source "float a = x; \x7b x = a; int a; 1 = 2; float b; \x7d".toList, .statement ['x']]
    let history := initial.history calls
    initial.options.declares = true ∧ initial.Named ∧ history.length = 6 ∧
    Step.latest? ['a'] history = some 2 ∧ Step.latest? ['b'] history = none ∧
    (initial.afterSteps history).scope.find? ['a'] =
      (Step.latest? ['a'] history).or (initial.scope.find? ['a']) ∧
    (initial.afterSteps history).scope.find? ['b'] =
      (Step.latest? ['b'] history).or (initial.scope.find? ['b']) ∧
    (initial.afterSteps history).Named ∧
    quiet.options.declares = false ∧
    (quiet.afterSteps (quiet.history calls)).scope = quiet.scope := by
  intro initial quiet calls history
  have hnamed : initial.Named := by
    intro key id hfind
    cases hkey : key == ['x'] with
    | false => simp [initial, Scope.find?, List.lookup_cons, hkey] at hfind
    | true =>
        obtain rfl : 0 = id := by simpa [initial, Scope.find?, List.lookup_cons, hkey] using hfind
        rw [eq_of_beq hkey]
        rfl
  obtain ⟨-, -, -, hdeclaring, hnames⟩ := scope_history initial calls
  obtain ⟨-, -, hlatest⟩ := hdeclaring rfl
  obtain ⟨-, -, hquiet, -⟩ := scope_history quiet calls
  exact ⟨rfl, hnamed, by decide +kernel, by decide +kernel, by decide +kernel,
    hlatest history (List.prefix_refl _) ['a'], hlatest history (List.prefix_refl _) ['b'],
    hnames hnamed history (List.prefix_refl _), rfl, hquiet rfl _ (List.prefix_refl _)⟩

end Session

end Shading
