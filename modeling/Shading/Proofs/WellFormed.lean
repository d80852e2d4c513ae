import Shading.Proofs.Keeps
import Shading.Proofs.Commit

/-!
# Well-formed sessions

A session is well-formed if every operation in a value has the operands it takes and every
variable that the scope or a value refers to exists.  No sequence of sources and
statements, well written or not, leads out of the well-formed sessions, and results are
well-formed as well.

The invariant compares a session with the one that the sequence started from: a value
is an old one or was built by a statement, and then its integers are in range; a
variable is an old one or was declared.

* `Call.keeps_step`: one call keeps the invariant.
* `wellFormed_after`: what holds after any sequence of calls.
-/

namespace Shading

/-! ## Expressions -/

namespace Expr

/-- Every operation has the operands it takes, and every variable is among the first `size`. -/
def WellFormed (size : Nat) : Expr → Prop
  | .unary operation input => operation.arity = 1 ∧ input.WellFormed size
  | .binary operation left right =>
      operation.arity = 2 ∧ left.WellFormed size ∧ right.WellFormed size
  | .var id => id < size
  | .literal _ => True
  | .name _ => True

/-- Every integer literal is a natural number below the signed bound of sixty-four bits. -/
def InRange : Expr → Prop
  | .unary _ input => input.InRange
  | .binary _ left right => left.InRange ∧ right.InRange
  | .literal (.int value) => 0 ≤ value ∧ value ≤ 2 ^ 63 - 1
  | .literal _ => True
  | .var _ => True
  | .name _ => True

theorem WellFormed.mono {size more : Nat} {e : Expr} (h : e.WellFormed size) (hle : size ≤ more) :
    e.WellFormed more := by
  induction e with
  | unary operation input ih => exact ⟨h.1, ih h.2⟩
  | binary operation left right ihleft ihright => exact ⟨h.1, ihleft h.2.1, ihright h.2.2⟩
  | var id => exact Nat.lt_of_lt_of_le h hle
  | literal value => trivial
  | name text => trivial

end Expr

theorem Literal.inRange_of_ofToken? {word : Text} {value : Literal}
    (h : ofToken? word = some value) : (Expr.literal value).InRange := by
  cases value with
  | int n =>
      unfold ofToken? at h
      split at h
      · simp at h
      split at h
      · simp at h
      split at h
      next numeral hread =>
        -- A literal with the suffix is unsigned, so this one has none and is below the bound.
        simp only [ofInteger, Option.some.injEq] at h
        split at h
        next =>
          split at h
          · simp at h
          split at h
          next hlt =>
            obtain rfl : (numeral.value : Int) = n := by simpa using h
            have hlt' : numeral.value < 2 ^ 63 := hlt
            exact ⟨by omega, by omega⟩
          · simp at h
        next => split at h <;> simp at h
      next => simp at h
  | bool b => trivial
  | uint n => trivial
  | float x => trivial

/-- Well-formedness and the range of integers are kept by resolving. -/
theorem closed_wellFormed {setting : Setting}
    (hscope : ∀ binding ∈ setting.scope.bindings, binding.2 < setting.known.length) :
    Closed setting fun n e => e.WellFormed n ∧ e.InRange where
  mono hle h := ⟨h.1.mono hle, h.2⟩
  bound := by
    intro n word id hn hfind
    have hid := hscope _ (Scope.mem_bindings_of_find? hfind)
    exact ⟨Nat.lt_of_lt_of_le hid hn, trivial⟩
  fresh _ hlt := ⟨hlt, trivial⟩
  literal h := ⟨trivial, Literal.inRange_of_ofToken? h⟩
  name := ⟨trivial, trivial⟩
  unary harity h := ⟨⟨harity, h.1⟩, h.2⟩
  binary harity ha hb := ⟨⟨harity, ha.1, hb.1⟩, ha.2, hb.2⟩

/-! ## Sessions -/

namespace Session

/-- Every variable in scope exists, and the values of variables are well-formed. -/
structure WellFormed (session : Session) : Prop where
  scope : ∀ binding ∈ session.scope.bindings, binding.2 < session.store.size
  values : ∀ id v e, session.store.get? id = some v → v.value = some e →
    e.WellFormed session.store.size

/-- A variable of a session with `size` variables that started from `initial`. -/
structure Grown (initial : Store) (size : Nat) (id : VariableId) (v : Variable) : Prop where
  wellFormed : ∀ e, v.value = some e → e.WellFormed size
  inRange : ∀ e, v.value = some e → e.InRange ∨
    ∃ old, initial.get? id = some old ∧ old.value = some e
  declared : initial.size ≤ id → v.IsDeclared

/-- What holds of a session that started from `initial`. -/
structure Sound (initial : Store) (session : Session) : Prop where
  scope : ∀ binding ∈ session.scope.bindings, binding.2 < session.store.size
  size_le : initial.size ≤ session.store.size
  all : session.store.All (Grown initial session.store.size)

theorem WellFormed.sound {session : Session} (h : session.WellFormed) :
    session.Sound session.store where
  scope := h.scope
  size_le := Nat.le_refl _
  all id v hv :=
    ⟨fun e => h.values id v e hv, fun e he => Or.inr ⟨v, hv, he⟩, fun hle => by
      rw [Store.get?_eq_none hle] at hv
      cases hv⟩

variable {initial : Store}

/-- A draft of which these properties hold is committed. -/
theorem Sound.commit {session : Session} (h : session.Sound initial) {draft : Draft}
    (hdraft : draft.Holds session.setting fun n e => e.WellFormed n ∧ e.InRange) :
    (session.commit draft).Sound initial := by
  have hcount : session.setting.count draft = (session.store.commit draft).size := by
    simp [Setting.count, Setting.labels, setting]
  have hle : session.store.size ≤ (session.store.commit draft).size := by simp
  refine ⟨fun binding hb => Nat.lt_of_lt_of_le (h.scope binding hb) hle,
    Nat.le_trans h.size_le hle, ?_⟩
  have hgrown : session.store.All (Grown initial (session.store.commit draft).size) := by
    intro id v hv
    have hold := h.all id v hv
    exact ⟨fun e he => (hold.wellFormed e he).mono hle, hold.inRange, hold.declared⟩
  refine hgrown.commit ?_ ?_
  · intro v hv id _
    obtain ⟨hdeclared, hvalue⟩ := hdraft.created v hv
    exact ⟨by simp [hvalue], by simp [hvalue], fun _ => hdeclared⟩
  · intro a ha v hgrown
    obtain ⟨hwellFormed, hinRange⟩ := hdraft.value a ha
    rw [hcount] at hwellFormed
    refine ⟨?_, ?_, fun hid => (hgrown.declared hid).set_value _⟩
    · intro e he
      obtain rfl : a.value = e := by simpa using he
      exact hwellFormed
    · intro e he
      obtain rfl : a.value = e := by simpa using he
      exact Or.inl hinRange

/-! ## Runs -/

open Shading.Action

/-- A step of a session that keeps the invariant. -/
abbrev Keeps {α : Type} (initial : Store) (n : Nat) (step : Run α) (post : Nat → α → Prop) : Prop :=
  Action.Keeps (Sound initial) (fun session => session.store.size) n step post

/-- What holds of a result when so many variables exist. -/
def Result (n : Nat) (e : Expr) : Prop :=
  e.WellFormed n ∧ e.InRange

variable {n : Nat}

theorem keeps_report (events : List Event) : Keeps initial n (report events) fun _ _ => True :=
  fun _ h _ => ⟨⟨h.scope, h.size_le, h.all⟩, Nat.le_refl _, fun _ _ => trivial⟩

theorem keeps_evaluate (parts : List Piece) :
    Keeps initial n (evaluate parts) fun m result => ∀ e ∈ result, Result m e := by
  intro session h hn
  have hscope : ∀ binding ∈ session.setting.scope.bindings,
      binding.2 < session.setting.known.length := by
    simpa [setting] using h.scope
  have hempty : Draft.Holds session.setting (fun n e => e.WellFormed n ∧ e.InRange) {} :=
    ⟨by simp, by simp, by simp⟩
  obtain ⟨hdraft, -, hpost⟩ := Statement.keeps_value (closed_wellFormed hscope) parts {} hempty
    (Nat.le_refl _)
  have hcount : ∀ draft, session.setting.count draft = (session.store.commit draft).size := by
    simp [Setting.count, Setting.labels, setting]
  -- What was drafted before a fault is committed as well.
  refine ⟨h.commit hdraft, ?_, ?_⟩
  · simp [evaluate, Action.run, commit]
  · intro result hresult e he
    have hvalue := hpost result hresult e he
    rw [hcount] at hvalue
    exact hvalue

/-- The variable that a statement resolves to exists, so it may enter the scope. -/
theorem keeps_enterScope {e : Expr} (he : Result n e) :
    Keeps initial n (.update (enterScope e)) fun _ _ => True := by
  intro session h hn
  have hentered : (enterScope e session).Sound initial := by
    unfold enterScope
    split
    next id _ _ =>
      split
      next name _ =>
        refine ⟨fun binding hb => ?_, h.size_le, h.all⟩
        rcases List.mem_cons.mp hb with rfl | hb
        · exact Nat.lt_of_lt_of_le he.1 hn
        · exact h.scope binding (List.mem_filter.mp hb).1
      · exact h
    · exact h
  refine ⟨hentered, ?_, fun _ _ => trivial⟩
  simp

theorem keeps_statement (text : Text) :
    Keeps initial n (statement text) fun m result => ∀ e ∈ result, Result m e := by
  unfold statement
  dsimp only
  split
  · exact keeps_pure (by simp)
  refine keeps_state.bind fun m session hm _ => ?_
  refine (keeps_ofExcept _).bind fun m parts hm _ => ?_
  refine (keeps_evaluate parts).bind fun k result hk hresult => ?_
  split
  · exact keeps_pure (by simp)
  next e =>
    have he := hresult e rfl
    refine (keeps_report _).bind fun l _ hl _ => ?_
    have hlater : Result l e := ⟨he.1.mono hl, he.2⟩
    refine (keeps_enterScope hlater).bind fun j _ hj _ => keeps_pure fun i hi => ?_
    intro e' he'
    obtain rfl : e = e' := by simpa using he'
    exact ⟨he.1.mono (by omega), he.2⟩

theorem keeps_statements (texts : List Text) :
    Keeps initial n (statements texts) fun m results => ∀ e ∈ results, Result m e := by
  induction texts generalizing n with
  | nil => exact keeps_pure (by simp)
  | cons first rest ih =>
      refine (keeps_statement first).bind fun m value hm hvalue => ?_
      refine ih.bind fun k values hk hvalues => keeps_pure fun j hj => ?_
      intro e he
      rcases List.mem_append.mp he with he | he
      · have hfirst := hvalue e (by simpa using he)
        exact ⟨hfirst.1.mono (by omega), hfirst.2⟩
      · have hlater := hvalues e he
        exact ⟨hlater.1.mono hj, hlater.2⟩

theorem keeps_source (text : Text) :
    Keeps initial n (source text) fun m results => ∀ e ∈ results, Result m e := by
  refine keeps_state.bind fun m session hm _ => ?_
  refine (keeps_report _).bind fun m _ hm _ => ?_
  refine (keeps_ofExcept _).bind fun m code hm _ => ?_
  refine (keeps_ofExcept _).bind fun m blocks hm _ => ?_
  exact keeps_statements _

end Session

/-! ## Calls -/

/-- What can be asked of a session: to read a source or a statement. -/
inductive Call where
  | source (text : Text)
  | statement (text : Text)
  deriving DecidableEq, Repr

namespace Call

/-- The step that a call is, with the results in a list. -/
def step : Call → Run (List Expr)
  | .source text => Session.source text
  | .statement text => do
      let result ← Session.statement text
      pure result.toList

theorem keeps_step {initial : Store} {n : Nat} (call : Call) :
    Session.Keeps initial n call.step fun m results => ∀ e ∈ results, Session.Result m e := by
  cases call with
  | source text => exact Session.keeps_source text
  | statement text =>
      refine (Session.keeps_statement text).bind fun m result _ hresult =>
        Action.keeps_pure fun k hk => ?_
      intro e he
      have hvalue := hresult e (by simpa using he)
      exact ⟨hvalue.1.mono hk, hvalue.2⟩

end Call

namespace Session

/-- The session after some calls, of which any may fail. -/
def after (session : Session) (calls : List Call) : Session :=
  calls.foldl (fun session call => (call.step.run session).2) session

theorem Sound.after {initial : Store} {session : Session} (h : session.Sound initial)
    (calls : List Call) : (session.after calls).Sound initial := by
  induction calls generalizing session with
  | nil => exact h
  | cons call rest ih => exact ih (call.keeps_step session h (Nat.le_refl _)).1

/-- After any calls a session is well-formed, integers that were not there before are in range,
and the variables that were not there before are declared ones; results of a further call
are well-formed and their integers in range. -/
theorem wellFormed_after {initial : Session} (h : initial.WellFormed) (calls : List Call) :
    let session := initial.after calls
    session.WellFormed ∧
    (∀ id v e, session.store.get? id = some v → v.value = some e →
      e.InRange ∨ ∃ old, initial.store.get? id = some old ∧ old.value = some e) ∧
    (∀ id v, initial.store.size ≤ id → session.store.get? id = some v → v.IsDeclared) ∧
    ∀ (call : Call) (results : List Expr) (session' : Session),
      call.step.run session = (.ok results, session') →
        ∀ e ∈ results, e.WellFormed session'.store.size ∧ e.InRange := by
  intro session
  have hsound : session.Sound initial.store := h.sound.after calls
  refine ⟨⟨hsound.scope, ?_⟩, ?_, ?_, ?_⟩
  · exact fun id v e hv he => (hsound.all id v hv).wellFormed e he
  · exact fun id v e hv he => (hsound.all id v hv).inRange e he
  · exact fun id v hid hv => (hsound.all id v hv).declared hid
  · intro call results session' hrun e he
    obtain ⟨-, -, hpost⟩ := call.keeps_step session hsound (Nat.le_refl _)
    rw [hrun] at hpost
    exact hpost results rfl e he

/-- A variable that occurs in its own value, declarations, and a source that fails half-way. -/
theorem wellFormed_after_fault :
    let x : Variable := .single .float (some ['x'])
    let initial : Session :=
      { options := { declares := true }
        scope := ⟨[(['x'], 0)]⟩
        store := ⟨#[{ x with value := some (.unary .negate (.var 0)) }]⟩ }
    let calls : List Call :=
      [.source "vec3 v = x; x = -x; 1 = 2; x = 3;".toList, .statement "int n = 4".toList]
    let session := initial.after calls
    initial.WellFormed ∧ session.store.size = 3 ∧ session.WellFormed ∧
    (∀ id v e, session.store.get? id = some v → v.value = some e →
      e.InRange ∨ ∃ old, initial.store.get? id = some old ∧ old.value = some e) ∧
    (∀ id v, initial.store.size ≤ id → session.store.get? id = some v → v.IsDeclared) ∧
    ∀ (call : Call) (results : List Expr) (session' : Session),
      call.step.run session = (.ok results, session') →
        ∀ e ∈ results, e.WellFormed session'.store.size ∧ e.InRange := by
  intro x initial calls session
  have hinitial : initial.WellFormed := by
    refine ⟨by decide, fun id v e hv he => ?_⟩
    cases id with
    | zero =>
        obtain rfl : _ = v := by simpa [initial, Store.get?] using hv
        obtain rfl : _ = e := by simpa using he
        exact ⟨rfl, Nat.one_pos⟩
    | succ id => simp [initial, Store.get?] at hv
  exact ⟨hinitial, by decide +kernel, wellFormed_after hinitial calls⟩

end Session

end Shading
