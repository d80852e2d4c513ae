import Mathlib.Data.List.Forall2
import Shading.Proofs.Renaming
import Shading.Proofs.Commit

/-!
# Statements are independent

Unless a session lets variables enter its scope, what a statement resolves to does not
depend on the statements before it.  Those have set values and created variables; values
are never looked at, and the created variables are out of reach, so they only move the
identities of the variables that are created next.

`Session.resolve` is what a statement gives and drafts.  `shift n k` keeps the first `n`
variables and makes room for `k` more behind them, and the main step is `resolve_shift`:
after other statements a statement resolves to the same, up to a shift.

* `Replayed`: a run of several statements, put together from what each gives alone.
* `independent`: the same for whole sources, with the fault of one that fails.
-/

namespace Shading

/-! ## Making room -/

/-- Keeps the first `n` variables and makes room for `k` variables behind them. -/
def shift (n k id : Nat) : Nat :=
  if id < n then id else id + k

theorem shift_of_lt {n id : Nat} (h : id < n) (k : Nat) : shift n k id = id :=
  if_pos h

theorem shift_of_le {n id : Nat} (h : n ≤ id) (k : Nat) : shift n k id = id + k :=
  if_neg (Nat.not_lt.mpr h)

theorem shift_injective {n k id other : Nat} (h : shift n k id = shift n k other) : id = other := by
  unfold shift at h
  split at h <;> split at h <;> omega

theorem mirror_shift {setting : Setting}
    (hscope : ∀ binding ∈ setting.scope.bindings, binding.2 < setting.known.length)
    (extra : List Variable.Label) :
    setting.Mirror (shift setting.known.length extra.length)
      { setting with known := setting.known ++ extra } where
  scope := rfl
  limit := rfl
  bound := by
    intro word id hfind
    have hlt : id < setting.known.length := hscope _ (Scope.mem_bindings_of_find? hfind)
    exact shift_of_lt hlt _
  next := by
    intro draft
    rw [shift_of_le (by simp [Setting.labels])]
    simp only [Setting.labels, Draft.rename, List.length_append, List.length_map]
    omega
  look := by
    intro draft (id : Nat)
    have hlabels : ∀ ρ : VariableId → VariableId,
        (draft.rename ρ).created.map Variable.label = draft.created.map Variable.label := by
      simp [Draft.rename, Function.comp_def]
    simp only [Setting.look, Setting.labels, hlabels]
    -- The extra labels stand between those that were known and those of the draft.
    by_cases hlt : id < setting.known.length
    · rw [shift_of_lt hlt, List.getElem?_append_left (by simp; omega),
        List.getElem?_append_left hlt, List.getElem?_append_left hlt]
    · have hle : setting.known.length ≤ id := Nat.le_of_not_lt hlt
      rw [shift_of_le hle, List.getElem?_append_right (by simp; omega),
        List.getElem?_append_right hle]
      congr 1
      simp only [List.length_append]
      omega

/-! ## One statement -/

namespace Session

/-- What a statement gives, and what it drafts. -/
def resolve (session : Session) (text : Text) : Except Fault (Option Expr) × Draft :=
  let trimmed := Text.trim text
  if trimmed.isEmpty then (.ok none, {})
  else
    match Brackets.paren.cut session.options.limit trimmed with
    | .error fault => (.error fault, {})
    | .ok parts => (Statement.value session.setting parts).run {}

/-- Lets the result of a statement enter the scope, if it has one and the session is set to do
so. -/
def enter : (outcome : Except Fault (Option Expr)) → (session : Session) → Session
  | .ok (some e), session => enterScope e session
  | _, session => session

theorem enter_of_not_declares {session : Session} (h : session.options.declares = false)
    (outcome : Except Fault (Option Expr)) : enter outcome session = session := by
  unfold enter
  split
  · unfold enterScope
    rw [h]
  · rfl

/-- Reading a statement gives what it resolves to and commits what it drafts, and then the result
may enter the scope. -/
theorem run_statement_enter (session : Session) (text : Text) :
    ∃ events, (statement text).run session = ((session.resolve text).1,
      enter (session.resolve text).1
        { session with
          store := session.store.commit (session.resolve text).2
          events := session.events ++ events }) := by
  unfold statement resolve
  dsimp only
  split
  · exact ⟨[], by simp [enter]⟩
  next =>
    rw [Action.run_bind_ok (Action.run_state session)]
    split
    next fault hcut =>
      rw [hcut, Action.run_bind_error (Action.run_ofExcept _ session)]
      exact ⟨[], by simp [enter]⟩
    next parts hcut =>
      rw [hcut, Action.run_bind_ok (Action.run_ofExcept _ session)]
      have hrun := run_evaluate parts session
      cases hvalue : (Statement.value session.setting parts).run {} with
      | mk result draft =>
          rw [hvalue] at hrun
          cases result with
          | error fault =>
              rw [Action.run_bind_error hrun]
              exact ⟨draft.events, rfl⟩
          | ok value =>
              rw [Action.run_bind_ok hrun]
              cases value with
              | none => exact ⟨draft.events, rfl⟩
              | some e =>
                  refine ⟨draft.events ++ [.resolved (Text.trim text) e], ?_⟩
                  simp [Action.run_bind, report, commit, enter, -bind_pure_comp]

/-- The same in a session whose scope stays as it is. -/
theorem run_statement {session : Session} (h : session.options.declares = false) (text : Text) :
    ∃ events, (statement text).run session = ((session.resolve text).1,
      { session with
        store := session.store.commit (session.resolve text).2
        events := session.events ++ events }) := by
  obtain ⟨events, hrun⟩ := run_statement_enter session text
  rw [enter_of_not_declares (by exact h)] at hrun
  exact ⟨events, hrun⟩

/-- A later state of a session in which `k` variables were created. -/
structure Later (session : Session) (k : Nat) (later : Session) : Prop where
  options : later.options = session.options
  scope : later.scope = session.scope
  labels : ∃ extra, later.store.labels = session.store.labels ++ extra ∧ extra.length = k

theorem Later.size {session later : Session} {k : Nat} (h : session.Later k later) :
    later.store.size = session.store.size + k := by
  obtain ⟨extra, hlabels, rfl⟩ := h.labels
  rw [← Store.length_labels later.store, hlabels, List.length_append, Store.length_labels]

theorem Later.commit {session later : Session} {k : Nat} (h : session.Later k later) (draft : Draft)
    (events : List Event) :
    session.Later (k + draft.created.length)
      { later with store := later.store.commit draft, events } := by
  obtain ⟨extra, hlabels, hlength⟩ := h.labels
  refine ⟨h.options, h.scope, extra ++ draft.created.map Variable.label, ?_, ?_⟩
  · rw [Store.labels_commit, hlabels, List.append_assoc]
  · rw [List.length_append, List.length_map, hlength]

/-- Every variable in scope exists. -/
def Allocated (session : Session) : Prop :=
  ∀ binding ∈ session.scope.bindings, binding.2 < session.store.size

/-- Later on a statement resolves to the same, up to a shift. -/
theorem resolve_shift {session later : Session} {k : Nat} (hscope : session.Allocated)
    (h : session.Later k later) (text : Text) :
    later.resolve text =
      ((session.resolve text).1.map (Option.map (Expr.rename (shift session.store.size k))),
        (session.resolve text).2.rename (shift session.store.size k)) := by
  obtain ⟨extra, hlabels, rfl⟩ := h.labels
  have hsetting : later.setting =
      { session.setting with known := session.setting.known ++ extra } := by
    simp [setting, h.options, h.scope, hlabels]
  have hknown : ∀ binding ∈ session.setting.scope.bindings,
      binding.2 < session.setting.known.length := by
    simpa [setting, Allocated] using hscope
  have hmirror := mirror_shift hknown extra
  have hlength : session.setting.known.length = session.store.size := by simp [setting]
  rw [← hsetting, hlength] at hmirror
  unfold resolve
  rw [h.options]
  dsimp only
  split
  · rfl
  next =>
    split
    · rfl
    next parts _ => exact Statement.mirrors_value hmirror parts {}

end Session

/-! ## Committing a shifted draft -/

theorem Variable.write_rename (ρ : VariableId → VariableId) (v : Variable) (e : Option Expr) :
    (v.rename ρ).write (e.map (Expr.rename ρ)) = (v.write e).rename ρ := by
  cases e <;> rfl

section Shift

variable {n k : Nat}

theorem last?_shift (id : Nat) (assignments : List Assignment) :
    Assignment.last? (shift n k id) (assignments.map (Assignment.rename (shift n k))) =
      (Assignment.last? id assignments).map (Expr.rename (shift n k)) := by
  induction assignments with
  | nil => rfl
  | cons a rest ih =>
      rw [List.map_cons, Assignment.last?, Assignment.last?, ih]
      cases Assignment.last? id rest with
      | some e => rfl
      | none =>
          by_cases heq : a.target = id
          · simp [Assignment.rename, heq]
          · have hne : ¬ shift n k a.target = shift n k id := fun h => heq (shift_injective h)
            simp [Assignment.rename, heq, hne]

theorem written?_shift {id : Nat} (h : id < n) (draft : Draft) :
    (draft.rename (shift n k)).written? id = (draft.written? id).map (Expr.rename (shift n k)) := by
  have hlast := @last?_shift n k id draft.assignments
  rw [shift_of_lt h] at hlast
  exact hlast

/-- Between the first `n` variables and those created now nothing is assigned to. -/
theorem written?_shift_eq_none {id : Nat} (hle : n ≤ id) (hlt : id < n + k) (draft : Draft) :
    (draft.rename (shift n k)).written? id = none := by
  have hnone : ∀ assignments : List Assignment,
      Assignment.last? id (assignments.map (Assignment.rename (shift n k))) = none := by
    intro assignments
    induction assignments with
    | nil => rfl
    | cons a rest ih =>
        have hne : shift n k a.target ≠ id := by
          unfold shift
          split
          · have hlow : a.target < n := by assumption
            exact Nat.ne_of_lt (Nat.lt_of_lt_of_le hlow hle)
          · omega
        rw [List.map_cons, Assignment.last?, ih]
        simp [Assignment.rename, hne]
  exact hnone draft.assignments

/-- The variables that a draft creates, `k` places further on. -/
theorem get?_commit_shift {store later : Store} (hsize : later.size = store.size + k)
    (draft : Draft)
    {id : Nat} (h : store.size ≤ id) :
    (later.commit (draft.rename (shift store.size k))).get? (id + k) =
      ((store.commit draft).get? id).map (Variable.rename (shift store.size k)) := by
  have hlast := @last?_shift store.size k id draft.assignments
  rw [shift_of_le h] at hlast
  have hplace : id + k - later.size = id - store.size := by omega
  have hnew : ¬ id + k < later.size := by omega
  rw [Store.commit, Store.get?_assignAll, Store.get?_append, if_neg hnew, hplace,
    Store.commit, Store.get?_assignAll, Store.get?_append, if_neg (Nat.not_lt.mpr h)]
  simp only [Draft.rename, hlast, List.getElem?_map, Option.map_map]
  congr 1
  funext v
  exact v.write_rename _ _

end Shift

/-! ## Several statements -/

namespace Session

/-- Whether a statement resolves to anything. -/
def hasValue (session : Session) (text : Text) : Bool :=
  match (session.resolve text).1 with
  | .ok none => false
  | _ => true

/-- The variables that a statement alone creates are in another session, `k` places further on. -/
def Moved (session : Session) (text : Text) (k : Nat) (final : Session) : Prop :=
  ∀ id v, session.store.size ≤ id →
    (session.store.commit (session.resolve text).2).get? id = some v →
      final.store.get? (id + k) = some (v.rename (shift session.store.size k))

/-- A result is that of a statement alone, up to renaming the variables that it creates. -/
def Copies (session final : Session) (result : Expr) (text : Text) : Prop :=
  ∃ e k, (session.resolve text).1 = .ok (some e) ∧
    result = e.rename (shift session.store.size k) ∧ session.Moved text k final

/-- What becomes of a variable: none of the statements assigns to it and it stays as it is, or
it has the value from the last one that does. -/
def LastWritten (session : Session) (texts : List Text) (final : Session) (id : VariableId)
    (v : Variable) : Prop :=
  ((∀ text ∈ texts, (session.resolve text).2.written? id = none) ∧ final.store.get? id = some v) ∨
    ∃ before text after e k, texts = before ++ text :: after ∧
      (session.resolve text).2.written? id = some e ∧
      (∀ other ∈ after, (session.resolve other).2.written? id = none) ∧
      session.Moved text k final ∧
      final.store.get? id = some { v with value := some (e.rename (shift session.store.size k)) }

/-- A run of statements from a later state of a session, without a fault. -/
structure Replayed (session later : Session) (texts : List Text) (results : List Expr)
    (final : Session) : Prop where
  succeeds : ∀ text ∈ texts, ∃ result, (session.resolve text).1 = .ok result
  copies : List.Forall₂ (session.Copies final) results (texts.filter session.hasValue)
  written : ∀ {id v}, id < session.store.size → later.store.get? id = some v →
    session.LastWritten texts final id v
  frame : ∀ {id}, session.store.size ≤ id → id < later.store.size →
    final.store.get? id = later.store.get? id

variable {session later final : Session} {k : Nat}

/-- The session after one statement, of which the fate is known from what it gives alone. -/
theorem Later.run_statement (hdeclares : session.options.declares = false)
    (hscope : session.Allocated) (h : session.Later k later) (text : Text) :
    ∃ next, (statement text).run later =
        ((session.resolve text).1.map (Option.map (Expr.rename (shift session.store.size k))),
          next) ∧
      session.Later (k + (session.resolve text).2.created.length) next ∧
      next.store =
        later.store.commit ((session.resolve text).2.rename (shift session.store.size k)) := by
  obtain ⟨events, hrun⟩ := Session.run_statement (by rw [h.options]; exact hdeclares) text
  rw [resolve_shift hscope h text] at hrun
  have hlater := h.commit ((session.resolve text).2.rename (shift session.store.size k))
    (later.events ++ events)
  have hcreated : ((session.resolve text).2.rename (shift session.store.size k)).created.length =
      (session.resolve text).2.created.length := by
    simp [Draft.rename]
  rw [hcreated] at hlater
  exact ⟨_, hrun, hlater, rfl⟩

theorem Replayed.nil : session.Replayed later [] [] later where
  succeeds := by simp
  copies := .nil
  written := fun _ hv => Or.inl ⟨by simp, hv⟩
  frame := fun _ _ => rfl

/-- A variable that one more statement in front may assign to. -/
theorem LastWritten.cons {text : Text} {rest : List Text} {id : VariableId} {v : Variable}
    (hmoved : session.Moved text k final)
    (h : session.LastWritten rest final id
      (v.write (((session.resolve text).2.written? id).map
        (Expr.rename (shift session.store.size k))))) :
    session.LastWritten (text :: rest) final id v := by
  cases hwritten : (session.resolve text).2.written? id with
  | none =>
      rw [hwritten, Option.map_none, Variable.write_none] at h
      rcases h with ⟨hnone, hfinal⟩ | ⟨before, other, after, e, j, rfl, hlast⟩
      · refine Or.inl ⟨fun other hother => ?_, hfinal⟩
        rcases List.mem_cons.mp hother with rfl | hother
        · exact hwritten
        · exact hnone other hother
      · exact Or.inr ⟨text :: before, other, after, e, j, rfl, hlast⟩
  | some e =>
      rw [hwritten, Option.map_some, Variable.write_some] at h
      -- This statement is the last one to assign, unless one of the rest is.
      rcases h with ⟨hnone, hfinal⟩ | ⟨before, other, after, e', j, rfl, hlast⟩
      · exact Or.inr ⟨[], text, rest, e, k, rfl, hwritten, hnone, hmoved, hfinal⟩
      · exact Or.inr ⟨text :: before, other, after, e', j, rfl, hlast⟩

/-- One more statement in front. -/
theorem Replayed.cons {next : Session} {text : Text} {rest : List Text} {results : List Expr}
    {value : Option Expr} (hlater : session.Later k later)
    (hvalue : (session.resolve text).1 = .ok value)
    (hstore : next.store =
      later.store.commit ((session.resolve text).2.rename (shift session.store.size k)))
    (h : session.Replayed next rest results final) :
    session.Replayed later (text :: rest)
      ((value.map (Expr.rename (shift session.store.size k))).toList ++ results) final := by
  have hsize := hlater.size
  have hle : later.store.size ≤ next.store.size := by
    rw [hstore, Store.size_commit]
    omega
  -- The rest of the run leaves the variables of this statement alone.
  have hmoved : session.Moved text k final := by
    intro id v hid hv
    have hnext := get?_commit_shift hsize (session.resolve text).2 hid
    rw [← hstore, hv, Option.map_some] at hnext
    rw [h.frame (by omega) (Store.lt_size_of_get? hnext), hnext]
  refine ⟨?_, ?_, ?_, ?_⟩
  · intro other hother
    rcases List.mem_cons.mp hother with rfl | hother
    · exact ⟨value, hvalue⟩
    · exact h.succeeds other hother
  · cases value with
    | none =>
        have hskip : session.hasValue text = false := by simp [hasValue, hvalue]
        rw [List.filter_cons_of_neg (by simp [hskip])]
        exact h.copies
    | some e =>
        have hkeep : session.hasValue text = true := by simp [hasValue, hvalue]
        rw [List.filter_cons_of_pos hkeep]
        exact .cons ⟨e, k, hvalue, rfl, hmoved⟩ h.copies
  · intro id v hid hv
    have hlt : id < later.store.size := by omega
    refine LastWritten.cons hmoved (h.written hid ?_)
    rw [hstore, Store.get?_commit hlt, written?_shift hid, hv, Option.map_some]
  · intro id hid hlt
    rw [h.frame hid (by omega), hstore, Store.get?_commit hlt,
      written?_shift_eq_none hid (by omega)]
    simp

/-- Statements that run without a fault from a later state. -/
theorem replayed_of_run (hdeclares : session.options.declares = false)
    (hscope : session.Allocated) {texts : List Text} {results : List Expr}
    (hlater : session.Later k later) (hrun : (statements texts).run later = (.ok results, final)) :
    session.Replayed later texts results final := by
  -- Every statement of the run starts from a later state of the one session.
  induction texts generalizing later k results with
  | nil =>
      obtain ⟨rfl, rfl⟩ : [] = results ∧ later = final := by simpa [statements] using hrun
      exact .nil
  | cons text rest ih =>
      obtain ⟨next, hstatement, hnext, hstore⟩ := hlater.run_statement hdeclares hscope text
      rw [statements] at hrun
      cases hvalue : (session.resolve text).1 with
      | error fault =>
          rw [hvalue] at hstatement
          rw [Action.run_bind_error hstatement] at hrun
          simp at hrun
      | ok value =>
          rw [hvalue] at hstatement
          rw [Action.run_bind_ok hstatement] at hrun
          cases hrest : (statements rest).run next with
          | mk outcome last =>
              cases outcome with
              | error fault =>
                  rw [Action.run_bind_error hrest] at hrun
                  simp at hrun
              | ok values =>
                  rw [Action.run_bind_ok hrest, Action.run_pure] at hrun
                  obtain ⟨rfl, rfl⟩ : _ = results ∧ last = final := by simpa using hrun
                  exact .cons hlater hvalue hstore (ih hnext hrest)

/-- Statements of which one fails: the fault is that of the first that fails alone. -/
theorem fault_of_run (hdeclares : session.options.declares = false) (hscope : session.Allocated)
    {texts : List Text} {fault : Fault} (hlater : session.Later k later)
    (hrun : (statements texts).run later = (.error fault, final)) :
    ∃ before text after, texts = before ++ text :: after ∧
      (∀ other ∈ before, ∃ result, (session.resolve other).1 = .ok result) ∧
      (session.resolve text).1 = .error fault := by
  induction texts generalizing later final k with
  | nil => simp [statements] at hrun
  | cons text rest ih =>
      obtain ⟨next, hstatement, hnext, -⟩ := hlater.run_statement hdeclares hscope text
      rw [statements] at hrun
      cases hvalue : (session.resolve text).1 with
      | error first =>
          rw [hvalue] at hstatement
          rw [Action.run_bind_error hstatement] at hrun
          obtain ⟨rfl, -⟩ : first = fault ∧ _ := by simpa using hrun
          exact ⟨[], text, rest, rfl, by simp, hvalue⟩
      | ok value =>
          rw [hvalue] at hstatement
          rw [Action.run_bind_ok hstatement] at hrun
          cases hrest : (statements rest).run next with
          | mk outcome last =>
              cases outcome with
              | ok values =>
                  rw [Action.run_bind_ok hrest] at hrun
                  simp at hrun
              | error other =>
                  rw [Action.run_bind_error hrest] at hrun
                  obtain ⟨rfl, -⟩ : other = fault ∧ _ := by simpa using hrun
                  obtain ⟨before, failing, after, rfl, hbefore, hfailing⟩ := ih hnext hrest
                  refine ⟨text :: before, failing, after, rfl, fun earlier hearlier => ?_, hfailing⟩
                  rcases List.mem_cons.mp hearlier with rfl | hearlier
                  · exact ⟨value, hvalue⟩
                  · exact hbefore earlier hearlier

/-! ## Sources -/

/-- Reading a source is reading its statements, once it is cut into blocks. -/
theorem run_source (session : Session) (text : Text) :
    (source text).run session =
      match Source.code text >>= Brackets.curly.cut session.options.limit with
      | .ok blocks => (statements (Piece.allStatements blocks)).run
          { session with events := session.events ++ Source.events text }
      | .error fault =>
          (.error fault, { session with events := session.events ++ Source.events text }) := by
  have hreport : (report (Source.events text)).run session =
      (.ok (), { session with events := session.events ++ Source.events text }) := rfl
  unfold source
  rw [Action.run_bind_ok (Action.run_state session), Action.run_bind_ok hreport]
  cases Source.code text with
  | error fault => rfl
  | ok code =>
      rw [Action.run_bind_ok (Action.run_ofExcept _ _)]
      change _ = match Brackets.curly.cut session.options.limit code with
        | .ok blocks => _
        | .error fault => _
      cases Brackets.curly.cut session.options.limit code with
      | error fault => rfl
      | ok blocks => rfl

theorem run_source_ok {text : Text} {blocks : List Piece}
    (h : (Source.code text >>= Brackets.curly.cut session.options.limit) = .ok blocks) :
    (source text).run session = (statements (Piece.allStatements blocks)).run
      { session with events := session.events ++ Source.events text } := by
  rw [run_source, h]

theorem run_source_error {text : Text} {fault : Fault}
    (h : (Source.code text >>= Brackets.curly.cut session.options.limit) = .error fault) :
    ((source text).run session).1 = .error fault := by
  rw [run_source, h]

theorem later_self (session : Session) (events : List Event) :
    session.Later 0 { session with events } :=
  ⟨rfl, rfl, [], by simp, rfl⟩

end Session

/-- Two stores that agree on everything but values. -/
def Store.SameButValues (store other : Store) : Prop :=
  ∀ id, (store.get? id).map (fun v => { v with value := none }) =
    (other.get? id).map fun v => { v with value := none }

theorem Store.SameButValues.labels_eq {store other : Store} (h : store.SameButValues other) :
    store.labels = other.labels := by
  refine List.ext_getElem? fun id => ?_
  have hid := congrArg (Option.map Variable.label) (h id)
  simpa [getElem?_labels, Function.comp_def] using hid

namespace Session

/-- Values have no influence on what a statement does; and unless variables enter the scope, no
statement of a source has an influence on what another one does. -/
theorem independent (session : Session) :
    (∀ (other : Session) (parts : List Piece), other.scope = session.scope →
      other.options.limit = session.options.limit → session.store.SameButValues other.store →
        ∃ result draft, (evaluate parts).run session = (result, session.commit draft) ∧
          (evaluate parts).run other = (result, other.commit draft)) ∧
    (session.options.declares = false → session.Allocated →
      (∀ text, ∃ events, (statement text).run session = ((session.resolve text).1,
        { session with
          store := session.store.commit (session.resolve text).2
          events := session.events ++ events })) ∧
      (∀ text results final, (source text).run session = (.ok results, final) →
        ∃ blocks, (Source.code text >>= Brackets.curly.cut session.options.limit) = .ok blocks ∧
          (∀ part ∈ Piece.allStatements blocks, ∃ result, (session.resolve part).1 = .ok result) ∧
          List.Forall₂ (session.Copies final) results
            ((Piece.allStatements blocks).filter session.hasValue) ∧
          ∀ id v, session.store.get? id = some v →
            session.LastWritten (Piece.allStatements blocks) final id v) ∧
      ∀ text blocks fault final,
        (Source.code text >>= Brackets.curly.cut session.options.limit) = .ok blocks →
        (source text).run session = (.error fault, final) →
          ∃ before failing after, Piece.allStatements blocks = before ++ failing :: after ∧
            (∀ earlier ∈ before, ∃ result, (session.resolve earlier).1 = .ok result) ∧
            (session.resolve failing).1 = .error fault) := by
  refine ⟨?_, fun hdeclares hscope => ⟨run_statement hdeclares, ?_, ?_⟩⟩
  · intro other parts hscope hlimit hstore
    have hsetting : other.setting = session.setting := by
      simp [setting, hscope, hlimit, hstore.labels_eq]
    refine ⟨_, _, run_evaluate parts session, ?_⟩
    rw [run_evaluate, hsetting]
  · intro text results final hrun
    cases hblocks : Source.code text >>= Brackets.curly.cut session.options.limit with
    | error fault =>
        have herror := run_source_error hblocks
        rw [hrun] at herror
        cases herror
    | ok blocks =>
        rw [run_source_ok hblocks] at hrun
        have hreplayed := replayed_of_run hdeclares hscope (later_self session _) hrun
        refine ⟨blocks, rfl, hreplayed.succeeds, hreplayed.copies, fun id v hv => ?_⟩
        exact hreplayed.written (Store.lt_size_of_get? hv) hv
  · intro text blocks fault final hblocks hrun
    rw [run_source_ok hblocks] at hrun
    exact fault_of_run hdeclares hscope (later_self session _) hrun

/-- Two declarations, and a variable that is assigned to twice. -/
theorem independent_sequence :
    let x : Variable := .single .float (some ['x'])
    let session : Session := { scope := ⟨[(['x'], 0)]⟩, store := ⟨#[x]⟩ }
    let other : Session :=
      { session with store := ⟨#[{ x with value := some (.unary .negate (.var 0)) }]⟩ }
    let text : Text := "float a = x; x = a + 2; float b = x; x = b;".toList
    session.store.SameButValues other.store ∧ session.options.declares = false ∧
    session.Allocated ∧
    (∃ result draft,
      (evaluate [.text "x = -x".toList]).run session = (result, session.commit draft) ∧
      (evaluate [.text "x = -x".toList]).run other = (result, other.commit draft)) ∧
    ∃ final blocks, (source text).run session = (.ok [.var 1, .var 0, .var 2, .var 0], final) ∧
      (Source.code text >>= Brackets.curly.cut session.options.limit) = .ok blocks ∧
      List.Forall₂ (session.Copies final) [.var 1, .var 0, .var 2, .var 0]
        ((Piece.allStatements blocks).filter session.hasValue) ∧
      session.LastWritten (Piece.allStatements blocks) final 0 x := by
  intro x session other text
  have hsame : session.store.SameButValues other.store := by
    intro id
    cases id with
    | zero => rfl
    | succ id => simp [session, other, Store.get?]
  have hscope : session.Allocated := by
    intro binding hbinding
    rw [List.mem_singleton.mp hbinding]
    exact Nat.one_pos
  have hrun : ((source text).run session).1 = .ok [.var 1, .var 0, .var 2, .var 0] := by
    decide +kernel
  obtain ⟨hvalues, hstatements⟩ := independent session
  obtain ⟨-, haccepted, -⟩ := hstatements rfl hscope
  have hcopied := haccepted text
  generalize (source text).run session = run at hrun hcopied ⊢
  obtain ⟨outcome, final⟩ := run
  obtain rfl : outcome = .ok [.var 1, .var 0, .var 2, .var 0] := hrun
  obtain ⟨blocks, hblocks, -, hcopies, hwritten⟩ := hcopied _ final rfl
  exact ⟨hsame, rfl, hscope, hvalues other _ rfl rfl hsame, final, blocks, rfl, hblocks, hcopies,
    hwritten 0 x rfl⟩

end Session

end Shading
