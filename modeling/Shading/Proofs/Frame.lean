import Shading.Proofs.Keeps
import Shading.Proofs.Commit
import Shading.Proofs.Rescan

/-!
# What evaluating a statement leaves alone

Evaluating a statement changes nothing of a variable but its value, and it sets values
of variables in scope and of its own variables only: the left side of an assignment is
a variable that the statement named or declared, never one that is merely reachable
through a value.

Without an assignment symbol nothing is set at all.  The sides of a split are scanned
again, so this needs that no side shows an assignment symbol that the fragment did not:
`unassigning_sides`, from the lemmas on rescanning.  `Inert` then says of each step of
resolving that it assigns nothing and that it does not fail for want of a variable.

* `evaluate_frame`: the effect of evaluating a statement on the variables that exist.
-/

namespace Shading

/-! ## Fragments without an assignment -/

namespace Occurrence

/-- No symbol of the fragment is an assignment. -/
def Unassigning (fragment : Text) : Prop :=
  ∀ symbol ∈ symbols fragment, symbol.role ≠ .assign

theorem unassigning_of_scan {fragment : Text} (h : ∀ o ∈ scan fragment, o.symbol.text ≠ ['=']) :
    Unassigning fragment := by
  intro symbol hsymbol hrole
  obtain ⟨o, ho, rfl⟩ := List.mem_map.mp hsymbol
  exact h o ho (Symbol.text_eq_of_role (symbol_mem_table ho) hrole)

theorem Unassigning.trim {text : Text} (h : Unassigning text) : Unassigning (Text.trim text) := by
  rw [Unassigning, symbols_trim]
  exact h

/-- The symbol at which a fragment is split and the symbols of both sides are symbols of it. -/
theorem Unassigning.split {fragment : Text} (h : Unassigning fragment) {o : Occurrence}
    (ho : o ∈ scan fragment) :
    o.symbol.role ≠ .assign ∧ Unassigning o.before ∧ Unassigning o.after := by
  have hsymbols := symbols_of_mem_scan ho
  refine ⟨h o.symbol ?_, fun symbol hsymbol => h symbol ?_, fun symbol hsymbol => h symbol ?_⟩
  · simp [hsymbols]
  · simp [hsymbols, hsymbol]
  · simp [hsymbols, hsymbol]

end Occurrence

/-- An item whose text, if it is one, has no assignment. -/
def Item.Unassigning : Item Expr → Prop
  | .text fragment => Occurrence.Unassigning fragment
  | .value _ => True

theorem Item.unassigning_ofText {text : Text} (h : Occurrence.Unassigning text) :
    ∀ item ∈ ofText text, item.Unassigning :=
  forall_mem_ofText h.trim

namespace SplitTree

/-- No split is at an assignment. -/
def Unassigning : SplitTree Expr → Prop
  | .leaf _ => True
  | .tooDeep _ => True
  | .split point left right =>
      point.symbol.role ≠ .assign ∧ left.Unassigning ∧ right.Unassigning

/-- Splitting a flat statement brings no new assignment to light. -/
theorem unassigning_sides {items : List (Item Expr)} (h : ∀ item ∈ items, item.Unassigning)
    {cut : Cut Expr} (hfind : Cut.find? items = some cut) :
    cut.point.symbol.role ≠ .assign ∧
      (∀ item ∈ cut.leftSide, item.Unassigning) ∧ ∀ item ∈ cut.rightSide, item.Unassigning := by
  obtain ⟨fragment, rfl, hpoint⟩ := Cut.exists_of_find? hfind
  have hfragment : Occurrence.Unassigning fragment := h (.text fragment) (by simp)
  obtain ⟨hrole, hbefore, hafter⟩ := hfragment.split (List.mem_filter.mp hpoint).1
  refine ⟨hrole, fun item hitem => ?_, fun item hitem => ?_⟩
  · rcases List.mem_append.mp hitem with hitem | hitem
    · exact h item (by simp [hitem])
    · exact Item.unassigning_ofText hbefore item hitem
  · rcases List.mem_append.mp hitem with hitem | hitem
    · exact Item.unassigning_ofText hafter item hitem
    · exact h item (by simp [hitem])

theorem unassigning_ofItems (levels : Nat) {items : List (Item Expr)}
    (h : ∀ item ∈ items, item.Unassigning) : (ofItems levels items).Unassigning := by
  induction levels generalizing items with
  | zero =>
      simp only [ofItems]
      split <;> trivial
  | succ levels ih =>
      simp only [ofItems]
      split
      next => trivial
      next cut hfind =>
        obtain ⟨hrole, hleft, hright⟩ := unassigning_sides h hfind
        exact ⟨hrole, ih hleft, ih hright⟩

end SplitTree

/-! ## Steps that assign nothing -/

namespace Drafting

variable {α β : Type} {post : α → Prop}

/-- The step assigns nothing and does not fail at an assignment, and `post` holds of its
result. -/
def Inert (step : Drafting α) (post : α → Prop) : Prop :=
  ∀ draft : Draft, (step.run draft).2.assignments = draft.assignments ∧
    match (step.run draft).1 with
    | .ok a => post a
    | .error fault => ∀ target, fault.cause ≠ .notAssignable target

theorem inert_pure {a : α} (h : post a) : Inert (pure a) post :=
  fun _ => ⟨rfl, h⟩

theorem inert_tooDeep (limit : Nat) (source : Text) :
    Inert (.fail ⟨.tooDeep limit, source⟩ : Drafting α) post :=
  fun _ => ⟨rfl, fun _ => Cause.noConfusion⟩

theorem inert_report (event : Event) : Inert (report event) fun _ => True :=
  fun _ => ⟨rfl, trivial⟩

theorem inert_create (setting : Setting) (v : Variable) :
    Inert (create setting v) fun _ => True :=
  fun _ => ⟨rfl, trivial⟩

theorem Inert.mono {step : Drafting α} (h : Inert step post) {post' : α → Prop}
    (hpost : ∀ a, post a → post' a) : Inert step post' := by
  intro draft
  obtain ⟨hassignments, hresult⟩ := h draft
  refine ⟨hassignments, ?_⟩
  split at hresult
  · exact hpost _ hresult
  · exact hresult

theorem Inert.bind {step : Drafting α} (h : Inert step post) {next : α → Drafting β}
    {last : β → Prop} (hnext : ∀ a, post a → Inert (next a) last) : Inert (step >>= next) last := by
  intro draft
  obtain ⟨hassignments, hresult⟩ := h draft
  cases hrun : step.run draft with
  | mk result after =>
      rw [hrun] at hassignments hresult
      cases result with
      | error fault =>
          rw [Action.run_bind_error hrun]
          exact ⟨hassignments, hresult⟩
      | ok a =>
          rw [Action.run_bind_ok hrun]
          obtain ⟨hrest, hlast⟩ := hnext a hresult after
          exact ⟨hrest.trans hassignments, hlast⟩

end Drafting

namespace Statement

open Drafting

variable {setting : Setting}

theorem inert_combine {point : Occurrence} (h : point.symbol.role ≠ .assign)
    (left right : Option Expr) : Inert (combine setting point left right) fun _ => True := by
  have hreport : ∀ (event : Event) (e : Expr),
      Inert (do report event; pure e) fun _ => True :=
    fun event _ => (inert_report event).bind fun _ _ => inert_pure trivial
  cases left with
  | none =>
      cases right with
      | none => exact hreport _ _
      | some right =>
          simp only [combine]
          split
          · exact inert_pure trivial
          · exact inert_pure trivial
          · exact hreport _ _
  | some left =>
      cases right with
      | none => exact hreport _ _
      | some right =>
          simp only [combine]
          split
          next hrole => exact absurd hrole h
          next => exact inert_pure trivial
          next => exact inert_pure trivial
          next => exact hreport _ _

theorem inert_item (i : Item Expr) : Inert (item setting i) fun _ => True := by
  cases i with
  | value result => exact inert_pure trivial
  | text fragment =>
      rw [item]
      split
      next => exact inert_pure trivial
      next v _ => exact (inert_create setting v).bind fun _ _ => inert_pure trivial

theorem inert_leaf (items : List (Item Expr)) : Inert (leaf setting items) fun _ => True := by
  have hsome : ∀ i : Item Expr,
      Inert (do let result ← item setting i; pure (some result)) fun _ => True :=
    fun i => (inert_item i).bind fun _ _ => inert_pure trivial
  cases items with
  | nil => exact inert_pure trivial
  | cons first rest =>
      cases rest with
      | nil => exact hsome first
      | cons second more => exact (inert_report _).bind fun _ _ => hsome first

theorem inert_tree {splits : SplitTree Expr} (h : splits.Unassigning) :
    Inert (tree setting splits) fun _ => True := by
  induction splits with
  | leaf items => exact inert_leaf items
  | tooDeep point => exact inert_tooDeep _ _
  | split point left right ihleft ihright =>
      obtain ⟨hrole, hleft, hright⟩ := h
      refine (inert_report _).bind fun _ _ => ?_
      refine (ihleft hleft).bind fun leftValue _ => (ihright hright).bind fun rightValue _ => ?_
      exact (inert_combine hrole leftValue rightValue).bind fun _ _ => inert_pure trivial

theorem inert_flat (levels : Nat) {items : List (Item Expr)}
    (h : ∀ i ∈ items, i.Unassigning) : Inert (flat setting levels items) fun _ => True :=
  inert_tree (SplitTree.unassigning_ofItems (levels + 1) h)

mutual

theorem inert_piece : ∀ (levels : Nat) (part : Piece),
    (∀ fragment ∈ part.fragments, Occurrence.Unassigning fragment) →
      Inert (piece setting levels part) fun items => ∀ i ∈ items, i.Unassigning
  | levels, .text fragment, h => by
      rw [piece]
      refine inert_pure fun i hi => ?_
      rw [List.mem_singleton.mp hi]
      exact h fragment (by simp)
  | 0, .group inner, h => by
      rw [piece]
      exact inert_tooDeep _ _
  | levels + 1, .group inner, h => by
      rw [piece]
      refine (inert_pieces levels inner (by simpa using h)).bind fun items hitems => ?_
      refine (inert_flat levels hitems).bind fun result _ => inert_pure fun i hi => ?_
      obtain ⟨e, -, rfl⟩ := List.mem_map.mp hi
      trivial

theorem inert_pieces : ∀ (levels : Nat) (parts : List Piece),
    (∀ fragment ∈ Piece.allFragments parts, Occurrence.Unassigning fragment) →
      Inert (pieces setting levels parts) fun items => ∀ i ∈ items, i.Unassigning
  | levels, [], _ => by
      rw [pieces]
      exact inert_pure (by simp)
  | levels, first :: rest, h => by
      rw [pieces]
      have hfirst := inert_piece levels first fun fragment hfragment =>
        h fragment (by simp [hfragment])
      have hrest := inert_pieces levels rest fun fragment hfragment =>
        h fragment (by simp [hfragment])
      refine hfirst.bind fun firstItems hfirstItems => hrest.bind fun restItems hrestItems => ?_
      refine inert_pure fun i hi => ?_
      rcases List.mem_append.mp hi with hi | hi
      · exact hfirstItems i hi
      · exact hrestItems i hi

end

/-- A statement without an assignment symbol assigns nothing. -/
theorem inert_value {parts : List Piece}
    (h : ∀ fragment ∈ Piece.allFragments parts, Occurrence.Unassigning fragment) :
    Inert (value setting parts) fun _ => True :=
  (inert_pieces setting.limit parts h).bind fun _ hitems => inert_flat setting.limit hitems

end Statement

/-! ## Targets -/

/-- A variable in scope, or one that did not exist before. -/
def Setting.Reaches (setting : Setting) (id : VariableId) : Prop :=
  setting.known.length ≤ id ∨ ∃ key, setting.scope.find? key = some id

/-- Every variable that a statement resolves to is in scope or its own. -/
theorem closed_reaches (setting : Setting) :
    Closed setting fun _ e => ∀ id, e = .var id → setting.Reaches id where
  mono _ h := h
  bound := by
    rintro _ word _ _ hfind id ⟨⟩
    exact Or.inr ⟨word, hfind⟩
  fresh := by
    rintro _ _ hle _ id ⟨⟩
    exact Or.inl hle
  literal := by rintro _ _ _ _ id ⟨⟩
  name := by rintro _ _ id ⟨⟩
  unary := by rintro _ _ _ _ _ id ⟨⟩
  binary := by rintro _ _ _ _ _ _ _ id ⟨⟩

theorem Assignment.last?_eq_none {id : VariableId} {assignments : List Assignment}
    (h : ∀ a ∈ assignments, a.target ≠ id) : last? id assignments = none := by
  induction assignments with
  | nil => rfl
  | cons a rest ih =>
      rw [last?, ih fun b hb => h b (List.mem_cons_of_mem _ hb)]
      simp [h a (List.mem_cons_self ..)]

/-- A statement assigns to no variable that exists and is not in scope. -/
theorem Statement.written?_of_scope {setting : Setting} {id : VariableId}
    (hid : id < setting.known.length) (hscope : ∀ key, setting.scope.find? key ≠ some id)
    (parts : List Piece) : ((value setting parts).run {}).2.written? id = none := by
  have hempty : Draft.Holds setting (fun _ e => ∀ id, e = .var id → setting.Reaches id) {} :=
    ⟨by simp, by simp, by simp⟩
  obtain ⟨hdraft, -, -⟩ := keeps_value (closed_reaches setting) parts {} hempty (Nat.le_refl _)
  refine Assignment.last?_eq_none ?_
  rintro a ha rfl
  rcases hdraft.target a ha a.target rfl with hnew | ⟨key, hkey⟩
  · exact Nat.not_lt.mpr hnew hid
  · exact hscope key hkey

/-! ## Sessions -/

namespace Session

theorem get?_evaluate {session : Session} {id : VariableId} {v : Variable}
    (h : session.store.get? id = some v) (parts : List Piece) :
    ((evaluate parts).run session).2.store.get? id =
      some (v.write (((Statement.value session.setting parts).run {}).2.written? id)) := by
  have hcommit := Store.get?_commit (Store.lt_size_of_get? h)
    ((Statement.value session.setting parts).run {}).2
  rw [h, Option.map_some] at hcommit
  exact hcommit

/-- Evaluating a statement, with or without a fault, leaves a variable as it is but for its
value, and the value as well if the variable is not in scope; if no fragment has the symbol
`=`, it leaves every variable as it is and is not refused an assignment. -/
theorem evaluate_frame (session : Session) (parts : List Piece) :
    let result := ((evaluate parts).run session).1
    let after := ((evaluate parts).run session).2
    (∀ id v, session.store.get? id = some v →
      ∃ value, after.store.get? id = some { v with value }) ∧
    (∀ id v, session.store.get? id = some v → (∀ key, session.scope.find? key ≠ some id) →
      after.store.get? id = some v) ∧
    ((∀ fragment ∈ Piece.allFragments parts, ∀ o ∈ Occurrence.scan fragment,
        o.symbol.text ≠ ['=']) →
      (∀ id v, session.store.get? id = some v → after.store.get? id = some v) ∧
      ∀ fault target, result = .error fault → fault.cause ≠ .notAssignable target) := by
  intro result after
  refine ⟨fun id v hv => ?_, fun id v hv hscope => ?_, fun hfree => ?_⟩
  · have hget := get?_evaluate hv parts
    cases hwritten : ((Statement.value session.setting parts).run {}).2.written? id with
    | none => exact ⟨v.value, by rw [hget, hwritten]; rfl⟩
    | some e => exact ⟨some e, by rw [hget, hwritten]; rfl⟩
  · have hlt : id < session.setting.known.length := by
      simpa [setting] using Store.lt_size_of_get? hv
    have hget := get?_evaluate hv parts
    rw [Statement.written?_of_scope hlt hscope parts, Variable.write_none] at hget
    exact hget
  · have hunassigning : ∀ fragment ∈ Piece.allFragments parts, Occurrence.Unassigning fragment :=
      fun fragment hfragment => Occurrence.unassigning_of_scan (hfree fragment hfragment)
    have hinert : Drafting.Inert (Statement.value session.setting parts) fun _ => True :=
      Statement.inert_value hunassigning
    obtain ⟨hassignments, houtcome⟩ := hinert {}
    refine ⟨fun id v hv => ?_, fun fault target hfault => ?_⟩
    · have hget := get?_evaluate hv parts
      rw [Draft.written?, hassignments] at hget
      exact hget
    · have hsame : ((Statement.value session.setting parts).run {}).1 = .error fault := hfault
      rw [hsame] at houtcome
      exact houtcome target

/-- A statement that assigns to `x` and then fails does not touch `y`, which is out of scope and
occurs in the value of `x`; comparisons do not touch either of them. -/
theorem evaluate_frame_comparisons :
    let x : Variable := .single .float (some ['x'])
    let y : Variable := .single .float (some ['y'])
    let session : Session :=
      { scope := ⟨[(['x'], 0)]⟩, store := ⟨#[{ x with value := some (.var 1) }, y]⟩ }
    let assigning : List Piece :=
      [.group [.text "x = 1".toList], .text ['+'], .group [.text "2 = x".toList]]
    let comparing : List Piece :=
      [.text "x <= 1 !=".toList, .group [.text "x == 2 >= -x".toList]]
    (∀ key, session.scope.find? key ≠ some 1) ∧
    ((evaluate assigning).run session).1 = .error ⟨.notAssignable "Int(2)".toList, "2 = x".toList⟩ ∧
    ((evaluate assigning).run session).2.store.get? 0 =
      some { x with value := some (.literal (.int 1)) } ∧
    ((evaluate assigning).run session).2.store.get? 1 = some y ∧
    (∀ fragment ∈ Piece.allFragments comparing, ∀ o ∈ Occurrence.scan fragment,
      o.symbol.text ≠ ['=']) ∧
    (∀ id v, session.store.get? id = some v →
      ((evaluate comparing).run session).2.store.get? id = some v) ∧
    ∀ fault target, ((evaluate comparing).run session).1 = .error fault →
      fault.cause ≠ .notAssignable target := by
  intro x y session assigning comparing
  have hscope : ∀ key, session.scope.find? key ≠ some 1 := by
    intro key
    cases hkey : key == ['x'] <;> simp [session, Scope.find?, List.lookup_cons, hkey]
  have hfree : ∀ fragment ∈ Piece.allFragments comparing, ∀ o ∈ Occurrence.scan fragment,
      o.symbol.text ≠ ['='] := by
    decide +kernel
  obtain ⟨-, hframe, -⟩ := evaluate_frame session assigning
  obtain ⟨-, -, hcomparing⟩ := evaluate_frame session comparing
  obtain ⟨hkept, hnoFault⟩ := hcomparing hfree
  exact ⟨hscope, by decide +kernel, by decide +kernel, hframe 1 y rfl hscope, hfree, hkept,
    hnoFault⟩

end Session

end Shading
