import Shading.Session
import Shading.Proofs.Declared

/-!
# Renaming variables

Resolving a statement treats the identities of variables as names: it never compares or
computes them, except that a created variable gets the next one.  So two settings that
differ only in which variables there are lead to results, faults, created variables,
assignments and events that differ by a renaming only.

`Setting.Mirror` says when a renaming relates two settings.  `Mirrors` relates two steps,
and there is one lemma for each function of `Statement`; the splits of a flat statement
do not depend on its values at all (`SplitTree.map_ofItems`).

* `mirrors_value`: resolving a statement commutes with the renaming.
-/

namespace Shading

/-! ## Renaming -/

/-- An expression with its variables renamed. -/
def Expr.rename (ρ : VariableId → VariableId) : Expr → Expr
  | .unary operation input => .unary operation (input.rename ρ)
  | .binary operation left right => .binary operation (left.rename ρ) (right.rename ρ)
  | .var id => .var (ρ id)
  | .literal value => .literal value
  | .name text => .name text

/-- A variable with the variables in its value renamed. -/
def Variable.rename (ρ : VariableId → VariableId) (v : Variable) : Variable :=
  { v with value := v.value.map (Expr.rename ρ) }

@[simp] theorem Variable.label_rename (ρ : VariableId → VariableId) (v : Variable) :
    (v.rename ρ).label = v.label := rfl

/-- Applies a function to the value that an item is. -/
def Item.map {α β : Type} (f : α → β) : Item α → Item β
  | .text fragment => .text fragment
  | .value a => .value (f a)

/-- An event with the variables in it renamed. -/
def Event.rename (ρ : VariableId → VariableId) : Event → Event
  | .keptFirst items => .keptFirst (items.map (Item.map (Expr.rename ρ)))
  | .droppedLeft fragment symbol left => .droppedLeft fragment symbol (left.rename ρ)
  | .missingOperand fragment symbol operand => .missingOperand fragment symbol (operand.rename ρ)
  | .resolved statement result => .resolved statement (result.rename ρ)
  | event => event

/-- An assignment with its target and the variables in its value renamed. -/
def Assignment.rename (ρ : VariableId → VariableId) (a : Assignment) : Assignment :=
  ⟨ρ a.target, a.value.rename ρ⟩

/-- A draft with the variables in it renamed. -/
def Draft.rename (ρ : VariableId → VariableId) (draft : Draft) : Draft where
  created := draft.created.map (Variable.rename ρ)
  assignments := draft.assignments.map (Assignment.rename ρ)
  events := draft.events.map (Event.rename ρ)

/-! ## Splits -/

section Splits

variable {α β : Type} (f : α → β)

/-- A cut with its values changed. -/
def Cut.map (cut : Cut α) : Cut β where
  left := cut.left.map (Item.map f)
  point := cut.point
  right := cut.right.map (Item.map f)

theorem Item.map_ofText (text : Text) :
    (ofText text : List (Item α)).map (Item.map f) = ofText text := by
  simp [ofText, Function.comp_def, Item.map]

theorem Cut.leftSide_map (cut : Cut α) : (cut.map f).leftSide = cut.leftSide.map (Item.map f) := by
  simp [Cut.leftSide, Cut.map, Item.map_ofText]

theorem Cut.rightSide_map (cut : Cut α) :
    (cut.map f).rightSide = cut.rightSide.map (Item.map f) := by
  simp [Cut.rightSide, Cut.map, Item.map_ofText]

theorem Cut.find?_map (items : List (Item α)) :
    find? (items.map (Item.map f)) = (find? items).map (Cut.map f) := by
  induction items with
  | nil => rfl
  | cons item rest ih =>
      have hfirst : inFirst? (item.map f) (rest.map (Item.map f)) =
          (inFirst? item rest).map (Cut.map f) := by
        cases item with
        | value a => rfl
        | text fragment =>
            simp only [inFirst?, Item.map, Option.map_map]
            rfl
      rw [List.map_cons, find?, find?, hfirst, ih]
      cases inFirst? item rest with
      | none => cases find? rest <;> rfl
      | some first =>
          cases find? rest with
          | none => rfl
          | some later =>
              have hlevel : ∀ cut : Cut α, (cut.map f).level = cut.level := fun _ => rfl
              simp only [Option.map_some, hlevel]
              split <;> rfl

/-- A tree of splits with its values changed. -/
def SplitTree.map : SplitTree α → SplitTree β
  | .leaf items => .leaf (items.map (Item.map f))
  | .tooDeep point => .tooDeep point
  | .split point left right => .split point left.map right.map

/-- How a flat statement splits does not depend on its values. -/
theorem SplitTree.map_ofItems (levels : Nat) (items : List (Item α)) :
    ofItems levels (items.map (Item.map f)) = (ofItems levels items).map f := by
  induction levels generalizing items with
  | zero =>
      simp only [ofItems, Cut.find?_map]
      cases Cut.find? items <;> rfl
  | succ levels ih =>
      simp only [ofItems, Cut.find?_map]
      cases Cut.find? items with
      | none => rfl
      | some cut =>
          simp only [Option.map_some, Cut.leftSide_map, Cut.rightSide_map, ih]
          rfl

end Splits

/-! ## Steps -/

/-- Two settings that a renaming relates: the same scope, whose variables keep their names, and
the next variable and the labels of all variables correspond. -/
structure Setting.Mirror (ρ : VariableId → VariableId) (setting setting' : Setting) : Prop where
  scope : setting'.scope = setting.scope
  bound : ∀ {word id}, setting.scope.find? word = some id → ρ id = id
  limit : setting'.limit = setting.limit
  next : ∀ draft, (setting'.labels (draft.rename ρ)).length = ρ (setting.labels draft).length
  look : ∀ draft id, setting'.look (draft.rename ρ) (ρ id) = setting.look draft id

namespace Drafting

variable {α β γ δ : Type} {ρ : VariableId → VariableId}

/-- From renamed drafts the second step does what the first does, renamed; `f` renames
results. -/
def Mirrors (ρ : VariableId → VariableId) (f : α → β) (step : Drafting α) (step' : Drafting β) :
    Prop :=
  ∀ draft : Draft,
    step'.run (draft.rename ρ) = ((step.run draft).1.map f, (step.run draft).2.rename ρ)

theorem mirrors_pure {f : α → β} (a : α) : Mirrors ρ f (pure a) (pure (f a)) :=
  fun _ => rfl

theorem mirrors_fail {f : α → β} (fault : Fault) : Mirrors ρ f (.fail fault) (.fail fault) :=
  fun _ => rfl

theorem mirrors_report (event : Event) : Mirrors ρ id (report event) (report (event.rename ρ)) := by
  intro draft
  simp [report, Draft.rename, Except.map]

theorem mirrors_assign (target : VariableId) (e : Expr) :
    Mirrors ρ id (assign target e) (assign (ρ target) (e.rename ρ)) := by
  intro draft
  simp [assign, Draft.rename, Assignment.rename, Except.map]

theorem Mirrors.bind {f : α → β} {g : γ → δ} {step : Drafting α} {step' : Drafting β}
    (h : Mirrors ρ f step step') {next : α → Drafting γ} {next' : β → Drafting δ}
    (hnext : ∀ a, Mirrors ρ g (next a) (next' (f a))) :
    Mirrors ρ g (step >>= next) (step' >>= next') := by
  intro draft
  have hrun := h draft
  cases hstep : step.run draft with
  | mk result after =>
      rw [hstep] at hrun
      cases result with
      | error fault =>
          rw [Action.run_bind_error hrun, Action.run_bind_error hstep]
          rfl
      | ok a =>
          rw [Action.run_bind_ok hrun, Action.run_bind_ok hstep]
          exact hnext a after

end Drafting

/-! ## Statements -/

theorem Expr.inspect_rename {ρ : VariableId → VariableId}
    {look look' : VariableId → Option Variable.Label} (h : ∀ id, look' (ρ id) = look id)
    (e : Expr) :
    (e.rename ρ).inspect look' = e.inspect look := by
  induction e with
  | unary operation input ih => simp only [rename, inspect, ih]
  | binary operation left right ihleft ihright => simp only [rename, inspect, ihleft, ihright]
  | var id => simp only [rename, inspect, h]
  | literal value => rfl
  | name text => rfl

namespace Statement

open Drafting

variable {ρ : VariableId → VariableId} {setting setting' : Setting}

theorem targetText_rename {look look' : VariableId → Option Variable.Label}
    (h : ∀ id, look' (ρ id) = look id) (e : Expr) :
    targetText look' (e.rename ρ) = targetText look e := by
  have hinspect := e.inspect_rename h
  cases e with
  | name text => rfl
  | _ => exact congrArg String.toList hinspect

theorem mirrors_combine (h : setting.Mirror ρ setting') (point : Occurrence)
    (left right : Option Expr) :
    Mirrors ρ (Expr.rename ρ) (combine setting point left right)
      (combine setting' point (left.map (Expr.rename ρ)) (right.map (Expr.rename ρ))) := by
  have hreport : ∀ {event : Event} {e : Expr}, Mirrors ρ (Expr.rename ρ)
      (do report event; pure e) (do report (event.rename ρ); pure (e.rename ρ)) :=
    fun {event e} => (mirrors_report event).bind fun _ => mirrors_pure e
  cases left with
  | none =>
      cases right with
      | none => exact hreport
      | some right =>
          simp only [combine, Option.map_none, Option.map_some]
          split
          · exact mirrors_pure _
          · exact mirrors_pure _
          · exact hreport
  | some left =>
      cases right with
      | none => exact hreport
      | some right =>
          simp only [combine, Option.map_some]
          split
          next =>
            -- A fault shows the target by labels, which the renaming does not touch.
            have hfault : ∀ target : Expr, Mirrors ρ (Expr.rename ρ)
                (do
                  let draft ← Action.state
                  .fail ⟨.notAssignable (targetText (setting.look draft) target), point.fragment⟩)
                (do
                  let draft ← Action.state
                  .fail ⟨.notAssignable (targetText (setting'.look draft) (target.rename ρ)),
                    point.fragment⟩) := by
              intro target draft
              have htext := targetText_rename (h.look draft) target
              simp [Action.run_bind, htext, Except.map]
            cases left with
            | var id => exact (mirrors_assign id right).bind fun _ => mirrors_pure (Expr.var id)
            | unary operation input => exact hfault (.unary operation input)
            | binary operation a b => exact hfault (.binary operation a b)
            | literal value => exact hfault (.literal value)
            | name text => exact hfault (.name text)
          next => exact mirrors_pure (Expr.binary _ left right)
          next => exact mirrors_pure (Expr.binary _ left right)
          next =>
            exact (mirrors_report (.droppedLeft _ _ left)).bind fun _ =>
              mirrors_pure (Expr.unary _ right)

theorem read_rename (h : setting.Mirror ρ setting') {text : Text} {result : Expr}
    (hread : Operand.read setting.scope text = .expr result) : result.rename ρ = result := by
  have hword : ∀ word, (Operand.ofWord setting.scope word).rename ρ =
      Operand.ofWord setting.scope word := by
    intro word
    unfold Operand.ofWord
    split
    next hbound => rw [Expr.rename, h.bound hbound]
    next => split <;> rfl
  unfold Operand.read at hread
  dsimp only at hread
  split at hread
  next =>
    split at hread
    · simp at hread
    · obtain rfl : Expr.name _ = result := by simpa using hread
      rfl
  next =>
    obtain rfl : Operand.ofWord setting.scope _ = result := by simpa using hread
    exact hword _

theorem mirrors_create (h : setting.Mirror ρ setting') {v : Variable} (hv : v.value = none) :
    Mirrors ρ ρ (create setting v) (create setting' v) := by
  intro draft
  have hrename : v.rename ρ = v := by
    cases v
    simp_all [Variable.rename]
  simp only [create, Action.run, h.next, Except.map]
  simp [Draft.rename, hrename]

theorem mirrors_item (h : setting.Mirror ρ setting') (i : Item Expr) :
    Mirrors ρ (Expr.rename ρ) (item setting i) (item setting' (i.map (Expr.rename ρ))) := by
  cases i with
  | value result => exact mirrors_pure result
  | text fragment =>
      rw [Item.map, item, item, h.scope]
      cases hread : Operand.read setting.scope fragment with
      | expr result =>
          have hsame := read_rename h hread
          have hpure : Mirrors ρ (Expr.rename ρ) (pure result) (pure (result.rename ρ)) :=
            mirrors_pure result
          rw [hsame] at hpure
          exact hpure
      | fresh v =>
          have hv := (Operand.isDeclared_of_read hread).2
          exact (mirrors_create h hv).bind fun id => mirrors_pure (Expr.var id)

theorem mirrors_leaf (h : setting.Mirror ρ setting') (items : List (Item Expr)) :
    Mirrors ρ (Option.map (Expr.rename ρ)) (leaf setting items)
      (leaf setting' (items.map (Item.map (Expr.rename ρ)))) := by
  cases items with
  | nil => exact mirrors_pure none
  | cons first rest =>
      cases rest with
      | nil => exact (mirrors_item h first).bind fun e => mirrors_pure (some e)
      | cons second more =>
          exact (mirrors_report _).bind fun _ =>
            (mirrors_item h first).bind fun e => mirrors_pure (some e)

theorem mirrors_tree (h : setting.Mirror ρ setting') (splits : SplitTree Expr) :
    Mirrors ρ (Option.map (Expr.rename ρ)) (tree setting splits)
      (tree setting' (splits.map (Expr.rename ρ))) := by
  induction splits with
  | leaf items => exact mirrors_leaf h items
  | tooDeep point =>
      rw [SplitTree.map, tree, tree, h.limit]
      exact mirrors_fail _
  | split point left right ihleft ihright =>
      refine (mirrors_report _).bind fun _ => ?_
      refine ihleft.bind fun leftValue => ihright.bind fun rightValue => ?_
      exact (mirrors_combine h point leftValue rightValue).bind fun e => mirrors_pure (some e)

theorem mirrors_flat (h : setting.Mirror ρ setting') (levels : Nat) (items : List (Item Expr)) :
    Mirrors ρ (Option.map (Expr.rename ρ)) (flat setting levels items)
      (flat setting' levels (items.map (Item.map (Expr.rename ρ)))) := by
  rw [flat, flat, SplitTree.map_ofItems]
  exact mirrors_tree h _

mutual

theorem mirrors_piece (h : setting.Mirror ρ setting') : ∀ (levels : Nat) (part : Piece),
    Mirrors ρ (List.map (Item.map (Expr.rename ρ))) (piece setting levels part)
      (piece setting' levels part)
  | levels, .text fragment => by
      rw [piece, piece]
      exact mirrors_pure [Item.text fragment]
  | 0, .group inner => by
      rw [piece, piece, h.limit]
      exact mirrors_fail _
  | levels + 1, .group inner => by
      rw [piece, piece]
      refine (mirrors_pieces h levels inner).bind fun items =>
        (mirrors_flat h levels items).bind fun result => ?_
      cases result with
      | none => exact mirrors_pure []
      | some e => exact mirrors_pure [Item.value e]

theorem mirrors_pieces (h : setting.Mirror ρ setting') : ∀ (levels : Nat) (parts : List Piece),
    Mirrors ρ (List.map (Item.map (Expr.rename ρ))) (pieces setting levels parts)
      (pieces setting' levels parts)
  | levels, [] => by
      rw [pieces, pieces]
      exact mirrors_pure []
  | levels, first :: rest => by
      rw [pieces, pieces]
      refine (mirrors_piece h levels first).bind fun firstItems =>
        (mirrors_pieces h levels rest).bind fun restItems => ?_
      rw [← List.map_append]
      exact mirrors_pure (firstItems ++ restItems)

end

/-- Resolving a statement commutes with the renaming. -/
theorem mirrors_value (h : setting.Mirror ρ setting') (parts : List Piece) :
    Mirrors ρ (Option.map (Expr.rename ρ)) (value setting parts) (value setting' parts) := by
  rw [value, value, h.limit]
  exact (mirrors_pieces h setting.limit parts).bind fun items => mirrors_flat h setting.limit items

end Statement

end Shading
