import Shading.Proofs.Commit

/-!
# Steps that only report

Many steps of resolving a statement give a value and leave no other trace than the events
they report: they create no variable and assign nothing.  `Gives` says this of a step, and
the lemmas here follow the definitions of `Statement` from operands to whole statements.
-/

namespace Shading

variable {α β : Type}

namespace Drafting

/-- The step gives a value, whatever was drafted before, and adds nothing but events. -/
def Gives (step : Drafting α) (a : α) : Prop :=
  ∀ draft : Draft, ∃ events : List Event,
    step.run draft = (.ok a, { draft with events := draft.events ++ events })

theorem gives_pure (a : α) : Gives (pure a) a :=
  fun _ => ⟨[], by simp⟩

theorem gives_report (event : Event) : Gives (report event) () :=
  fun _ => ⟨[event], rfl⟩

theorem Gives.bind {step : Drafting α} {a : α} (h : Gives step a) {next : α → Drafting β} {b : β}
    (hnext : Gives (next a) b) : Gives (step >>= next) b := by
  intro draft
  obtain ⟨events, hstep⟩ := h draft
  obtain ⟨more, hmore⟩ := hnext { draft with events := draft.events ++ events }
  refine ⟨events ++ more, ?_⟩
  rw [Action.run_bind_ok hstep, hmore]
  simp

/-- The expression that a step gives, which is asked for only where there is one. -/
def given (step : Drafting (Option Expr)) : Expr :=
  match (step.run {}).1 with
  | .ok (some result) => result
  | _ => .name []

theorem given_of_gives {step : Drafting (Option Expr)} {result : Expr}
    (h : Gives step (some result)) : given step = result := by
  obtain ⟨events, hrun⟩ := h {}
  rw [given, hrun]

end Drafting

/-- The operation that a symbol makes of two operands. -/
def Symbol.between? (symbol : Symbol) : Option Operation :=
  match symbol.role with
  | .between operation => some operation
  | .betweenOrBefore operation _ => some operation
  | _ => none

theorem SplitTree.ofItems_of_find? {items : List (Item α)} (h : Cut.find? items = none)
    (levels : Nat) : ofItems levels items = .leaf items := by
  cases levels <;> simp [ofItems, h]

theorem SplitTree.ofItems_succ_of_find? {items : List (Item α)} {cut : Cut α}
    (h : Cut.find? items = some cut) (levels : Nat) :
    ofItems (levels + 1) items =
      .split cut.point (ofItems levels cut.leftSide) (ofItems levels cut.rightSide) := by
  simp [ofItems, h]

/-- The item that a piece becomes when groups have the values `val`. -/
def Piece.item (val : List Piece → Expr) : Piece → Item Expr
  | .text fragment => .text fragment
  | .group inner => .value (val inner)

namespace Statement

open Drafting

variable {setting : Setting}

theorem gives_item {fragment : Text} {result : Expr}
    (h : Operand.read setting.scope fragment = .expr result) :
    Gives (item setting (.text fragment)) result := by
  rw [item, h]
  exact gives_pure result

theorem gives_leaf {single : Item Expr} {result : Expr} (h : Gives (item setting single) result) :
    Gives (leaf setting [single]) (some result) :=
  h.bind (gives_pure _)

theorem combine_between {point : Occurrence} {operation : Operation}
    (h : point.symbol.between? = some operation) (left right : Expr) :
    combine setting point (some left) (some right) = pure (.binary operation left right) := by
  unfold Symbol.between? at h
  split at h
  next hrole => simp_all [combine]
  next hrole => simp_all [combine]
  next => simp at h

/-- A split gives what its sides combine to. -/
theorem gives_split {point : Occurrence} {left right : SplitTree Expr}
    {leftValue rightValue : Option Expr} {result : Expr}
    (hleft : Gives (tree setting left) leftValue)
    (hright : Gives (tree setting right) rightValue)
    (hcombine : Gives (combine setting point leftValue rightValue) result) :
    Gives (tree setting (.split point left right)) (some result) :=
  (gives_report _).bind (hleft.bind (hright.bind (hcombine.bind (gives_pure _))))

/-- The value of pieces below which `levels` groups may still nest. -/
def within (setting : Setting) (levels : Nat) (parts : List Piece) : Drafting (Option Expr) := do
  let items ← pieces setting levels parts
  flat setting levels items

theorem piece_group (levels : Nat) (inner : List Piece) :
    piece setting (levels + 1) (.group inner) =
      within setting levels inner >>= fun result => pure (result.toList.map .value) := by
  rw [piece, within, Action.bind_assoc]

theorem gives_group {levels : Nat} {inner : List Piece} {result : Expr}
    (h : Gives (within setting levels inner) (some result)) :
    Gives (piece setting (levels + 1) (.group inner)) [.value result] := by
  rw [piece_group]
  exact h.bind (gives_pure _)

/-- Pieces become items in order, if every group among them gives its value. -/
theorem gives_pieces {levels : Nat} {parts : List Piece} (val : List Piece → Expr)
    (h : ∀ inner, .group inner ∈ parts →
      Gives (piece setting levels (.group inner)) [.value (val inner)]) :
    Gives (pieces setting levels parts) (parts.map (Piece.item val)) := by
  induction parts with
  | nil =>
      rw [pieces]
      exact gives_pure []
  | cons first rest ih =>
      have hfirst : Gives (piece setting levels first) [first.item val] := by
        cases first with
        | text fragment =>
            rw [piece]
            exact gives_pure _
        | group inner => exact h inner (List.mem_cons_self ..)
      have hrest := ih fun inner hinner => h inner (List.mem_cons_of_mem _ hinner)
      rw [pieces]
      exact hfirst.bind (hrest.bind (gives_pure _))

end Statement

/-- Evaluating pieces that only give a value changes nothing but the events. -/
theorem Session.evaluate_of_gives {session : Session} {parts : List Piece} {result : Option Expr}
    (h : Drafting.Gives (Statement.value session.setting parts) result) :
    ∃ events, (evaluate parts).run session =
      (.ok result, { session with events := session.events ++ events }) := by
  obtain ⟨events, hrun⟩ := h {}
  refine ⟨events, ?_⟩
  rw [run_evaluate, hrun]
  simp [commit]

end Shading
