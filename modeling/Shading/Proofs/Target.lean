import Shading.Proofs.Frame
import Shading.Proofs.Gives
import Shading.Proofs.Independence
import Shading.Proofs.Sides

/-!
# Targets of assignments

A statement that starts with a target and `=` is split there first, before any operator on
its right: an assignment ranks above all other symbols, and the target has none.  So its left
side is the target, and the items on its right are those that its right side has without it.

A target is a variable in scope or a declaration.  Resolving it gives the variable, and
changes the draft in one thing: a declared variable is created.

* `find?_assignment`: an assignment is the root of its statement.
* `run_target`: the left side of an assignment.
-/

namespace Shading

/-! ## The root -/

namespace Symbol

/-- The symbol of an assignment. -/
def assignment : Symbol :=
  ⟨['='], .assignment, .assign⟩

theorem assignment_mem_table : assignment ∈ table := by
  decide

/-- An assignment ranks above all other symbols. -/
theorem level_lt_assignment {symbol : Symbol} (h : symbol ∈ table) (hrole : symbol.role ≠ .assign) :
    symbol.rank.level < assignment.rank.level := by
  revert symbol
  decide

end Symbol

namespace Occurrence

theorem Unassigning.of_mem_scanFrom {behind text : Text} (h : Unassigning text) {o : Occurrence}
    (ho : o ∈ scanFrom behind 0 text) : o.symbol.role ≠ .assign := by
  refine h o.symbol ?_
  rw [← map_symbol_scanFrom behind]
  exact List.mem_map_of_mem ho

/-- A fragment splits at an assignment with no operator before it and no assignment behind it. -/
theorem root?_assignment {left right : Text} (hleft : ∀ c ∈ left, Symbol.isSymbolChar c = false)
    (hright : ∀ c ∈ right.head?, Symbol.isSymbolChar c = false) (hfree : Unassigning right) :
    root? (left ++ '=' :: right) = some ⟨left.reverse, .assignment, right⟩ := by
  have hpoint : isSplitPoint ⟨left.reverse, .assignment, right⟩ = true := by
    have hsign : Symbol.assignment.isSign = false := by decide
    have hbehind : endsInComparison left.reverse = false :=
      endsInComparison_of_ordinary (by simpa using hleft)
    have hnext : right.head? ≠ some '=' := by
      intro hhead
      have hordinary := hright '=' hhead
      revert hordinary
      decide
    have hrole : Symbol.assignment.role = .assign := rfl
    simp [isSplitPoint, hsign, hrole, hbehind, hnext]
  have hpoints : splitPoints (left ++ '=' :: right) =
      ⟨left.reverse, .assignment, right⟩ :: pointsFrom ('=' :: left.reverse) right := by
    have hsymbol := pointsFrom_symbol Symbol.assignment_mem_table hright left.reverse
    rw [if_pos hpoint] at hsymbol
    rw [splitPoints_eq, pointsFrom_append hleft, List.append_nil]
    exact hsymbol
  rw [root?, hpoints]
  refine heaviest?_cons fun p hp => Nat.le_of_lt (weight_lt_of_level_lt ?_)
  obtain ⟨hscan, -⟩ := List.mem_filter.mp hp
  exact Symbol.level_lt_assignment (symbol_mem_table hscan) (hfree.of_mem_scanFrom hscan)

end Occurrence

variable {left : Text}

/-- What follows an assignment and a blank does not start with an operator character. -/
theorem Occurrence.ordinary_space_cons (first : Text) :
    ∀ c ∈ (Text.trimRight (' ' :: first)).head?, Symbol.isSymbolChar c = false := by
  intro c hc
  obtain ⟨trail, htrail⟩ := Text.trimRight_prefix (' ' :: first)
  obtain ⟨more, hmore⟩ := List.head?_eq_some_iff.mp hc
  rw [hmore, List.cons_append] at htrail
  rw [(List.cons.inj htrail).1]
  decide

theorem Occurrence.Unassigning.space_cons {first : Text} (h : Unassigning first) :
    Unassigning (Text.trimRight (' ' :: first)) := by
  rw [Unassigning, ← symbols_trim, Text.trim_trimRight, Text.trim_space_cons, symbols_trim]
  exact h

/-- The blanks around an assignment belong to its sides, which are trimmed later. -/
theorem Occurrence.root?_trim_assignment (hleft : ∀ c ∈ left, Symbol.isSymbolChar c = false)
    {first : Text} (hfirst : Unassigning first) :
    ∃ before after, Text.trim (left ++ " = ".toList ++ first) ≠ [] ∧
      root? (Text.trim (left ++ " = ".toList ++ first)) =
        some ⟨before.reverse, .assignment, after⟩ ∧
      Text.trim before = Text.trim left ∧ Text.trim after = Text.trim first := by
  have hequals : Text.isBlank '=' = false := by decide
  have hfragment : Text.trim (left ++ " = ".toList ++ first) =
      Text.trimLeft (left ++ [' ']) ++ '=' :: Text.trimRight (' ' :: first) := by
    rw [← Text.trim_append_cons hequals]
    simp
  have hbefore : ∀ c ∈ Text.trimLeft (left ++ [' ']), Symbol.isSymbolChar c = false := by
    intro c hc
    have hmem : c ∈ left ++ [' '] := (List.dropWhile_sublist _).subset hc
    rcases List.mem_append.mp hmem with hmem | hmem
    · exact hleft c hmem
    · rw [List.mem_singleton.mp hmem]
      decide
  refine ⟨Text.trimLeft (left ++ [' ']), Text.trimRight (' ' :: first), ?_, ?_, ?_, ?_⟩
  · rw [hfragment]
    simp
  · rw [hfragment]
    exact root?_assignment hbefore (ordinary_space_cons first) hfirst.space_cons
  · simp
  · simp

/-- An assignment in the first fragment, with none behind it, is the root of its statement. -/
theorem Cut.find?_of_root {fragment : Text} {point : Occurrence}
    (hroot : Occurrence.root? fragment = some point) (hsymbol : point.symbol = .assignment)
    {items : List (Item Expr)} (hitems : ∀ i ∈ items, i.Unassigning) :
    find? (.text fragment :: items) = some ⟨[], point, items⟩ := by
  have hin : inFirst? (.text fragment) items = some ⟨[], point, items⟩ := by
    rw [inFirst?, hroot]
    rfl
  rw [find?, hin]
  cases hlater : find? items with
  | none => rfl
  | some later =>
      obtain ⟨hrole, -, -⟩ := SplitTree.unassigning_sides hitems hlater
      have hany : ∀ i ∈ items, i.Holds fun _ => True := by
        intro i _
        cases i <;> trivial
      obtain ⟨htable, -, -⟩ := SplitTree.holds_sides hany hlater
      have hlt : later.level < Symbol.assignment.rank.level :=
        Symbol.level_lt_assignment htable hrole
      rw [← hsymbol] at hlt
      exact if_pos hlt

/-- An assignment is the root of its statement, and the items on its right are those that its
right side would have without it. -/
theorem Cut.find?_assignment (hleft : ∀ c ∈ left, Symbol.isSymbolChar c = false) {first : Text}
    (hfirst : Occurrence.Unassigning first) {items : List (Item Expr)}
    (hitems : ∀ i ∈ items, i.Unassigning) :
    ∃ cut, find? (Item.ofText (left ++ " = ".toList ++ first) ++ items) = some cut ∧
      cut.point.symbol = .assignment ∧ cut.leftSide = Item.ofText left ∧
      cut.rightSide = Item.ofText first ++ items := by
  obtain ⟨before, after, hne, hroot, hbefore, hafter⟩ :=
    Occurrence.root?_trim_assignment hleft hfirst
  refine ⟨⟨[], ⟨before.reverse, .assignment, after⟩, items⟩, ?_, rfl, ?_, ?_⟩
  · rw [Item.ofText, Text.fragment?_of_ne_nil hne]
    exact find?_of_root hroot rfl hitems
  · rw [leftSide, Occurrence.before, List.reverse_reverse, List.nil_append, Item.ofText,
      Text.fragment?_congr hbefore, Item.ofText]
  · rw [rightSide, Item.ofText, Text.fragment?_congr hafter, Item.ofText]

/-! ## Targets -/

/-- What stands on the left of an assignment: a variable in scope, or one that it declares. -/
inductive Target where
  | bound (id : VariableId)
  | declared (v : Variable)
  deriving DecidableEq, Repr

namespace Target

/-- The variables that a target creates. -/
def created : Target → List Variable
  | .bound _ => []
  | .declared v => [v]

/-- The identity of a target, if it is resolved when there are `size` variables. -/
def place (size : Nat) : Target → VariableId
  | .bound id => id
  | .declared _ => size

/-- A text denotes a target: it is a single word that is bound, or it is a declaration. -/
inductive Denoted (scope : Scope) (text : Text) : Target → Prop
  | bound {id : VariableId} (hne : Text.trim text ≠ [])
      (hword : ∀ c ∈ Text.trim text, Text.isBlank c = false)
      (hfind : scope.find? (Text.trim text) = some id) : Denoted scope text (.bound id)
  | declared {v : Variable} (hread : Operand.read scope text = .fresh v) :
      Denoted scope text (.declared v)

variable {scope : Scope} {text : Text} {target : Target}

theorem Denoted.trim_ne_nil (h : Denoted scope text target) : Text.trim text ≠ [] := by
  cases h with
  | bound hne hword hfind => exact hne
  | declared hread =>
      intro hnil
      simp [Operand.read, hnil, Text.words] at hread

/-- A target that is created has no value. -/
theorem Denoted.value_eq_none (h : Denoted scope text target) :
    ∀ v ∈ target.created, v.value = none := by
  cases h with
  | bound hne hword hfind => simp [created]
  | declared hread =>
      intro v hv
      rw [List.mem_singleton.mp hv]
      exact (Operand.isDeclared_of_read hread).2

end Target

/-- A target that is in scope exists. -/
theorem Target.Denoted.lt_size {session : Session} {text : Text} {target : Target}
    (h : Denoted session.scope text target) (hscope : session.Allocated) :
    ∀ id, target = .bound id → id < session.store.size := by
  rintro id rfl
  cases h with
  | bound hne hword hfind => exact hscope (Text.trim text, id) (Scope.mem_bindings_of_find? hfind)

namespace Statement

open Drafting

variable {setting : Setting}

/-- The left side of an assignment. -/
theorem run_target {left : Text} {target : Target} (h : target.Denoted setting.scope left)
    (hleft : ∀ c ∈ left, Symbol.isSymbolChar c = false) (levels : Nat) (draft : Draft) :
    (tree setting (.ofItems levels (Item.ofText left))).run draft =
      (.ok (some (.var (target.place (setting.labels draft).length))),
        { draft with created := draft.created ++ target.created }) := by
  have hfind : Cut.find? ([.text (Text.trim left)] : List (Item Expr)) = none := by
    have hfree : ∀ c ∈ Text.trim left, Symbol.isSymbolChar c = false :=
      fun c hc => hleft c (Text.mem_of_mem_trim hc)
    have hpoints : Occurrence.splitPoints (Text.trim left) = [] := by
      simpa [Occurrence.splitPoints_eq] using Occurrence.pointsFrom_append hfree [] []
    rw [Cut.find?_eq_none]
    simp [Cut.cuts, hpoints]
  have hread : ∀ scope, Operand.read scope (Text.trim left) = Operand.read scope left := by
    intro scope
    simp [Operand.read]
  have hitems : (Item.ofText left : List (Item Expr)) = [.text (Text.trim left)] := by
    rw [Item.ofText, Text.fragment?_of_ne_nil h.trim_ne_nil]
    rfl
  rw [hitems, SplitTree.ofItems_of_find? hfind, tree, leaf, item, hread]
  cases h with
  | @bound id hne hword hfind =>
      have hoperand : Operand.read setting.scope left = .expr (.var id) := by
        have hwords := Text.length_words_of_forall hword
        simp only [Operand.read]
        rw [if_neg (by omega), Operand.ofWord, hfind]
      rw [hoperand]
      simp [Target.created, Target.place]
  | @declared v hfresh =>
      rw [hfresh]
      rfl

end Statement

end Shading
