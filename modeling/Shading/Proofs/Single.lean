import Shading.Proofs.Idle

/-!
# Statements with one assignment

If a statement has a single assignment symbol, outside all groups, then what it assigns it
assigns last.  Either the symbol is a split point from the start: then it is the root,
because it ranks above all other symbols, and both of its sides are resolved before anything
is set.  Or it stands directly after a comparison character: then it is idle, whichever way
the statement is split.

So a statement that fails has set nothing, and one that succeeds has set at most the
variable that it gives.

* `sole_sides`: the sides of the root have no assignment left.
* `writesLast_flat`: a flat statement with one assignment.
* `evaluate_single`: the effect on the variables that exist.
-/

namespace Shading

/-! ## Counting assignments -/

namespace Item

/-- The symbols of the text that an item is. -/
def symbols : Item Expr → List Symbol
  | .text fragment => Occurrence.symbols fragment
  | .value _ => []

/-- The number of assignments among items. -/
def countAssign (items : List (Item Expr)) : Nat :=
  (items.flatMap symbols).countP fun symbol => symbol.role = .assign

@[simp] theorem countAssign_append (first second : List (Item Expr)) :
    countAssign (first ++ second) = countAssign first + countAssign second := by
  simp [countAssign]

@[simp] theorem countAssign_cons (item : Item Expr) (rest : List (Item Expr)) :
    countAssign (item :: rest) = countAssign [item] + countAssign rest :=
  countAssign_append [item] rest

theorem countAssign_eq_zero {items : List (Item Expr)} :
    countAssign items = 0 ↔ ∀ item ∈ items, item.Unassigning := by
  simp only [countAssign, List.countP_eq_zero, List.mem_flatMap, decide_eq_true_eq]
  constructor
  · intro h item hitem
    cases item with
    | value e => trivial
    | text fragment => exact fun symbol hsymbol => h symbol ⟨_, hitem, hsymbol⟩
  · rintro h symbol ⟨item, hitem, hsymbol⟩
    cases item with
    | value e => cases hsymbol
    | text fragment => exact h _ hitem symbol hsymbol

theorem countAssign_ofText (text : Text) :
    countAssign (ofText text) = countAssign [.text text] := by
  have htrim : countAssign [.text (Text.trim text)] = countAssign [.text text] := by
    simp [countAssign, symbols, Occurrence.symbols_trim]
  rw [ofText, ← htrim]
  cases hfragment : Text.fragment? text with
  | none =>
      rw [Text.fragment?_eq_none_iff.mp hfragment]
      rfl
  | some fragment =>
      rw [(Text.fragment?_eq_some_iff.mp hfragment).1]
      rfl

end Item

/-- A fragment is cut into the symbols before one of its occurrences, that one, and those after. -/
theorem Occurrence.countAssign_of_mem_scan {fragment : Text} {o : Occurrence}
    (h : o ∈ scan fragment) (hrole : o.symbol.role = .assign) :
    Item.countAssign [.text fragment] =
      Item.countAssign [.text o.before] + 1 + Item.countAssign [.text o.after] := by
  simp [Item.countAssign, Item.symbols, symbols_of_mem_scan h, hrole]
  omega

/-! ## The root -/

theorem Symbol.eq_assignment {symbol : Symbol} (h : symbol ∈ table)
    (hrole : symbol.role = .assign) : symbol = .assignment := by
  revert symbol
  decide

namespace Cut

/-- A flat statement in which an assignment is a split point splits at an assignment. -/
theorem find?_assign {items : List (Item Expr)} {cut : Cut Expr} (h : cut ∈ cuts items)
    (hrole : cut.point.symbol.role = .assign) :
    ∃ root, find? items = some root ∧ root.point.symbol.role = .assign := by
  obtain ⟨fragment, -, hpoint⟩ := exists_of_mem_cuts h
  have hsymbol : cut.point.symbol = .assignment :=
    Symbol.eq_assignment (Occurrence.symbol_mem_table (List.mem_filter.mp hpoint).1) hrole
  cases hfind : find? items with
  | none =>
      rw [find?_eq_none.mp hfind] at h
      cases h
  | some root =>
      refine ⟨root, rfl, ?_⟩
      obtain ⟨earlier, later, hcuts, hroot⟩ := find?_spec hfind
      obtain ⟨other, -, hother⟩ := exists_of_find? hfind
      have htable := Occurrence.symbol_mem_table (List.mem_filter.mp hother).1
      by_contra hne
      have hlt : root.level < Symbol.assignment.rank.level :=
        Symbol.level_lt_assignment htable hne
      have hle : cut.level ≤ root.level := hroot.level_le (hcuts ▸ h)
      rw [level, hsymbol] at hle
      exact absurd hlt (Nat.not_lt.mpr hle)

/-- If the root of a flat statement is its only assignment, no assignment is on either side. -/
theorem sole_sides {items : List (Item Expr)} (h : Item.countAssign items = 1) {cut : Cut Expr}
    (hfind : find? items = some cut) (hrole : cut.point.symbol.role = .assign) :
    (∀ i ∈ cut.leftSide, i.Unassigning) ∧ ∀ i ∈ cut.rightSide, i.Unassigning := by
  obtain ⟨fragment, rfl, hpoint⟩ := exists_of_find? hfind
  have hfragment := Occurrence.countAssign_of_mem_scan (List.mem_filter.mp hpoint).1 hrole
  rw [Item.countAssign_append, Item.countAssign_cons] at h
  rw [← Item.countAssign_eq_zero, ← Item.countAssign_eq_zero, leftSide, rightSide,
    Item.countAssign_append, Item.countAssign_append, Item.countAssign_ofText,
    Item.countAssign_ofText]
  omega

end Cut

/-! ## Steps that assign last -/

namespace Drafting

variable {α : Type} {post : α → Prop}

/-- The step assigns nothing, or as the last thing it sets the variable that it gives. -/
def WritesLast (step : Drafting (Option Expr)) : Prop :=
  ∀ draft : Draft, (step.run draft).2.assignments = draft.assignments ∨
    ∃ id e, (step.run draft).1 = .ok (some (.var id)) ∧
      (step.run draft).2.assignments = draft.assignments ++ [⟨id, e⟩]

theorem Inert.writesLast {step : Drafting (Option Expr)} {post : Option Expr → Prop}
    (h : Inert step post) : WritesLast step :=
  fun draft => .inl (h draft).1

/-- What assigns nothing may come before. -/
theorem WritesLast.of_inert {step : Drafting α} (h : Inert step post)
    {next : α → Drafting (Option Expr)} (hnext : ∀ a, post a → WritesLast (next a)) :
    WritesLast (step >>= next) := by
  intro draft
  obtain ⟨hassignments, hresult⟩ := h draft
  cases hrun : step.run draft with
  | mk result middle =>
      rw [hrun] at hassignments hresult
      cases result with
      | error fault =>
          rw [Action.run_bind_error hrun]
          exact .inl hassignments
      | ok a =>
          rw [Action.run_bind_ok hrun, ← hassignments]
          exact hnext a hresult middle

end Drafting

namespace Statement

open Drafting

variable {setting : Setting}

/-- An assignment to a variable gives that variable; whatever else a split does, it sets nothing. -/
theorem writesLast_combine (point : Occurrence) (left right : Option Expr) :
    WritesLast (do
      let result ← combine setting point left right
      pure (some result)) := by
  have hinert : ∀ {step : Drafting Expr}, Inert step (fun _ => True) →
      WritesLast (do let result ← step; pure (some result)) :=
    fun h => .of_inert h fun _ _ _ => .inl rfl
  by_cases hrole : point.symbol.role = .assign
  · cases left with
    | none => exact hinert (inert_combine_none point right)
    | some target =>
        cases right with
        | none => exact hinert ((inert_report _).bind fun _ _ => inert_pure trivial)
        | some e =>
            intro draft
            simp only [combine, hrole]
            cases target with
            | var id => exact .inr ⟨id, e, rfl, rfl⟩
            | unary operation input => exact .inl rfl
            | binary operation first second => exact .inl rfl
            | literal value => exact .inl rfl
            | name text => exact .inl rfl
  · exact hinert (inert_combine hrole left right)

/-- A flat statement with one assignment sets the variable that it gives, as the last thing, or
none. -/
theorem writesLast_flat (levels : Nat) {items : List (Item Expr)}
    (h : Item.countAssign items = 1) : WritesLast (flat setting levels items) := by
  by_cases hbare : ∀ i ∈ items, i.Bare
  · exact (inert_flat_of_idle levels (idle_of_bare hbare)).writesLast
  · obtain ⟨i, hi, hnot⟩ : ∃ i ∈ items, ¬ i.Bare := by simpa using hbare
    cases i with
    | value e => exact absurd trivial hnot
    | text fragment =>
        obtain ⟨point, hpoint, hrole⟩ :
            ∃ o ∈ Occurrence.splitPoints fragment, o.symbol.role = .assign := by
          simpa [Item.Bare, Occurrence.Bare] using hnot
        obtain ⟨left, right, rfl⟩ := List.append_of_mem hi
        obtain ⟨root, hfind, hassign⟩ := Cut.find?_assign (Cut.mem_cuts hpoint left right) hrole
        obtain ⟨hleft, hright⟩ := Cut.sole_sides h hfind hassign
        have hleftTree : Inert (tree setting (.ofItems levels root.leftSide)) fun _ => True :=
          inert_tree (SplitTree.unassigning_ofItems levels hleft)
        have hrightTree : Inert (tree setting (.ofItems levels root.rightSide)) fun _ => True :=
          inert_tree (SplitTree.unassigning_ofItems levels hright)
        rw [flat, SplitTree.ofItems_succ_of_find? hfind, tree]
        refine .of_inert (inert_report _) fun _ _ => ?_
        refine .of_inert hleftTree fun leftValue _ => .of_inert hrightTree fun rightValue _ => ?_
        exact writesLast_combine root.point leftValue rightValue

/-- Groups without an assignment assign nothing, and leave the fragment between them as it is. -/
theorem inert_pieces_around (levels : Nat) {before after : List Piece}
    (hbefore : ∀ other ∈ Piece.allFragments before, Occurrence.Unassigning other)
    (hafter : ∀ other ∈ Piece.allFragments after, Occurrence.Unassigning other)
    (fragment : Text) :
    Inert (pieces setting levels (before ++ .text fragment :: after))
      fun items => Item.countAssign items = Item.countAssign [.text fragment] := by
  induction before with
  | nil =>
      rw [List.nil_append, pieces, piece, pure_bind]
      refine (inert_pieces levels after hafter).bind fun items hitems => inert_pure ?_
      rw [Item.countAssign_append, Item.countAssign_eq_zero.mpr hitems, Nat.add_zero]
  | cons first rest ih =>
      have hfirst : Inert (piece setting levels first) fun items => ∀ i ∈ items, i.Unassigning :=
        inert_piece levels first fun other hother => hbefore other (by simp [hother])
      have hrest := ih fun other hother => hbefore other (by simp [hother])
      rw [List.cons_append, pieces]
      refine hfirst.bind fun firstItems hfirstItems => hrest.bind fun items hitems =>
        inert_pure ?_
      rw [Item.countAssign_append, Item.countAssign_eq_zero.mpr hfirstItems, hitems, Nat.zero_add]

/-- A statement whose only assignment is in a fragment outside all groups. -/
theorem writesLast_value {before after : List Piece}
    (hbefore : ∀ other ∈ Piece.allFragments before, Occurrence.Unassigning other)
    (hafter : ∀ other ∈ Piece.allFragments after, Occurrence.Unassigning other)
    {fragment : Text} (h : Item.countAssign [.text fragment] = 1) :
    WritesLast (value setting (before ++ .text fragment :: after)) :=
  .of_inert (inert_pieces_around setting.limit hbefore hafter fragment) fun _ hitems =>
    writesLast_flat setting.limit (hitems.trans h)

end Statement

/-! ## Sessions -/

namespace Piece

/-- The assignment symbols in the fragments of pieces, at every depth, in order. -/
def assignments (parts : List Piece) : List Occurrence :=
  ((allFragments parts).flatMap Occurrence.scan).filter fun o => o.symbol.text == ['=']

theorem allFragments_append (first second : List Piece) :
    allFragments (first ++ second) = allFragments first ++ allFragments second := by
  induction first with
  | nil => simp
  | cons piece rest ih => simp [ih]

theorem assignments_append (first second : List Piece) :
    assignments (first ++ second) = assignments first ++ assignments second := by
  simp [assignments, allFragments_append]

theorem unassigning_of_assignments {parts : List Piece} (h : assignments parts = []) :
    ∀ fragment ∈ allFragments parts, Occurrence.Unassigning fragment := by
  intro fragment hfragment
  refine Occurrence.unassigning_of_scan fun o ho htext => ?_
  have hmem : o ∈ assignments parts :=
    List.mem_filter.mpr ⟨List.mem_flatMap.mpr ⟨fragment, hfragment, ho⟩, by simp [htext]⟩
  rw [h] at hmem
  cases hmem

theorem length_assignments_text (fragment : Text) :
    (assignments [.text fragment]).length = Item.countAssign [.text fragment] := by
  have hequals : ∀ symbol ∈ Symbol.table, symbol.text = ['='] ↔ symbol.role = .assign := by
    decide
  simp only [assignments, allFragments_cons, fragments_text, allFragments_nil, List.append_nil,
    List.flatMap_singleton, Item.countAssign, Item.symbols, Occurrence.symbols, List.countP_map,
    ← List.countP_eq_length_filter]
  refine List.countP_congr fun o ho => ?_
  simpa using hequals o.symbol (Occurrence.symbol_mem_table ho)

end Piece

namespace Session

/-- A statement whose only assignment symbol stands outside all groups leaves every variable as it
is if it fails.  If it does not fail, the only variable that it can have changed is the one that
it gives, and of that one only the value. -/
theorem evaluate_single (session : Session) {parts : List Piece} {o : Occurrence}
    (hsole : Piece.assignments parts = [o]) {fragment : Text} (htop : .text fragment ∈ parts)
    (ho : o ∈ Occurrence.scan fragment) :
    let result := ((evaluate parts).run session).1
    let after := ((evaluate parts).run session).2
    (∀ fault, result = .error fault →
      ∀ id v, session.store.get? id = some v → after.store.get? id = some v) ∧
    ∀ value, result = .ok value →
      ∀ id v, session.store.get? id = some v → after.store.get? id ≠ some v →
        value = some (.var id) ∧ ∃ e, after.store.get? id = some { v with value := some e } := by
  intro result after
  obtain ⟨before, behind, rfl⟩ := List.append_of_mem htop
  -- The assignment is counted in this fragment, so none is left for the pieces around it.
  have hmem : o ∈ Piece.assignments [.text fragment] := by
    have hequals : o.symbol.text == ['='] := by
      have hself : o ∈ Piece.assignments (before ++ .text fragment :: behind) := by simp [hsole]
      exact (List.mem_filter.mp hself).2
    simp [Piece.assignments, ho, hequals]
  have hlength := congrArg List.length hsole
  rw [← List.singleton_append, Piece.assignments_append, Piece.assignments_append] at hlength
  have hpositive := List.length_pos_of_mem hmem
  simp only [List.length_append, List.length_singleton] at hlength
  have hbefore : Piece.assignments before = [] := List.length_eq_zero_iff.mp (by omega)
  have hbehind : Piece.assignments behind = [] := List.length_eq_zero_iff.mp (by omega)
  have hone : Item.countAssign [.text fragment] = 1 := by
    rw [← Piece.length_assignments_text]
    omega
  -- So whatever is assigned is assigned at the end, to the variable that is given.
  have hlast : Drafting.WritesLast
      (Statement.value session.setting (before ++ .text fragment :: behind)) :=
    Statement.writesLast_value (Piece.unassigning_of_assignments hbefore)
      (Piece.unassigning_of_assignments hbehind) hone
  have hget : ∀ id v, session.store.get? id = some v → after.store.get? id = some (v.write _) :=
    fun id v hv => get?_evaluate hv _
  rcases hlast {} with hnone | ⟨target, e, hvalue, hassignments⟩
  · have hkept : ∀ id v, session.store.get? id = some v → after.store.get? id = some v := by
      intro id v hv
      rw [hget id v hv, Draft.written?, hnone]
      rfl
    exact ⟨fun _ _ => hkept, fun _ _ id v hv hchanged => absurd (hkept id v hv) hchanged⟩
  · have hresult : result = .ok (some (.var target)) := hvalue
    refine ⟨fun fault hfault => ?_, fun value hok id v hv hchanged => ?_⟩
    · rw [hresult] at hfault
      cases hfault
    · have hwritten := hget id v hv
      rw [Draft.written?, hassignments, List.nil_append] at hwritten
      -- Of the variables that there are, only the target of this assignment is written to.
      by_cases hid : target = id
      · subst hid
        rw [hresult] at hok
        refine ⟨(Except.ok.inj hok).symm, e, ?_⟩
        simpa [Assignment.last?] using hwritten
      · refine absurd ?_ hchanged
        simpa [Assignment.last?, hid] using hwritten

/-- With a limit of one, an assignment to `x` is stopped on its right side, after a group was
resolved, and `x` keeps its value; with a limit of two `x` is set, and given, and `y` is left
alone.  An assignment to a number is refused. -/
theorem evaluate_single_stopped :
    let x : Variable := { Variable.single .int (some ['x']) with value := some (.literal (.int 7)) }
    let y : Variable := .single .int (some ['y'])
    let session (limit : Nat) : Session :=
      { options := { limit }, scope := ⟨[(['x'], 0), (['y'], 1)]⟩, store := ⟨#[x, y]⟩ }
    let sum : List Piece := [.text "x = 2 +".toList, .group [.text "y".toList], .text "* y".toList]
    let refused : List Piece := [.text "2 =".toList, .group [.text "x".toList]]
    Piece.assignments sum = [⟨" x".toList, .assignment, " 2 +".toList⟩] ∧
    Piece.assignments refused = [⟨" 2".toList, .assignment, []⟩] ∧
    ((evaluate sum).run (session 1)).1 = .error ⟨.tooDeep 1, "2 +".toList⟩ ∧
    ((evaluate sum).run (session 1)).2.store.get? 0 = some x ∧
    ((evaluate refused).run (session 1)).1 =
      .error ⟨.notAssignable "Int(2)".toList, "2 =".toList⟩ ∧
    ((evaluate refused).run (session 1)).2.store.get? 0 = some x ∧
    (∃ e, ((evaluate sum).run (session 2)).2.store.get? 0 = some { x with value := some e }) ∧
    ((evaluate sum).run (session 2)).1 = .ok (some (.var 0)) ∧
    ((evaluate sum).run (session 2)).2.store.get? 1 = some y := by
  intro x y session sum refused
  have hsum : Piece.assignments sum = [⟨" x".toList, .assignment, " 2 +".toList⟩] := by
    decide +kernel
  have hrefused : Piece.assignments refused = [⟨" 2".toList, .assignment, []⟩] := by
    decide +kernel
  have hstops : ((evaluate sum).run (session 1)).1 = .error ⟨.tooDeep 1, "2 +".toList⟩ := by
    decide +kernel
  have hrefuses : ((evaluate refused).run (session 1)).1 =
      .error ⟨.notAssignable "Int(2)".toList, "2 =".toList⟩ := by
    decide +kernel
  have hgives : ((evaluate sum).run (session 2)).1 = .ok (some (.var 0)) := by
    decide +kernel
  have hchanges : ((evaluate sum).run (session 2)).2.store.get? 0 ≠ some x := by
    decide +kernel
  have hsumScan : (⟨" x".toList, .assignment, " 2 +".toList⟩ : Occurrence) ∈
      Occurrence.scan "x = 2 +".toList := by
    decide +kernel
  have hsumTop : Piece.text "x = 2 +".toList ∈ sum := List.mem_cons_self ..
  have hrefusedScan : (⟨" 2".toList, .assignment, []⟩ : Occurrence) ∈
      Occurrence.scan "2 =".toList := by
    decide +kernel
  have hrefusedTop : Piece.text "2 =".toList ∈ refused := List.mem_cons_self ..
  obtain ⟨hkeeps, -⟩ := evaluate_single (session 1) hsum hsumTop hsumScan
  obtain ⟨hkeeps', -⟩ := evaluate_single (session 1) hrefused hrefusedTop hrefusedScan
  obtain ⟨-, hsets⟩ := evaluate_single (session 2) hsum hsumTop hsumScan
  obtain ⟨-, hvalue⟩ := hsets _ hgives 0 x rfl hchanges
  refine ⟨hsum, hrefused, hstops, hkeeps _ hstops 0 x rfl, hrefuses, hkeeps' _ hrefuses 0 x rfl,
    hvalue, hgives, ?_⟩
  by_contra hother
  obtain ⟨hsame, -⟩ := hsets _ hgives 1 y rfl hother
  cases hsame

end Session

end Shading
