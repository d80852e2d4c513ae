import Shading.Proofs.Assignment
import Shading.Proofs.Idle
import Shading.Proofs.Room

/-!
# Compound assignments

In `x += e` the assignment is a split point and hence the root.  What is left of it, `x +`,
lacks an operand and so gives `x`: the statement sets `x` to what `e` resolves to, and gives
`x`.  It is the same with `-`, `*`, `/`, `&` and `|`.

It is not so with `x <<= e` and `x >>= e`.  There the assignment stands directly after a
comparison character, so it is no split point; the shift is split first, or a relation in a
later fragment, and then the assignment has nothing on its left.  The statement gives an
operation, and `x` keeps its value.

* `root?_compound`, `root?_shift`: at which symbol the fragment splits.
* `flat_compound`: a flat compound assignment, from its right side alone.
* `operation_of_shift`: what a flat compound shift gives.
* `evaluate_compound`: both kinds, as statements of a session.
-/

namespace Shading

/-! ## Symbols before an assignment -/

namespace Symbol

/-- The symbols that form a compound assignment with an `=` directly after them. -/
def compounds : List Symbol :=
  table.filter fun symbol =>
    ["+", "-", "*", "/", "&", "|", "<<", ">>"].any fun text => symbol.text == text.toList

/-- Whether a symbol shifts its left operand. -/
def isShift (symbol : Symbol) : Bool :=
  symbol.text == "<<".toList || symbol.text == ">>".toList

theorem mem_table_of_mem_compounds {symbol : Symbol} (h : symbol ∈ compounds) : symbol ∈ table :=
  (List.mem_filter.mp h).1

variable {symbol : Symbol} {after : Text}

/-- The `=` of a compound assignment does not form one symbol with what is before it. -/
theorem at?_compound (h : symbol ∈ compounds)
    (hafter : ∀ c ∈ after.head?, isSymbolChar c = false) :
    at? (symbol.text ++ '=' :: after) = some symbol := by
  have hclosed : ∀ symbol ∈ compounds, at? (symbol.text ++ ['=']) = some symbol := by
    decide
  have happend := at?_append (symbol.text ++ ['=']) hafter
  rw [List.append_assoc, List.singleton_append] at happend
  rw [happend, hclosed symbol h]

/-- What a compound symbol does with two operands, with a left operand only, and its rank. -/
theorem compounds_spec (h : symbol ∈ compounds) :
    symbol.between?.isSome = true ∧ symbol.role ≠ .assign ∧
      Occurrence.endsInComparison symbol.text.reverse = symbol.isShift := by
  revert symbol
  decide

theorem isPlain_compound (h : symbol ∈ compounds) :
    ∀ c ∈ symbol.text, Brackets.paren.isPlain c = true ∧ Text.isBlank c = false := by
  revert symbol
  decide

end Symbol

namespace Occurrence

/-- A shift is as heavy as any symbol but an assignment can be. -/
theorem weight_le_of_isShift {o p : Occurrence} (ho : o.symbol ∈ Symbol.table)
    (hshift : o.symbol.isShift = true) (hp : p.symbol ∈ Symbol.table)
    (hrole : p.symbol.role ≠ .assign) : p.weight ≤ o.weight := by
  have hall : ∀ a ∈ Symbol.table, ∀ b ∈ Symbol.table, a.isShift = true → b.role ≠ .assign →
      (2 * b.rank.level + if b.onlyLeads then 0 else 1) ≤
        2 * a.rank.level + if a.onlyLeads then 0 else 1 := by
    decide
  exact hall o.symbol ho p.symbol hp hshift hrole

end Occurrence

/-! ## The root -/

/-- A word that can be the target of a compound assignment. -/
structure IsTargetWord (x : Text) : Prop where
  ne_nil : x ≠ []
  plain : ∀ c ∈ x, Text.isBlank c = false ∧ Symbol.isSymbolChar c = false ∧
    Brackets.paren.isPlain c = true

theorem IsTargetWord.ordinary {x : Text} (h : IsTargetWord x) :
    ∀ c ∈ x ++ [' '], Symbol.isSymbolChar c = false := by
  intro c hc
  rcases List.mem_append.mp hc with hc | hc
  · exact (h.plain c hc).2.1
  · rw [List.mem_singleton.mp hc]
    decide

theorem IsTargetWord.tight {x : Text} (h : IsTargetWord x) : Text.Tight x :=
  Text.tight_of_forall fun c hc => (h.plain c hc).1

/-- The compound assignment of `right` to `x`. -/
def compoundText (x : Text) (symbol : Symbol) (right : Text) : Text :=
  x ++ ' ' :: (symbol.text ++ '=' :: right)

namespace Occurrence

variable {x after : Text} {symbol : Symbol}

/-- The symbol of a compound assignment, at its place. -/
def compoundPoint (x : Text) (symbol : Symbol) (after : Text) : Occurrence :=
  ⟨' ' :: x.reverse, symbol, after⟩

/-- The `=` of a compound assignment, at its place. -/
def assignPoint (x : Text) (symbol : Symbol) (after : Text) : Occurrence :=
  ⟨symbol.text.reverse ++ ' ' :: x.reverse, .assignment, after⟩

/-- The word and the blank are passed over, and the symbol is found. -/
theorem scan_compoundPoint (hx : IsTargetWord x)
    (hat : Symbol.at? (symbol.text ++ after) = some symbol) :
    scan (x ++ ' ' :: (symbol.text ++ after)) = compoundPoint x symbol after ::
      scanFrom (symbol.text.reverse ++ ' ' :: x.reverse) 0 after := by
  have hsplit : x ++ ' ' :: (symbol.text ++ after) = (x ++ [' ']) ++ (symbol.text ++ after) := by
    simp
  rw [hsplit, scan, scanFrom_ordinary hx.ordinary, scanFrom_symbol hat]
  simp [compoundPoint]

theorem scan_compound (hx : IsTargetWord x) (hsymbol : symbol ∈ Symbol.compounds)
    (hafter : ∀ c ∈ after.head?, Symbol.isSymbolChar c = false) :
    scan (compoundText x symbol after) =
      compoundPoint x symbol ('=' :: after) :: assignPoint x symbol after ::
        scanFrom ('=' :: (symbol.text.reverse ++ ' ' :: x.reverse)) 0 after := by
  have hequals := Symbol.at?_text_append Symbol.assignment_mem_table hafter
  rw [compoundText, scan_compoundPoint hx (Symbol.at?_compound hsymbol hafter)]
  exact congrArg _ (scanFrom_symbol hequals _)

theorem isSplitPoint_compound (hx : IsTargetWord x) (hsymbol : symbol ∈ Symbol.compounds) :
    isSplitPoint (compoundPoint x symbol after) = true := by
  obtain ⟨-, hrole, -⟩ := Symbol.compounds_spec hsymbol
  have hexponent : endsInExponent (' ' :: x.reverse) = false := by simp [endsInExponent]
  have hoperator : endsInOperator (' ' :: x.reverse) = false := by
    obtain ⟨c, rest, hreverse⟩ := List.exists_cons_of_ne_nil (List.reverse_ne_nil_iff.mpr hx.ne_nil)
    have hc : c ∈ x := List.mem_reverse.mp (by simp [hreverse])
    have hblank := (hx.plain c hc).1
    simp [endsInOperator, hreverse, Text.isBlank_space, hblank, (hx.plain c hc).2.1]
  simp [isSplitPoint, compoundPoint, hexponent, hrole, hoperator]

theorem isSplitPoint_assignPoint (hx : IsTargetWord x) (hsymbol : symbol ∈ Symbol.compounds)
    (hafter : ∀ c ∈ after.head?, Symbol.isSymbolChar c = false) :
    isSplitPoint (assignPoint x symbol after) = !symbol.isShift := by
  have hmem : assignPoint x symbol after ∈ scan (compoundText x symbol after) := by
    simp [scan_compound hx hsymbol hafter]
  have hne : symbol.text.reverse ≠ [] := by
    simpa using Symbol.text_ne_nil (Symbol.mem_table_of_mem_compounds hsymbol)
  obtain ⟨-, -, hcomparison⟩ := Symbol.compounds_spec hsymbol
  rw [isSplitPoint_of_assign hmem rfl, assignPoint, endsInComparison_append hne, hcomparison]

/-- A compound assignment splits at its `=`. -/
theorem root?_compound (hx : IsTargetWord x) (hsymbol : symbol ∈ Symbol.compounds)
    (hshift : symbol.isShift = false)
    (hafter : ∀ c ∈ after.head?, Symbol.isSymbolChar c = false) (hfree : Unassigning after) :
    root? (compoundText x symbol after) = some (assignPoint x symbol after) := by
  have hlighter : ∀ {o : Occurrence}, o.symbol ∈ Symbol.table → o.symbol.role ≠ .assign →
      o.weight < (assignPoint x symbol after).weight :=
    fun htable hrole => weight_lt_of_level_lt (Symbol.level_lt_assignment htable hrole)
  have hpoint := isSplitPoint_assignPoint hx hsymbol hafter
  rw [hshift, Bool.not_false] at hpoint
  rw [root?, splitPoints, scan_compound hx hsymbol hafter,
    List.filter_cons_of_pos (isSplitPoint_compound hx hsymbol), List.filter_cons_of_pos hpoint]
  refine heaviest?_cons_of_lt (heaviest?_cons fun o ho => Nat.le_of_lt ?_) ?_
  · obtain ⟨hscan, -⟩ := List.mem_filter.mp ho
    exact hlighter (symbol_mem_table hscan) (hfree.of_mem_scanFrom hscan)
  · exact hlighter (Symbol.mem_table_of_mem_compounds hsymbol) (Symbol.compounds_spec hsymbol).2.1

/-- In a compound shift the `=` is no split point, so it splits at the shift. -/
theorem splitPoints_shift (hx : IsTargetWord x) (hsymbol : symbol ∈ Symbol.compounds)
    (hshift : symbol.isShift = true)
    (hafter : ∀ c ∈ after.head?, Symbol.isSymbolChar c = false) (hfree : Unassigning after) :
    Bare (compoundText x symbol after) ∧
      root? (compoundText x symbol after) = some (compoundPoint x symbol ('=' :: after)) := by
  have hpoint := isSplitPoint_assignPoint hx hsymbol hafter
  rw [hshift, Bool.not_true] at hpoint
  have hpoints : splitPoints (compoundText x symbol after) =
      compoundPoint x symbol ('=' :: after) ::
      (scanFrom ('=' :: (symbol.text.reverse ++ ' ' :: x.reverse)) 0 after).filter
        isSplitPoint := by
    rw [splitPoints, scan_compound hx hsymbol hafter,
      List.filter_cons_of_pos (isSplitPoint_compound hx hsymbol),
      List.filter_cons_of_neg (by simp [hpoint])]
  have hrest : ∀ o ∈ (scanFrom ('=' :: (symbol.text.reverse ++ ' ' :: x.reverse)) 0 after).filter
      isSplitPoint, o.symbol ∈ Symbol.table ∧ o.symbol.role ≠ .assign := by
    intro o ho
    obtain ⟨hscan, -⟩ := List.mem_filter.mp ho
    exact ⟨symbol_mem_table hscan, hfree.of_mem_scanFrom hscan⟩
  constructor
  · intro o ho
    rw [hpoints] at ho
    rcases List.mem_cons.mp ho with rfl | ho
    · exact (Symbol.compounds_spec hsymbol).2.1
    · exact (hrest o ho).2
  · rw [root?, hpoints]
    refine heaviest?_cons fun o ho => ?_
    exact weight_le_of_isShift (Symbol.mem_table_of_mem_compounds hsymbol) hshift (hrest o ho).1
      (hrest o ho).2

end Occurrence

theorem isPlain_compoundText {x : Text} {symbol : Symbol} (hx : IsTargetWord x)
    (hsymbol : symbol ∈ Symbol.compounds) :
    ∀ c ∈ compoundText x symbol [' '], Brackets.paren.isPlain c = true := by
  intro c hc
  have hcases : c ∈ x ∨ c ∈ symbol.text ∨ c ∈ [' ', '='] := by
    simp only [compoundText, List.mem_append, List.mem_cons, List.not_mem_nil, or_false] at hc ⊢
    tauto
  rcases hcases with hc | hc | hc
  · exact (hx.plain c hc).2.2
  · exact (Symbol.isPlain_compound hsymbol c hc).1
  · have hplain : ∀ c ∈ [' ', '='], Brackets.paren.isPlain c = true := by decide
    exact hplain c hc

theorem trim_compoundText {x : Text} {symbol : Symbol} (hx : IsTargetWord x) (first : Text) :
    Text.trim (compoundText x symbol (' ' :: first)) =
      compoundText x symbol (Text.trimRight (' ' :: first)) := by
  have hequals : Text.isBlank '=' = false := by decide
  have hsplit : ∀ right, compoundText x symbol right =
      (x ++ ' ' :: symbol.text) ++ '=' :: right := by
    intro right
    simp [compoundText]
  have hstarts : Text.trimLeft (x ++ ' ' :: symbol.text) = x ++ ' ' :: symbol.text := by
    obtain ⟨c, rest, rfl⟩ := List.exists_cons_of_ne_nil hx.ne_nil
    refine Text.trimLeft_of_starts fun d hd => ?_
    obtain rfl : c = d := by simpa using hd
    exact (hx.plain c (List.mem_cons_self ..)).1
  rw [hsplit, hsplit, Text.trim_append_cons hequals, hstarts]

theorem Item.ofText_compoundText {x : Text} {symbol : Symbol} (hx : IsTargetWord x)
    (first : Text) :
    (ofText (compoundText x symbol (' ' :: first)) : List (Item Expr)) =
      [.text (compoundText x symbol (Text.trimRight (' ' :: first)))] := by
  have htrim : Text.trim (compoundText x symbol (' ' :: first)) = _ := trim_compoundText hx first
  have hne : Text.trim (compoundText x symbol (' ' :: first)) ≠ [] := by
    rw [htrim]
    simp [compoundText]
  rw [ofText, Text.fragment?_of_ne_nil hne, htrim]
  rfl

/-- A statement whose first fragment can be split is split there or in a later one. -/
theorem Cut.find?_cons_cases {fragment : Text} {point : Occurrence}
    (hroot : Occurrence.root? fragment = some point) (rest : List (Item Expr)) :
    find? (.text fragment :: rest) = some ⟨[], point, rest⟩ ∨
      ∃ later, find? rest = some later ∧
        find? (.text fragment :: rest) = some (later.cons (.text fragment)) := by
  have hin : inFirst? (.text fragment) rest = some ⟨[], point, rest⟩ := by
    rw [inFirst?, hroot]
    rfl
  rw [find?, hin]
  cases find? rest with
  | none => exact .inl rfl
  | some later =>
      by_cases hlt : later.level < (⟨[], point, rest⟩ : Cut Expr).level
      · exact .inl (if_pos hlt)
      · exact .inr ⟨later, rfl, if_neg hlt⟩

theorem SplitTree.eq_of_ofItems {levels : Nat} {items other : List (Item Expr)}
    (h : ofItems levels items = .leaf other) : items = other := by
  cases hfind : Cut.find? items with
  | none =>
      rw [ofItems_of_find? hfind] at h
      exact leaf.inj h
  | some cut =>
      cases levels with
      | zero =>
          rw [ofItems, hfind] at h
          cases h
      | succ levels =>
          rw [ofItems_succ_of_find? hfind] at h
          cases h

/-! ## How splitting fails -/

namespace Drafting

variable {α β : Type}

/-- The step fails in no other way than that the limit stops it or an assignment is refused. -/
def FailsOnly (step : Drafting α) : Prop :=
  ∀ draft fault, (step.run draft).1 = .error fault →
    fault.isTooDeep = true ∨ ∃ target, fault.cause = .notAssignable target

theorem Resolves.failsOnly {step : Drafting α} {post : α → Prop} (h : Resolves step post) :
    FailsOnly step := by
  intro draft fault hfault
  rcases h draft with ⟨a, ha, -⟩ | ⟨target, source, hrefused⟩
  · rw [hfault] at ha
    cases ha
  · rw [hfault] at hrefused
    rw [Except.error.inj hrefused]
    exact .inr ⟨target, rfl⟩

theorem failsOnly_pure (a : α) : FailsOnly (pure a) := by
  rintro draft fault ⟨⟩

theorem FailsOnly.bind {step : Drafting α} (h : FailsOnly step) {next : α → Drafting β}
    (hnext : ∀ a, FailsOnly (next a)) : FailsOnly (step >>= next) := by
  intro draft fault hfault
  cases hrun : step.run draft with
  | mk result drafted =>
      cases result with
      | error other =>
          rw [Action.run_bind_error hrun] at hfault
          obtain rfl : other = fault := Except.error.inj hfault
          exact h draft other (by rw [hrun])
      | ok a =>
          rw [Action.run_bind_ok hrun] at hfault
          exact hnext a drafted fault hfault

end Drafting

namespace Statement

open Drafting Shading.Action

variable {setting : Setting} {x : Text} {id : VariableId} {symbol : Symbol}

/-! ## The target -/

theorem gives_word (hx : IsTargetWord x) (hfind : setting.scope.find? x = some id) (levels : Nat) :
    Gives (tree setting (.ofItems levels (Item.ofText (x ++ [' '])))) (some (.var id)) := by
  have htrim : Text.trim (x ++ [' ']) = x := by
    rw [Text.trim_append_space, Text.trim_of_tight hx.tight]
  have hdenoted : (Target.bound id).Denoted setting.scope (x ++ [' ']) := by
    refine .bound ?_ ?_ ?_
    · rw [htrim]
      exact hx.ne_nil
    · rw [htrim]
      exact fun c hc => (hx.plain c hc).1
    · rw [htrim]
      exact hfind
  intro draft
  refine ⟨[], ?_⟩
  rw [run_target hdenoted hx.ordinary]
  simp [Target.created, Target.place]

/-- What is left of the `=` of a compound assignment splits at its symbol, with nothing on the right
of it. -/
theorem find?_left (hx : IsTargetWord x) (hsymbol : symbol ∈ Symbol.compounds) :
    Cut.find? (Item.ofText (x ++ ' ' :: symbol.text) : List (Item Expr)) =
      some ⟨[], .compoundPoint x symbol [], []⟩ := by
  have htable := Symbol.mem_table_of_mem_compounds hsymbol
  have htight : Text.Tight (x ++ ([' '] ++ symbol.text)) :=
    hx.tight.append (Text.tight_of_forall fun c hc => (Symbol.isPlain_compound hsymbol c hc).2)
      hx.ne_nil (Symbol.text_ne_nil htable) [' ']
  have hroot : Occurrence.root? (x ++ ' ' :: symbol.text) = some (.compoundPoint x symbol []) := by
    have hat : Symbol.at? (symbol.text ++ []) = some symbol :=
      Symbol.at?_text_append htable (by simp)
    have hscan := Occurrence.scan_compoundPoint hx hat
    rw [List.append_nil, Occurrence.scanFrom] at hscan
    rw [Occurrence.root?, Occurrence.splitPoints, hscan,
      List.filter_cons_of_pos (Occurrence.isSplitPoint_compound hx hsymbol)]
    rfl
  have hfragment : Text.fragment? (x ++ ' ' :: symbol.text) = some (x ++ ' ' :: symbol.text) :=
    Text.fragment?_of_tight htight (by simp)
  simp [Item.ofText, hfragment, Cut.find?, Cut.inFirst?, hroot]

/-- The symbol left of the `=` lacks an operand, and gives the other. -/
theorem gives_left (hx : IsTargetWord x) (hfind : setting.scope.find? x = some id)
    (hsymbol : symbol ∈ Symbol.compounds) (levels : Nat) :
    Gives (tree setting (.ofItems (levels + 1) (Item.ofText (x ++ ' ' :: symbol.text))))
      (some (.var id)) := by
  have hleft : (⟨[], .compoundPoint x symbol [], []⟩ : Cut Expr).leftSide =
      Item.ofText (x ++ [' ']) := by
    simp [Cut.leftSide, Occurrence.before, Occurrence.compoundPoint]
  have hright : (⟨[], .compoundPoint x symbol [], []⟩ : Cut Expr).rightSide = [] := rfl
  have hnone : Gives (tree setting (.ofItems levels [])) none := by
    rw [SplitTree.ofItems_of_find? rfl]
    exact gives_pure none
  have hkept : Gives (combine setting (.compoundPoint x symbol []) (some (.var id)) none)
      (.var id) :=
    (gives_report _).bind (gives_pure _)
  rw [SplitTree.ofItems_succ_of_find? (find?_left hx hsymbol), hleft, hright]
  exact gives_split (gives_word hx hfind levels) hnone hkept

/-- A statement that the limit does not stop at the target goes on with the target. -/
theorem run_left (hx : IsTargetWord x) (hfind : setting.scope.find? x = some id)
    (hsymbol : symbol ∈ Symbol.compounds) {next : Option Expr → Drafting (Option Expr)}
    {draft whole : Draft} {outcome : Except Fault (Option Expr)}
    (h : (tree setting (.ofItems setting.limit (Item.ofText (x ++ ' ' :: symbol.text))) >>=
      next).run draft = (outcome, whole))
    (hgoes : isStopped outcome = false) :
    ∃ events, (next (some (.var id))).run { draft with events := draft.events ++ events } =
      (outcome, whole) := by
  cases hlimit : setting.limit with
  | succ levels =>
      obtain ⟨events, hleft⟩ := gives_left hx hfind hsymbol levels draft
      rw [hlimit, run_bind_ok hleft] at h
      exact ⟨events, h⟩
  | zero =>
      let point := Occurrence.compoundPoint x symbol []
      have hstop : (tree setting (.ofItems 0 (Item.ofText (x ++ ' ' :: symbol.text)))).run draft =
          (.error ⟨.tooDeep setting.limit, point.fragment⟩, draft) := by
        rw [SplitTree.ofItems, find?_left hx hsymbol]
        rfl
      rw [hlimit, run_bind_error hstop] at h
      rw [← (Prod.mk.inj h).1] at hgoes
      cases hgoes

/-! ## Assignments -/

/-- A flat compound assignment sets its target to what its right side gives alone. -/
theorem flat_compound (hx : IsTargetWord x) (hfind : setting.scope.find? x = some id)
    (hsymbol : symbol ∈ Symbol.compounds) (hshift : symbol.isShift = false) {first : Text}
    (hfirst : Occurrence.Unassigning first) {items : List (Item Expr)}
    (hitems : ∀ i ∈ items, i.Unassigning) {before alone whole : Draft} {e : Expr}
    {outcome : Except Fault (Option Expr)}
    (halone : (flat setting setting.limit (Item.ofText first ++ items)).run before =
      (.ok (some e), alone))
    (hwhole : (flat setting setting.limit
      (Item.ofText (compoundText x symbol (' ' :: first)) ++ items)).run before =
        (outcome, whole))
    (hgoes : isStopped outcome = false) :
    outcome = .ok (some (.var id)) ∧ whole.created = alone.created ∧
      whole.assignments = alone.assignments ++ [⟨id, e⟩] := by
  let after := Text.trimRight (' ' :: first)
  let point := Occurrence.assignPoint x symbol after
  have hroot : Occurrence.root? (compoundText x symbol after) = some point :=
    Occurrence.root?_compound hx hsymbol hshift (Occurrence.ordinary_space_cons first)
      hfirst.space_cons
  have hleftSide : (⟨[], point, items⟩ : Cut Expr).leftSide =
      Item.ofText (x ++ ' ' :: symbol.text) := by
    simp [Cut.leftSide, Occurrence.before, point, Occurrence.assignPoint]
  have hrightSide : (⟨[], point, items⟩ : Cut Expr).rightSide = Item.ofText first ++ items :=
    congrArg (·.toList.map Item.text ++ items)
      (Text.fragment?_congr (by simp [point, Occurrence.assignPoint, after]))
  rw [flat, Item.ofText_compoundText hx, List.singleton_append,
    SplitTree.ofItems_succ_of_find? (Cut.find?_of_root hroot rfl hitems), hleftSide,
    hrightSide, tree] at hwhole
  let event : Event := .split point.fragment point.symbol.text point.offset
  let reported : Draft := { before with events := before.events ++ [event] }
  have hreport : (report event).run before = (.ok (), reported) := rfl
  rw [run_bind_ok hreport] at hwhole
  -- The symbol before the `=` lacks its right operand, so the left side is the variable alone.
  obtain ⟨events, hwhole⟩ := run_left hx hfind hsymbol hwhole hgoes
  let between : Draft := { reported with events := reported.events ++ events }
  have hcreated : between.created = before.created := rfl
  obtain ⟨result, drafted, hbefore, hbetween⟩ := run_tree_of_created hcreated
    (.ofItems (setting.limit + 1) (Item.ofText first ++ items))
  obtain ⟨rfl, rfl⟩ : result = .ok (some e) ∧ before.append drafted = alone := by
    rw [flat, hbefore] at halone
    exact Prod.mk.inj halone
  have hright : (tree setting (.ofItems setting.limit (Item.ofText first ++ items))).run between =
      (.ok (some e), between.append drafted) :=
    (run_tree_of_goes hwhole hgoes).trans hbetween
  have hpoint : point.symbol = .assignment := rfl
  rw [run_bind_ok hright] at hwhole
  obtain ⟨more, hcombined⟩ := run_combine_assignment hpoint id (some e) (between.append drafted)
  obtain ⟨rfl, rfl⟩ := Prod.mk.inj (hcombined.symm.trans hwhole)
  exact ⟨rfl, rfl, rfl⟩

/-! ## Shifts -/

/-- A split with an operation on its left gives an operation, whatever is on its right. -/
theorem operation_of_combine {point : Occurrence} (hrole : point.symbol.role ≠ .assign)
    {left e : Expr} (hleft : left.operation?.isSome = true) {right : Option Expr}
    {draft drafted : Draft}
    (h : (combine setting point (some left) right).run draft = (.ok e, drafted)) :
    e.operation?.isSome = true := by
  cases right with
  | none =>
      obtain rfl : left = e := Except.ok.inj (Prod.mk.inj h).1
      exact hleft
  | some right =>
      simp only [combine] at h
      split at h
      next hassign => exact absurd hassign hrole
      next =>
        obtain rfl := Except.ok.inj (Prod.mk.inj h).1
        rfl
      next =>
        obtain rfl := Except.ok.inj (Prod.mk.inj h).1
        rfl
      next =>
        obtain rfl := Except.ok.inj (Prod.mk.inj h).1
        rfl

/-- What is left of a compound shift is its target, and what is right of it is not empty: the two
make an operation. -/
theorem operation_of_shift_root (hx : IsTargetWord x) (hfind : setting.scope.find? x = some id)
    (hsymbol : symbol ∈ Symbol.compounds) {after : Text} (levels : Nat)
    {rest : List (Item Expr)} {cut : Cut Expr}
    (hcut : cut = ⟨[], .compoundPoint x symbol ('=' :: after), rest⟩)
    {draft drafted : Draft} {result : Option Expr}
    (h : (tree setting (.split cut.point (.ofItems levels cut.leftSide)
      (.ofItems levels cut.rightSide))).run draft = (.ok result, drafted)) :
    ∃ e, result = some e ∧ e.operation?.isSome = true := by
  rw [tree] at h
  obtain ⟨-, reported, -, h⟩ := exists_of_run_bind h
  obtain ⟨leftValue, afterLeft, hleft, h⟩ := exists_of_run_bind h
  obtain ⟨rightValue, afterRight, hright, h⟩ := exists_of_run_bind h
  obtain ⟨e, combined, hcombine, h⟩ := exists_of_run_bind h
  obtain rfl : some e = result := Except.ok.inj (Prod.mk.inj h).1
  have hleftSide : cut.leftSide = Item.ofText (x ++ [' ']) := by
    simp [hcut, Cut.leftSide, Occurrence.before, Occurrence.compoundPoint]
  obtain rfl : leftValue = some (.var id) := by
    obtain ⟨events, hword⟩ := gives_word hx hfind levels reported
    rw [← hleftSide, hleft] at hword
    exact Except.ok.inj (Prod.mk.inj hword).1
  cases rightValue with
  | none =>
      obtain ⟨hleaf, -⟩ := tree_eq_none hright
      have hnil : cut.rightSide = [] := SplitTree.eq_of_ofItems hleaf
      have htrim : Text.trim ('=' :: after) ≠ [] := by
        have hblank : Text.isBlank '=' = false := by decide
        have happend := Text.trim_append_cons hblank [] after
        rw [List.nil_append] at happend
        simp [happend]
      simp [hcut, Cut.rightSide, Occurrence.compoundPoint, Item.ofText,
        Text.fragment?_of_ne_nil htrim] at hnil
  | some right =>
      obtain ⟨hbetween, -, -⟩ := Symbol.compounds_spec hsymbol
      obtain ⟨operation, hoperation⟩ := Option.isSome_iff_exists.mp hbetween
      have hpoint : cut.point.symbol.between? = some operation := by
        rw [hcut]
        exact hoperation
      rw [combine_between hpoint] at hcombine
      obtain rfl : .binary operation (.var id) right = e :=
        Except.ok.inj (Prod.mk.inj hcombine).1
      exact ⟨_, rfl, rfl⟩

/-- A flat compound shift gives an operation: the shift itself, or one that a later fragment makes
of it. -/
theorem operation_of_shift (hx : IsTargetWord x) (hfind : setting.scope.find? x = some id)
    (hsymbol : symbol ∈ Symbol.compounds) (hshift : symbol.isShift = true) {after : Text}
    (hafter : ∀ c ∈ after.head?, Symbol.isSymbolChar c = false)
    (hfree : Occurrence.Unassigning after) (levels : Nat) {rest : List (Item Expr)}
    (hrest : ∀ i ∈ rest, i.Unassigning) {draft drafted : Draft} {result : Option Expr}
    (h : (tree setting (.ofItems levels (.text (compoundText x symbol after) :: rest))).run draft =
      (.ok result, drafted)) :
    ∃ e, result = some e ∧ e.operation?.isSome = true := by
  obtain ⟨-, hroot⟩ := Occurrence.splitPoints_shift hx hsymbol hshift hafter hfree
  induction levels generalizing rest draft drafted result with
  | zero =>
      rw [SplitTree.ofItems] at h
      rcases Cut.find?_cons_cases hroot rest with hcut | ⟨later, -, hcut⟩
      · rw [hcut] at h
        cases h
      · rw [hcut] at h
        cases h
  | succ levels ih =>
      rcases Cut.find?_cons_cases hroot rest with hcut | ⟨later, hlater, hcut⟩
      · rw [SplitTree.ofItems_succ_of_find? hcut] at h
        exact operation_of_shift_root hx hfind hsymbol levels rfl h
      · rw [SplitTree.ofItems_succ_of_find? hcut, tree] at h
        obtain ⟨-, reported, -, h⟩ := exists_of_run_bind h
        obtain ⟨leftValue, afterLeft, hleft, h⟩ := exists_of_run_bind h
        obtain ⟨rightValue, afterRight, hright, h⟩ := exists_of_run_bind h
        obtain ⟨e, combined, hcombine, h⟩ := exists_of_run_bind h
        obtain rfl : some e = result := Except.ok.inj (Prod.mk.inj h).1
        obtain ⟨hrole, hleftSide, -⟩ := SplitTree.unassigning_sides hrest hlater
        obtain ⟨left, rfl, hoperation⟩ := ih hleftSide hleft
        exact ⟨e, rfl, operation_of_combine hrole hoperation hcombine⟩

/-! ## Statements -/

theorem failsOnly_tree (splits : SplitTree Expr) : FailsOnly (tree setting splits) := by
  induction splits with
  | leaf items => exact (resolves_leaf items).failsOnly
  | tooDeep point =>
      rintro draft fault ⟨⟩
      exact .inl rfl
  | split point left right ihleft ihright =>
      refine (resolves_report _).failsOnly.bind fun _ => ihleft.bind fun leftValue => ?_
      refine ihright.bind fun rightValue => ?_
      exact (resolves_combine point leftValue rightValue).failsOnly.bind fun _ => failsOnly_pure _

/-- Whatever the first fragment of a statement is, the rest gives the same items. -/
theorem exists_items {first : Text} {rest : List Piece}
    (hrest : ∀ fragment, Piece.text fragment ∈ rest → Occurrence.Unassigning fragment)
    {result : Option Expr} {alone : Draft}
    (halone : (value setting (Piece.ofText first ++ rest)).run {} = (.ok result, alone)) :
    ∃ items before, (∀ i ∈ items, i.Unassigning) ∧
      ∀ text, (value setting (Piece.ofText text ++ rest)).run {} =
        (flat setting setting.limit (Item.ofText text ++ items)).run before := by
  have hpieces : ∀ text : Text,
      (pieces setting setting.limit (Piece.ofText text ++ rest)).run {} = _ :=
    fun text => run_pieces_ofText setting.limit text rest {}
  cases hgroups : (pieces setting setting.limit rest).run {} with
  | mk groups before =>
      simp only [hgroups] at hpieces
      cases groups with
      | error fault =>
          rw [value, run_bind_error (hpieces _)] at halone
          cases halone
      | ok items =>
          refine ⟨items, before, unassigning_pieces hrest hgroups, fun text => ?_⟩
          rw [value, run_bind_ok (hpieces _)]

/-- A flat compound shift that the limit does not stop gives an operation and assigns nothing. -/
theorem flat_shift (hx : IsTargetWord x) (hfind : setting.scope.find? x = some id)
    (hsymbol : symbol ∈ Symbol.compounds) (hshift : symbol.isShift = true) {first : Text}
    (hfirst : Occurrence.Unassigning first) {items : List (Item Expr)}
    (hitems : ∀ i ∈ items, i.Unassigning) {before whole : Draft}
    {outcome : Except Fault (Option Expr)}
    (hwhole : (flat setting setting.limit
      (Item.ofText (compoundText x symbol (' ' :: first)) ++ items)).run before =
        (outcome, whole))
    (hgoes : isStopped outcome = false) :
    (∃ e, outcome = .ok (some e) ∧ e.operation?.isSome = true) ∧
      whole.assignments = before.assignments := by
  have hordinary := Occurrence.ordinary_space_cons first
  have hfree := hfirst.space_cons
  obtain ⟨hbare, -⟩ := Occurrence.splitPoints_shift hx hsymbol hshift hordinary hfree
  rw [Item.ofText_compoundText hx, List.singleton_append] at hwhole
  have hidle : Idle (.text (compoundText x symbol (Text.trimRight (' ' :: first))) :: items) :=
    ⟨hbare.headed, fun i hi => (hitems i hi).bare⟩
  obtain ⟨hassignments, hresult⟩ := inert_flat_of_idle setting.limit hidle before
  rw [hwhole] at hassignments hresult
  refine ⟨?_, hassignments⟩
  cases outcome with
  | error fault =>
      rcases failsOnly_tree _ before fault (congrArg Prod.fst hwhole) with hstop | ⟨target, hcause⟩
      · rw [isStopped, hstop] at hgoes
        cases hgoes
      · exact absurd hcause (hresult target)
  | ok result =>
      obtain ⟨e, rfl, hoperation⟩ := operation_of_shift hx hfind hsymbol hshift hordinary hfree
        (setting.limit + 1) hitems hwhole
      exact ⟨e, rfl, hoperation⟩

/-- What a compound assignment drafts, compared with what its right side drafts alone. -/
theorem value_compound (hx : IsTargetWord x) (hfind : setting.scope.find? x = some id)
    (hsymbol : symbol ∈ Symbol.compounds) {first : Text}
    (hfirst : Occurrence.Unassigning first) {rest : List Piece}
    (hrest : ∀ fragment, Piece.text fragment ∈ rest → Occurrence.Unassigning fragment)
    {alone whole : Draft} {r : Expr} {outcome : Except Fault (Option Expr)}
    (halone : (value setting (Piece.ofText first ++ rest)).run {} = (.ok (some r), alone))
    (hwhole : (value setting (Piece.ofText (compoundText x symbol (' ' :: first)) ++
      rest)).run {} = (outcome, whole))
    (hgoes : isStopped outcome = false) :
    (symbol.isShift = false → outcome = .ok (some (.var id)) ∧ whole.created = alone.created ∧
      whole.assignments = alone.assignments ++ [⟨id, r⟩]) ∧
    (symbol.isShift = true → (∃ e, outcome = .ok (some e) ∧ e.operation?.isSome = true) ∧
      whole.assignments = alone.assignments) := by
  obtain ⟨items, before, hitems, hvalues⟩ := exists_items hrest halone
  rw [hvalues] at halone hwhole
  refine ⟨fun hshift => ?_, fun hshift => ?_⟩
  · exact flat_compound hx hfind hsymbol hshift hfirst hitems halone hwhole hgoes
  · have hright : Inert (flat setting setting.limit (Item.ofText first ++ items))
        fun _ => True := by
      refine inert_flat _ fun i hi => ?_
      rcases List.mem_append.mp hi with hi | hi
      · exact Item.unassigning_ofText hfirst i hi
      · exact hitems i hi
    obtain ⟨hbefore, -⟩ := hright before
    rw [halone] at hbefore
    obtain ⟨houtcome, hassignments⟩ :=
      flat_shift hx hfind hsymbol hshift hfirst hitems hwhole hgoes
    exact ⟨houtcome, hassignments.trans hbefore.symm⟩

end Statement

/-! ## Sessions -/

namespace Session

/-- What a session does with a compound assignment to a variable, compared with what it does with
the right side alone, which gives `r`. -/
structure Compounds (session : Session) (symbol : Symbol) (id : VariableId) (r : Expr)
    (alone whole : Except Fault (Option Expr) × Session) : Prop where
  assigned : symbol.isShift = false →
    whole.1 = .ok (some (.var id)) ∧ whole.2.store = alone.2.store.assign id r
  shifted : symbol.isShift = true →
    (∃ e, whole.1 = .ok (some e) ∧ e.operation?.isSome = true) ∧
    ∀ other, other < session.store.size → whole.2.store.get? other = alone.2.store.get? other

/-- Unless the limit stops it, a compound assignment gives its target and sets it to what its right
side resolves to alone.  A compound shift gives an operation, and leaves every variable as the right
side alone leaves it. -/
theorem evaluate_compound {session : Session} {x : Text} (hx : IsTargetWord x) {id : VariableId}
    (hfind : session.scope.find? x = some id) {symbol : Symbol}
    (hsymbol : symbol ∈ Symbol.compounds) {right : Text}
    (hright : ∀ parts, Brackets.paren.cut session.options.limit right = .ok parts →
      ∀ fragment, Piece.text fragment ∈ parts →
        ∀ o ∈ Occurrence.scan fragment, o.symbol.text ≠ ['='])
    {r : Expr} (hvalue : ((evaluateText right).run session).1 = .ok (some r))
    (hgoes : Action.isStopped
      ((evaluateText (compoundText x symbol (' ' :: right))).run session).1 = false) :
    session.Compounds symbol id r ((evaluateText right).run session)
      ((evaluateText (compoundText x symbol (' ' :: right))).run session) := by
  have htext : ∀ text, compoundText x symbol [' '] ++ text =
      compoundText x symbol (' ' :: text) := by
    intro text
    simp [compoundText]
  obtain ⟨first, rest, hfirst, hrest, hrun, hrun'⟩ :=
    exists_evaluateText_lead (isPlain_compoundText hx hsymbol) hright (by rwa [htext])
  rw [htext, htext] at hrun'
  obtain ⟨result, alone, halone⟩ : ∃ result alone,
      (Statement.value session.setting (Piece.ofText first ++ rest)).run {} =
        (result, alone) := ⟨_, _, rfl⟩
  obtain ⟨outcome, whole, hwhole⟩ : ∃ outcome whole,
      (Statement.value session.setting
        (Piece.ofText (compoundText x symbol (' ' :: first)) ++ rest)).run {} =
        (outcome, whole) := ⟨_, _, rfl⟩
  rw [hrun, run_evaluate, halone] at hvalue ⊢
  rw [hrun', run_evaluate, hwhole] at hgoes ⊢
  obtain rfl : result = .ok (some r) := hvalue
  obtain ⟨hassigned, hshifted⟩ :=
    Statement.value_compound hx hfind hsymbol hfirst hrest halone hwhole hgoes
  refine ⟨fun hshift => ?_, fun hshift => ?_⟩
  · obtain ⟨houtcome, hcreated, hassignments⟩ := hassigned hshift
    refine ⟨houtcome, ?_⟩
    simp [commit, Store.commit, hcreated, hassignments, Store.assignAll]
  · -- A shift drafts no assignment of its own, only those in the groups of the right side.
    obtain ⟨houtcome, hassignments⟩ := hshifted hshift
    refine ⟨houtcome, fun other hother => ?_⟩
    have hwritten : whole.written? other = alone.written? other := by
      rw [Draft.written?, Draft.written?, hassignments]
    simp only [commit, Store.get?_commit hother, hwritten]

/-- The right side assigns to `y` in a group.  `x -=` sets `x` to its value, and `x >>=` leaves `x`
as it is. -/
theorem evaluate_compound_group :
    let x : Variable := .single .int (some ['x'])
    let y : Variable := .single .int (some ['y'])
    let session : Session := { scope := ⟨[(['x'], 0), (['y'], 1)]⟩, store := ⟨#[x, y]⟩ }
    let minus : Symbol := ⟨['-'], .subtractive, .betweenOrBefore .subtract .negate⟩
    let shift : Symbol := Symbol.relation ">>" .shiftRightLogical
    let right : Text := "(y = x) * 2".toList
    let r : Expr := .binary .multiply (.var 1) (.literal (.int 2))
    let run (text : Text) := (evaluateText text).run session
    (run right).1 = .ok (some r) ∧
    (run (compoundText ['x'] minus (' ' :: right))).1 = .ok (some (.var 0)) ∧
    (run (compoundText ['x'] minus (' ' :: right))).2.store =
      ⟨#[{ x with value := some r }, { y with value := some (.var 0) }]⟩ ∧
    (∃ e, (run (compoundText ['x'] shift (' ' :: right))).1 = .ok (some e) ∧
      e.operation?.isSome = true) ∧
    (run (compoundText ['x'] shift (' ' :: right))).2.store.get? 0 = some x ∧
    (run (compoundText ['x'] shift (' ' :: right))).2.store.get? 1 =
      some { y with value := some (.var 0) } := by
  intro x y session minus shift right r run
  have hx : IsTargetWord ['x'] := ⟨by decide, by decide⟩
  have hright : ∀ parts, Brackets.paren.cut session.options.limit right = .ok parts →
      ∀ fragment, Piece.text fragment ∈ parts →
        ∀ o ∈ Occurrence.scan fragment, o.symbol.text ≠ ['='] := by
    intro parts hparts fragment hmem
    have htexts : (Brackets.paren.cut session.options.limit right).map
        (·.filterMap Piece.text?) = .ok ["* 2".toList] := by
      decide +kernel
    have hfree : ∀ fragment ∈ ["* 2".toList],
        ∀ o ∈ Occurrence.scan fragment, o.symbol.text ≠ ['='] := by
      decide +kernel
    rw [hparts] at htexts
    refine hfree fragment ?_
    rw [← Except.ok.inj htexts]
    exact List.mem_filterMap.mpr ⟨_, hmem, rfl⟩
  have hvalue : (run right).1 = .ok (some r) := by decide +kernel
  have hstore : (run right).2.store = ⟨#[x, { y with value := some (.var 0) }]⟩ := by
    decide +kernel
  have hcompounds : minus ∈ Symbol.compounds ∧ shift ∈ Symbol.compounds := by decide
  have hminus : session.Compounds minus 0 r (run right)
      (run (compoundText ['x'] minus (' ' :: right))) :=
    evaluate_compound hx rfl hcompounds.1 hright hvalue (by decide +kernel)
  have hshift : session.Compounds shift 0 r (run right)
      (run (compoundText ['x'] shift (' ' :: right))) :=
    evaluate_compound hx rfl hcompounds.2 hright hvalue (by decide +kernel)
  obtain ⟨hgives, hsets⟩ := hminus.assigned (by decide)
  obtain ⟨hoperation, hkept⟩ := hshift.shifted (by decide)
  have hkept₀ := hkept 0 (by decide)
  have hkept₁ := hkept 1 (by decide)
  rw [hstore] at hsets hkept₀ hkept₁
  exact ⟨hvalue, hgives, hsets, hoperation, hkept₀, hkept₁⟩

/-- `x <<= 1` gives a shift, and `x` has no value after it either. -/
theorem evaluate_compound_shift :
    let x : Variable := .single .int (some ['x'])
    let session : Session := { scope := ⟨[(['x'], 0)]⟩, store := ⟨#[x]⟩ }
    let shift : Symbol := Symbol.relation "<<" .shiftLeftLogical
    let run (text : Text) := (evaluateText text).run session
    shift ∈ Symbol.compounds ∧ compoundText ['x'] shift " 1".toList = "x <<= 1".toList ∧
    (run "1".toList).1 = .ok (some (.literal (.int 1))) ∧
    (run "x <<= 1".toList).1 =
      .ok (some (.binary .shiftLeftLogical (.var 0) (.literal (.int 1)))) ∧
    (run "x <<= 1".toList).2.store = session.store := by
  decide +kernel

end Session

end Shading
