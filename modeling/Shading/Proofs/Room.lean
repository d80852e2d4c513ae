import Mathlib.Algebra.Ring.Nat
import Shading.Proofs.Frame
import Shading.Proofs.Gives

/-!
# Room enough

Groups and splits are counted against one limit, and a statement is stopped when it runs
out of room for them.  How much room it needs at most can be read off its pieces: each
group on the way down takes one level, and each split uses up at least one operator
character, for what stands before the symbol and what stands after it are what remains of
the fragment, and trimming takes only blanks.

With as many levels as groups nest and operator characters stand in the fragments, a
statement is resolved.  All that can go wrong is then that an assignment is refused.

* `Cut.chars_sides`: what a split leaves over on its two sides.
* `resolves_tree`: a flat statement, by the operator characters in it.
* `resolves_pieces`: the groups of a statement, by how deep they nest.
* `evaluate_resolves`: whole statements.
-/

namespace Shading

/-! ## Operator characters -/

/-- The number of operator characters in a text. -/
def Symbol.chars (text : Text) : Nat :=
  text.countP isSymbolChar

/-- The number of operator characters in all fragments of some pieces. -/
def Piece.chars (parts : List Piece) : Nat :=
  ((allFragments parts).map Symbol.chars).sum

namespace Symbol

@[simp] theorem chars_append (first second : Text) :
    chars (first ++ second) = chars first + chars second :=
  List.countP_append

theorem chars_of_blank {blanks : Text} (h : ∀ c ∈ blanks, Text.isBlank c = true) :
    chars blanks = 0 := by
  refine List.countP_eq_zero.mpr fun c hc => ?_
  simp [isSymbolChar_of_isBlank (h c hc)]

@[simp] theorem chars_trim (text : Text) : chars (Text.trim text) = chars text := by
  obtain ⟨lead, trail, htext, hlead, htrail⟩ := Text.exists_trim text
  calc chars (Text.trim text)
      = chars (lead ++ (Text.trim text ++ trail)) := by
        simp [chars_of_blank hlead, chars_of_blank htrail]
    _ = chars text := by rw [← htext]

/-- A symbol consists of operator characters, and has at least one. -/
theorem chars_text_pos {symbol : Symbol} (h : symbol ∈ table) : 0 < chars symbol.text := by
  revert symbol
  decide

end Symbol

namespace Item

variable {α : Type}

/-- The number of operator characters in the text that an item is. -/
def charsOf : Item α → Nat
  | .text fragment => Symbol.chars fragment
  | .value _ => 0

/-- The number of operator characters among items. -/
def chars (items : List (Item α)) : Nat :=
  (items.map charsOf).sum

@[simp] theorem chars_append (first second : List (Item α)) :
    chars (first ++ second) = chars first + chars second := by
  simp [chars]

@[simp] theorem chars_cons (item : Item α) (rest : List (Item α)) :
    chars (item :: rest) = item.charsOf + chars rest := by
  simp [chars]

@[simp] theorem chars_ofText (text : Text) :
    chars (ofText text : List (Item α)) = Symbol.chars text := by
  rw [ofText, ← Symbol.chars_trim]
  cases hfragment : Text.fragment? text with
  | none =>
      rw [Text.fragment?_eq_none_iff.mp hfragment]
      rfl
  | some fragment =>
      rw [(Text.fragment?_eq_some_iff.mp hfragment).1]
      simp [chars, charsOf]

end Item

namespace Piece

@[simp] theorem chars_nil : chars [] = 0 := by
  simp [chars]

@[simp] theorem chars_text_cons (fragment : Text) (rest : List Piece) :
    chars (.text fragment :: rest) = Symbol.chars fragment + chars rest := by
  simp [chars]

@[simp] theorem chars_group_cons (inner rest : List Piece) :
    chars (.group inner :: rest) = chars inner + chars rest := by
  simp [chars]

end Piece

/-- A fragment is what stands before one of its symbols, the symbol, and what stands after it. -/
theorem Occurrence.chars_of_mem_scan {fragment : Text} {o : Occurrence} (h : o ∈ scan fragment) :
    Symbol.chars fragment =
      Symbol.chars o.before + Symbol.chars o.symbol.text + Symbol.chars o.after := by
  obtain ⟨front, hbehind, htext, -, -⟩ := scanFrom_split h
  have hbefore : o.before = front := by simp [before, hbehind]
  rw [htext, hbefore, Symbol.chars_append, Symbol.chars_append, Nat.add_assoc]

/-- A split uses up the symbol, so fewer operator characters are left on its sides. -/
theorem Cut.chars_sides {α : Type} {items : List (Item α)} {cut : Cut α}
    (h : find? items = some cut) :
    Item.chars cut.leftSide + Item.chars cut.rightSide < Item.chars items := by
  obtain ⟨fragment, rfl, hpoint⟩ := exists_of_find? h
  have hscan : cut.point ∈ Occurrence.scan fragment := (List.mem_filter.mp hpoint).1
  have hfragment := Occurrence.chars_of_mem_scan hscan
  have hsymbol := Symbol.chars_text_pos (Occurrence.symbol_mem_table hscan)
  simp only [leftSide, rightSide, Item.chars_append, Item.chars_cons, Item.chars_ofText,
    Item.charsOf]
  omega

/-! ## Steps that resolve -/

namespace Drafting

variable {α β : Type} {post : α → Prop}

/-- The step gives a result of which `post` holds, or it is refused an assignment. -/
def Resolves (step : Drafting α) (post : α → Prop) : Prop :=
  ∀ draft : Draft, (∃ a, (step.run draft).1 = .ok a ∧ post a) ∨
    ∃ target source, (step.run draft).1 = .error ⟨.notAssignable target, source⟩

theorem resolves_pure {a : α} (h : post a) : Resolves (pure a) post :=
  fun _ => .inl ⟨a, rfl, h⟩

theorem resolves_report (event : Event) : Resolves (report event) fun _ => True :=
  fun _ => .inl ⟨(), rfl, trivial⟩

theorem Resolves.bind {step : Drafting α} (h : Resolves step post) {next : α → Drafting β}
    {last : β → Prop} (hnext : ∀ a, post a → Resolves (next a) last) :
    Resolves (step >>= next) last := by
  intro draft
  cases hrun : step.run draft with
  | mk result drafted =>
      have hstep := h draft
      rw [hrun] at hstep
      rcases hstep with ⟨a, rfl, ha⟩ | ⟨target, source, rfl⟩
      · rw [Action.run_bind_ok hrun]
        exact hnext a ha drafted
      · rw [Action.run_bind_error hrun]
        exact .inr ⟨target, source, rfl⟩

end Drafting

namespace Statement

open Drafting

variable {setting : Setting}

theorem resolves_combine (point : Occurrence) (left right : Option Expr) :
    Resolves (combine setting point left right) fun _ => True := by
  have hreport : ∀ (event : Event) (e : Expr),
      Resolves (do report event; pure e) fun _ => True :=
    fun event e => (resolves_report event).bind fun _ _ => resolves_pure trivial
  have hpure : ∀ e : Expr, Resolves (pure e) fun _ => True := fun e => resolves_pure trivial
  unfold combine
  split
  · split
    · split
      · exact fun draft => .inl ⟨_, rfl, trivial⟩
      · exact fun draft => .inr ⟨_, _, rfl⟩
    · exact hpure _
    · exact hpure _
    · exact hreport _ _
  · split
    · exact hpure _
    · exact hpure _
    · exact hreport _ _
  · exact hreport _ _
  · exact hreport _ _

theorem resolves_item (i : Item Expr) : Resolves (item setting i) fun _ => True := by
  intro draft
  cases i with
  | value result => exact .inl ⟨result, rfl, trivial⟩
  | text fragment =>
      rw [item]
      split
      · exact .inl ⟨_, rfl, trivial⟩
      · exact .inl ⟨_, rfl, trivial⟩

theorem resolves_leaf (items : List (Item Expr)) :
    Resolves (leaf setting items) fun result => result = none ↔ items = [] := by
  have hsome : ∀ {first : Item Expr} {rest : List (Item Expr)},
      Resolves (do let result ← item setting first; pure (some result))
        fun result => result = none ↔ first :: rest = [] :=
    fun {first rest} => (resolves_item first).bind fun e _ => resolves_pure (by simp)
  cases items with
  | nil => exact resolves_pure (by simp)
  | cons first rest =>
      cases rest with
      | nil => exact hsome
      | cons second more => exact (resolves_report _).bind fun _ _ => hsome

/-- A flat statement with no more operator characters than levels to split on. -/
theorem resolves_tree {levels : Nat} {items : List (Item Expr)} (h : Item.chars items ≤ levels) :
    Resolves (tree setting (.ofItems levels items)) fun result => result = none ↔ items = [] := by
  induction levels generalizing items with
  | zero =>
      cases hfind : Cut.find? items with
      | none =>
          rw [SplitTree.ofItems_of_find? hfind]
          exact resolves_leaf items
      | some cut =>
          have hsides := Cut.chars_sides hfind
          omega
  | succ levels ih =>
      cases hfind : Cut.find? items with
      | none =>
          rw [SplitTree.ofItems_of_find? hfind]
          exact resolves_leaf items
      | some cut =>
          have hsides := Cut.chars_sides hfind
          have hne : items ≠ [] := by
            rintro rfl
            cases hfind
          rw [SplitTree.ofItems_succ_of_find? hfind]
          refine (resolves_report _).bind fun _ _ => ?_
          refine (ih (by omega)).bind fun left _ => ?_
          refine (ih (by omega)).bind fun right _ => ?_
          refine (resolves_combine cut.point left right).bind fun e _ => ?_
          exact resolves_pure (by simp [hne])

theorem resolves_flat {levels : Nat} {items : List (Item Expr)} (h : Item.chars items ≤ levels) :
    Resolves (flat setting levels items) fun result => result = none ↔ items = [] :=
  resolves_tree (Nat.le_succ_of_le h)

/-- The items that pieces become: they have no more operator characters, and there are none only if
there is no fragment at any depth. -/
def Leaves (parts : List Piece) (items : List (Item Expr)) : Prop :=
  Item.chars items ≤ Piece.chars parts ∧ (items = [] ↔ Piece.allFragments parts = [])

mutual

theorem resolves_piece {levels : Nat} : ∀ {part : Piece},
    part.depth + Piece.chars [part] ≤ levels →
    Resolves (piece setting levels part) (Leaves [part])
  | .text fragment, _ => by
      rw [piece]
      exact resolves_pure ⟨by simp [Item.chars, Item.charsOf], by simp⟩
  | .group inner, h => by
      rw [Piece.depth_group, Piece.chars_group_cons] at h
      obtain ⟨room, rfl⟩ : ∃ room, levels = room + 1 := ⟨levels - 1, by omega⟩
      have hroom : Piece.nesting inner + Piece.chars inner ≤ room := by omega
      rw [piece]
      refine (resolves_pieces hroom).bind fun items hitems => ?_
      have hflat : Item.chars items ≤ room := by
        have hchars := hitems.1
        omega
      refine (resolves_flat hflat).bind fun result hresult => resolves_pure ?_
      -- The value of the group stands for its text, and there is one unless it has none.
      cases result with
      | none =>
          have hnone := hitems.2.mp (hresult.mp rfl)
          exact ⟨by simp [Item.chars], by simp [hnone]⟩
      | some e =>
          have hsome : Piece.allFragments inner ≠ [] := by
            intro hnone
            exact absurd (hresult.mpr (hitems.2.mpr hnone)) (by simp)
          exact ⟨by simp [Item.chars, Item.charsOf], by simp [hsome]⟩

/-- Pieces with enough levels for the groups in them and for the splits within those. -/
theorem resolves_pieces {levels : Nat} : ∀ {parts : List Piece},
    Piece.nesting parts + Piece.chars parts ≤ levels →
    Resolves (pieces setting levels parts) (Leaves parts)
  | [], _ => by
      rw [pieces]
      exact resolves_pure ⟨by simp [Item.chars], by simp⟩
  | first :: rest, h => by
      have hchars : Piece.chars (first :: rest) = Piece.chars [first] + Piece.chars rest := by
        simp [Piece.chars]
      rw [Piece.nesting_cons, hchars] at h
      rw [pieces]
      have hfirstRoom : first.depth + Piece.chars [first] ≤ levels := by omega
      have hrestRoom : Piece.nesting rest + Piece.chars rest ≤ levels := by omega
      refine (resolves_piece hfirstRoom).bind fun firstItems hfirst => ?_
      refine (resolves_pieces hrestRoom).bind fun restItems hrest => ?_
      refine resolves_pure ⟨?_, ?_⟩
      · have hle := hfirst.1
        have hle' := hrest.1
        rw [Item.chars_append, hchars]
        omega
      · have hnone := hfirst.2
        rw [Piece.allFragments_cons, Piece.allFragments_nil, List.append_nil] at hnone
        rw [List.append_eq_nil_iff, Piece.allFragments_cons, List.append_eq_nil_iff, hnone, hrest.2]

end

theorem resolves_value {parts : List Piece}
    (h : Piece.nesting parts + Piece.chars parts ≤ setting.limit) :
    Resolves (value setting parts) fun result =>
      result = none ↔ Piece.allFragments parts = [] := by
  refine (resolves_pieces h).bind fun items hitems => ?_
  have hflat : Item.chars items ≤ setting.limit := by
    have hchars := hitems.1
    omega
  intro draft
  rw [← hitems.2]
  exact resolves_flat hflat draft

end Statement

/-! ## Sessions -/

namespace Session

/-- With a limit that is not below the depth of the groups and the number of operator characters
together, a statement is not stopped.  It has no value only if it has no fragment at any depth;
otherwise it has one, or an assignment in it is refused. -/
theorem evaluate_resolves {session : Session} {parts : List Piece}
    (h : Piece.nesting parts + Piece.chars parts ≤ session.options.limit) :
    let outcome := ((evaluate parts).run session).1
    (∀ limit source, outcome ≠ .error ⟨.tooDeep limit, source⟩) ∧
    (outcome = .ok none ↔ Piece.allFragments parts = []) ∧
    (Piece.allFragments parts ≠ [] → (∃ e, outcome = .ok (some e)) ∨
      ∃ target source, outcome = .error ⟨.notAssignable target, source⟩) := by
  intro outcome
  have hlimit : Piece.nesting parts + Piece.chars parts ≤ session.setting.limit := h
  rcases Statement.resolves_value hlimit {} with
    ⟨result, hresult, hnone⟩ | ⟨target, source, hrefused⟩
  · have houtcome : outcome = .ok result := hresult
    rw [houtcome]
    refine ⟨by simp, by simpa using hnone, fun hsome => ?_⟩
    cases result with
    | none => exact absurd (hnone.mp rfl) hsome
    | some e => exact .inl ⟨e, rfl⟩
  · have houtcome : outcome = .error ⟨.notAssignable target, source⟩ := hrefused
    -- Without a fragment there is no assignment that could be refused.
    have hsome : Piece.allFragments parts ≠ [] := by
      intro hnil
      have hinert : Drafting.Inert (Statement.value session.setting parts) fun _ => True :=
        Statement.inert_value (by simp [hnil])
      have hcause := (hinert {}).2
      rw [hrefused] at hcause
      exact hcause target rfl
    rw [houtcome]
    exact ⟨by simp, by simp [hsome], fun _ => .inr ⟨target, source, rfl⟩⟩

/-- A fragment with blanks around it, an empty one, an empty group and operators without operands,
with no level to spare; groups without a fragment; and an assignment that is refused. -/
theorem evaluate_resolves_groups :
    let session : Session := { options := { limit := 6 } }
    let run (parts : List Piece) := ((evaluate parts).run session).1
    let parts : List Piece :=
      [.text " a * ".toList, .group [.text ['+'], .group [.text " - ".toList, .group []]], .text []]
    let hollow : List Piece := [.group [.group []], .group []]
    let refused : List Piece := [.group [.text "1 = 2".toList]]
    Piece.nesting parts + Piece.chars parts = 6 ∧
    (∀ limit source, run parts ≠ .error ⟨.tooDeep limit, source⟩) ∧
    run parts = .ok (some (.binary .multiply (.name ['a']) (.name " - ".toList))) ∧
    run hollow = .ok none ∧
    (∃ target source, run refused = .error ⟨.notAssignable target, source⟩) := by
  intro session run parts hollow refused
  have hparts : Piece.nesting parts + Piece.chars parts = 6 := by decide
  obtain ⟨hgoes, -, -⟩ := evaluate_resolves (Nat.le_of_eq hparts : _ ≤ session.options.limit)
  have hhollow : Piece.nesting hollow + Piece.chars hollow ≤ session.options.limit := by decide
  have hrefused : Piece.nesting refused + Piece.chars refused ≤ session.options.limit := by decide
  have hfails : ∀ e, run refused ≠ .ok (some e) := by
    have hnot : (run refused).toOption = none := by decide +kernel
    intro e he
    rw [he] at hnot
    cases hnot
  refine ⟨hparts, hgoes, by decide +kernel, (evaluate_resolves hhollow).2.1.mpr rfl, ?_⟩
  rcases (evaluate_resolves hrefused).2.2 (by decide) with ⟨e, he⟩ | hcause
  · exact absurd he (hfails e)
  · exact hcause

end Session

end Shading
