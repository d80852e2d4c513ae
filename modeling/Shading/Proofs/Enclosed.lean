import Shading.Proofs.Lead
import Shading.Proofs.Limit
import Shading.Proofs.Rendering

/-!
# Parentheses around a whole statement

A pair of brackets around a balanced text makes one group of all its pieces, and the value
of a statement that is one group is the value of what the group holds.  So parentheses
around a statement change neither what it gives nor what it assigns.  What they do is take
up one level, and the two places that count levels agree on it: cutting, where the group is
open all along, and resolving, where it is entered before anything in it.

* `read?_under`: a balanced text is read alike with one more level around it.
* `pieces?_around`: the pieces of a text between brackets.
* `within_withLimit`: the limit itself shows in nothing but the faults that name it.
* `statement_around`: statements of a session.
-/

namespace Shading

/-! ## Balanced texts -/

namespace Brackets

/-- Whether a character would close a group where none is open. -/
def strays (brackets : Brackets) (place : Place) (c : Char) : Bool :=
  place.quote.exposes c && c != brackets.opening && c == brackets.closing && place.opened == 0

/-- Whether a text, read from a place, closes no more groups than are open, leaves none open and
leaves no quote open. -/
def isBalanced (brackets : Brackets) : (place : Place) → (text : Text) → Bool
  | place, [] => place == {}
  | place, c :: rest =>
      !brackets.strays place c && brackets.isBalanced (brackets.advance place c) rest

variable {brackets : Brackets} {limit : Nat} {reading : Reading} {text : Text}

theorem follow_of_isBalanced {place : Place} (h : brackets.isBalanced place text = true) :
    brackets.follow place text = {} := by
  induction text generalizing place with
  | nil => simpa [isBalanced] using h
  | cons c rest ih =>
      rw [isBalanced, Bool.and_eq_true] at h
      exact ih h.2

/-- The reading with one more level around all others. -/
def Reading.under (reading : Reading) (outer : Level) : Reading :=
  { reading with enclosing := reading.enclosing ++ [outer] }

/-- One more level takes one more level of the limit, and is not noticed otherwise. -/
theorem step?_under {c : Char} (h : brackets.strays reading.place c = false) (outer : Level) :
    brackets.step? (limit + 1) (reading.under outer) c =
      (brackets.step? limit reading c).map (·.under outer) := by
  have hquote : (reading.under outer).quote = reading.quote := rfl
  have hlength : (reading.under outer).enclosing.length = reading.enclosing.length + 1 := by
    simp [Reading.under]
  unfold step?
  rw [hquote, hlength]
  split
  next hexposes =>
    split
    next hopening =>
      by_cases hroom : reading.enclosing.length < limit
      · rw [if_pos hroom, if_pos (by omega)]
        rfl
      · rw [if_neg hroom, if_neg (by omega)]
        rfl
    next hopening =>
      split
      next hclosing =>
        -- A group is open, so the bracket closes that one and not the level around.
        cases henclosing : reading.enclosing with
        | nil =>
            subst hclosing
            simp [strays, hexposes, hopening, henclosing] at h
        | cons inner rest => simp [Reading.closeGroup, Reading.under, henclosing]
      next => rfl
  next => rfl

theorem read?_under (h : brackets.isBalanced reading.place text = true) (outer : Level) :
    brackets.read? (limit + 1) (reading.under outer) text =
      (brackets.read? limit reading text).map (·.under outer) := by
  induction text generalizing reading with
  | nil => rfl
  | cons c rest ih =>
      rw [isBalanced, Bool.and_eq_true, Bool.not_eq_true'] at h
      rw [read?_cons, read?_cons, step?_under h.1]
      cases hstep : brackets.step? limit reading c with
      | none => rfl
      | some next =>
          rw [Option.map_some, Option.bind_some, Option.bind_some]
          exact ih (by rw [place_of_step? hstep]; exact h.2)

/-! ## The pieces of a text -/

/-- The pieces of a text, if groups do not nest beyond the limit. -/
def pieces? (brackets : Brackets) (limit : Nat) (text : Text) : Option (List Piece) :=
  (brackets.read? limit {} text).map Reading.pieces

theorem cut_eq (brackets : Brackets) (limit : Nat) (text : Text) :
    brackets.cut limit text =
      match brackets.pieces? limit text with
      | some pieces => .ok pieces
      | none => .error ⟨.tooDeep limit, text⟩ := by
  unfold cut pieces?
  cases brackets.read? limit {} text <;> rfl

/-- A balanced text between brackets is one group of its pieces, and needs one level more. -/
theorem pieces?_around (hproper : brackets.IsProper) (h : brackets.isBalanced {} text = true)
    (limit : Nat) :
    brackets.pieces? (limit + 1) (brackets.around text) =
      (brackets.pieces? limit text).map fun pieces => [.group pieces] := by
  have hopen : brackets.step? (limit + 1) {} brackets.opening = some (Reading.under {} {}) := by
    simp [step?, Quote.exposes, hproper.opening_isMark, Reading.openGroup, Reading.under]
  unfold pieces?
  rw [around, read?_cons, hopen, Option.bind_some, read?_append, read?_under h]
  cases hread : brackets.read? limit {} text with
  | none => rfl
  | some final =>
      -- The text is balanced, so no group but the one around it is open at its end.
      have hplace : final.place = {} := by
        rw [place_of_read? hread]
        exact follow_of_isBalanced h
      obtain ⟨quote, level, enclosing⟩ := final
      obtain ⟨rfl, hlength⟩ : quote = .outside ∧ enclosing.length = 0 := by
        simpa [Reading.place] using hplace
      obtain rfl := List.eq_nil_of_length_eq_zero hlength
      have hclose : brackets.step? (limit + 1) (Reading.under ⟨.outside, level, []⟩ {})
          brackets.closing = some ⟨.outside, Level.pushGroup {} level.pieces, []⟩ := by
        simp [step?, Quote.exposes, hproper.closing_isMark, hproper.distinct.symm,
          Reading.closeGroup, Reading.under]
      rw [Option.map_some, Option.bind_some, read?_cons, hclose]
      rfl

theorem pieces?_blank_append (hproper : brackets.IsProper) {blanks : Text}
    (h : ∀ c ∈ blanks, Text.isBlank c = true) (limit : Nat) (text : Text) :
    brackets.pieces? limit (blanks ++ text) = brackets.pieces? limit text := by
  have hled : Reading.Led blanks {} ⟨.outside, Level.pushText {} blanks, []⟩ :=
    .outside (by simpa [Level.pushText] using Level.Led.reading []) .outside
  unfold pieces?
  rw [read?_append, read?_blank hproper h, Option.bind_some]
  cases hread : brackets.read? limit {} text with
  | none =>
      have hnone : brackets.read? limit ⟨.outside, Level.pushText {} blanks, []⟩ text = none := by
        rw [← Option.not_isSome_iff_eq_none, isSome_read? hled.place_eq, hread]
        simp
      rw [hnone]
  | some final =>
      obtain ⟨final', hread', hfinal⟩ := hled.read hread
      obtain ⟨first, rest, hpieces, hpieces'⟩ := hfinal.pieces
      rw [hread', Option.map_some, Option.map_some, hpieces, hpieces', Piece.ofText,
        Text.fragment?_congr (Text.trim_append_left h first), Piece.ofText]

theorem pieces?_append_blank (hproper : brackets.IsProper) {blanks : Text}
    (h : ∀ c ∈ blanks, Text.isBlank c = true) (limit : Nat) (text : Text) :
    brackets.pieces? limit (text ++ blanks) = brackets.pieces? limit text := by
  have hpieces : ∀ final : Reading,
      Reading.pieces { final with level := final.level.pushText blanks } = final.pieces := by
    intro final
    unfold Reading.pieces
    cases final.enclosing with
    | nil => exact Level.pieces_pushText_blank h final.level
    | cons outer rest =>
        rw [Reading.finish, Reading.finish, Level.pieces_pushText_blank h]
  unfold pieces?
  rw [read?_append]
  cases brackets.read? limit {} text with
  | none => rfl
  | some final => rw [Option.bind_some, read?_blank hproper h, Option.map_some, hpieces]; rfl

/-- Blanks at either end of a text make no difference to its pieces. -/
theorem pieces?_trim (hproper : brackets.IsProper) (limit : Nat) (text : Text) :
    brackets.pieces? limit (Text.trim text) = brackets.pieces? limit text := by
  obtain ⟨lead, trail, htext, hlead, htrail⟩ := Text.exists_trim text
  calc brackets.pieces? limit (Text.trim text)
      = brackets.pieces? limit (lead ++ (Text.trim text ++ trail)) := by
        rw [pieces?_blank_append hproper hlead, pieces?_append_blank hproper htrail]
    _ = brackets.pieces? limit text := by rw [← htext]

end Brackets

/-! ## The limit in a fault -/

/-- The fault under another limit, which it names if it is about the limit. -/
def Fault.withLimit (limit : Nat) (fault : Fault) : Fault :=
  match fault.cause with
  | .tooDeep _ => { fault with cause := .tooDeep limit }
  | _ => fault

namespace Action

variable {σ α β : Type}

/-- The action with its fault changed, if it fails. -/
def mapFault (f : Fault → Fault) (action : Action σ α) : Action σ α := fun s =>
  ((action s).1.mapError f, (action s).2)

theorem run_mapFault (f : Fault → Fault) (action : Action σ α) (s : σ) :
    (action.mapFault f).run s = ((action.run s).1.mapError f, (action.run s).2) := rfl

theorem mapFault_bind (f : Fault → Fault) (action : Action σ α) (next : α → Action σ β) :
    (action >>= next).mapFault f = action.mapFault f >>= fun a => (next a).mapFault f := by
  funext s
  change ((action >>= next).mapFault f).run s =
    (action.mapFault f >>= fun a => (next a).mapFault f).run s
  rw [run_bind, run_mapFault, run_mapFault, run_bind]
  rcases action.run s with ⟨_ | a, after⟩
  · rfl
  · rfl

end Action

namespace Statement

open Drafting

variable (setting : Setting) (limit : Nat)

theorem combine_withLimit (point : Occurrence) (left right : Option Expr) :
    combine (setting.withLimit limit) point left right =
      (combine setting point left right).mapFault (Fault.withLimit limit) := by
  unfold combine
  repeat' split
  all_goals rfl

theorem item_withLimit (i : Item Expr) :
    item (setting.withLimit limit) i = (item setting i).mapFault (Fault.withLimit limit) := by
  cases i with
  | value result => rfl
  | text fragment =>
      have hscope : (setting.withLimit limit).scope = setting.scope := rfl
      rw [item, item, hscope]
      split <;> rfl

theorem leaf_withLimit (items : List (Item Expr)) :
    leaf (setting.withLimit limit) items =
      (leaf setting items).mapFault (Fault.withLimit limit) := by
  cases items with
  | nil => rfl
  | cons first rest =>
      cases rest with
      | nil =>
          rw [leaf, leaf, item_withLimit, Action.mapFault_bind]
          rfl
      | cons second more =>
          rw [leaf, leaf, item_withLimit, Action.mapFault_bind, Action.mapFault_bind]
          rfl

theorem tree_withLimit (splits : SplitTree Expr) :
    tree (setting.withLimit limit) splits =
      (tree setting splits).mapFault (Fault.withLimit limit) := by
  induction splits with
  | leaf items => exact leaf_withLimit setting limit items
  | tooDeep point => rfl
  | split point left right ihleft ihright =>
      rw [tree, tree, ihleft, ihright]
      simp only [Action.mapFault_bind, combine_withLimit]
      rfl

mutual

theorem piece_withLimit (levels : Nat) : ∀ part : Piece,
    piece (setting.withLimit limit) levels part =
      (piece setting levels part).mapFault (Fault.withLimit limit)
  | .text fragment => by
      rw [piece, piece]
      rfl
  | .group inner => by
      cases levels with
      | zero =>
          rw [piece, piece]
          rfl
      | succ levels =>
          rw [piece, piece, pieces_withLimit levels inner]
          simp only [Action.mapFault_bind, flat, tree_withLimit]
          rfl

theorem pieces_withLimit (levels : Nat) : ∀ parts : List Piece,
    pieces (setting.withLimit limit) levels parts =
      (pieces setting levels parts).mapFault (Fault.withLimit limit)
  | [] => by
      rw [pieces, pieces]
      rfl
  | first :: rest => by
      rw [pieces, pieces, piece_withLimit levels first, pieces_withLimit levels rest]
      simp only [Action.mapFault_bind]
      rfl

end

/-- The limit shows in nothing but the faults that name it. -/
theorem within_withLimit (levels : Nat) (parts : List Piece) :
    within (setting.withLimit limit) levels parts =
      (within setting levels parts).mapFault (Fault.withLimit limit) := by
  rw [within, within, pieces_withLimit, Action.mapFault_bind]
  simp only [flat, tree_withLimit]

variable {setting limit}

/-- A flat statement that is one value, or nothing, has that value. -/
theorem flat_toList (levels : Nat) (result : Option Expr) :
    flat setting levels (result.toList.map .value) = pure result := by
  cases result with
  | none => rfl
  | some e => rfl

/-- A statement that is one group has the value of what the group holds. -/
theorem value_group (h : setting.limit = limit + 1) (inner : List Piece) :
    value setting [.group inner] = within setting limit inner := by
  rw [value, h, pieces, piece_group, pieces]
  simp only [bind_assoc, pure_bind, List.append_nil, flat_toList, bind_pure]

end Statement

/-! ## Sessions -/

/-- Outcomes of one kind under a limit and under the next higher one.  They are the same unless the
limit was exceeded; then each names its own limit. -/
inductive Action.SameKind {α : Type} (limit : Nat) : (low high : Except Fault α) → Prop
  | ok (a : α) : SameKind limit (.ok a) (.ok a)
  | fault {fault : Fault} (h : fault.isTooDeep = false) :
      SameKind limit (.error fault) (.error fault)
  | tooDeep (source source' : Text) :
      SameKind limit (.error ⟨.tooDeep limit, source⟩) (.error ⟨.tooDeep (limit + 1), source'⟩)

namespace Session

open Shading.Action

theorem sameKind_mapError {α : Type} {limit : Nat} {outcome : Except Fault α}
    (h : outcome.mapError (Fault.withLimit limit) = outcome) :
    SameKind limit outcome (outcome.mapError (Fault.withLimit (limit + 1))) := by
  cases outcome with
  | ok a => exact .ok a
  | error fault =>
      obtain ⟨cause, source⟩ := fault
      cases cause with
      | malformedDefinition directive => exact .fault rfl
      | notAssignable target => exact .fault rfl
      | tooDeep other =>
          obtain rfl : limit = other := by simpa [Except.mapError, Fault.withLimit] using h
          exact .tooDeep source source

theorem isProper_paren : Brackets.paren.IsProper := by
  constructor <;> decide

/-- What a statement gives and drafts, by its pieces; a blank one has none. -/
theorem resolve_eq (session : Session) (text : Text) :
    session.resolve text =
      match Brackets.paren.pieces? session.options.limit text with
      | some parts => (Statement.value session.setting parts).run {}
      | none => (.error ⟨.tooDeep session.options.limit, Text.trim text⟩, {}) := by
  rw [← Brackets.pieces?_trim isProper_paren]
  unfold resolve
  dsimp only
  split
  next hempty =>
    rw [List.isEmpty_iff.mp hempty]
    rfl
  next =>
    rw [Brackets.cut_eq]
    cases Brackets.paren.pieces? session.options.limit (Text.trim text) <;> rfl

theorem resolve_around (session : Session) {text : Text}
    (h : Brackets.paren.isBalanced {} text = true) (limit : Nat) :
    SameKind limit ((session.withLimit limit).resolve text).1
        ((session.withLimit (limit + 1)).resolve (Brackets.paren.around text)).1 ∧
      ((session.withLimit (limit + 1)).resolve (Brackets.paren.around text)).2 =
        ((session.withLimit limit).resolve text).2 := by
  let low := session.setting.withLimit limit
  have hlow : (session.withLimit limit).setting = low := rfl
  have hhigh : (session.withLimit (limit + 1)).setting = low.withLimit (limit + 1) := rfl
  have hlimit : ∀ n, (session.withLimit n).options.limit = n := fun n => rfl
  rw [resolve_eq, resolve_eq, hlow, hhigh, hlimit, hlimit,
    Brackets.pieces?_around isProper_paren h]
  cases Brackets.paren.pieces? limit text with
  | none => exact ⟨.tooDeep _ _, rfl⟩
  | some parts =>
      have hvalue : Statement.value (low.withLimit (limit + 1)) [.group parts] =
          (Statement.value low parts).mapFault (Fault.withLimit (limit + 1)) := by
        rw [Statement.value_group rfl, Statement.within_withLimit]
        rfl
      have hself : Statement.value low parts =
          (Statement.value low parts).mapFault (Fault.withLimit limit) :=
        Statement.within_withLimit low limit limit parts
      rw [Option.map_some]
      dsimp only
      rw [hvalue, run_mapFault]
      refine ⟨sameKind_mapError ?_, rfl⟩
      have hrun := congrArg (fun step => (step.run {}).1) hself
      rw [run_mapFault] at hrun
      exact hrun.symm

/-- What enters the scope depends on the options only in whether anything does. -/
theorem enterScope_congr {session other : Session}
    (hdeclares : other.options.declares = session.options.declares)
    (hscope : other.scope = session.scope) (hstore : other.store = session.store) (e : Expr) :
    (enterScope e other).scope = (enterScope e session).scope ∧
      (enterScope e other).store = (enterScope e session).store := by
  unfold enterScope
  rw [hdeclares, hstore]
  split
  · split
    · exact ⟨by rw [hscope], rfl⟩
    · exact ⟨hscope, hstore⟩
  · exact ⟨hscope, hstore⟩

theorem enter_of_sameKind {session other : Session} {limit : Nat}
    {low high : Except Fault (Option Expr)} (hkind : SameKind limit low high)
    (hdeclares : other.options.declares = session.options.declares)
    (hscope : other.scope = session.scope) (hstore : other.store = session.store) :
    (enter high other).scope = (enter low session).scope ∧
      (enter high other).store = (enter low session).store := by
  cases hkind with
  | ok result =>
      cases result with
      | none => exact ⟨hscope, hstore⟩
      | some e => exact enterScope_congr hdeclares hscope hstore e
  | fault => exact ⟨hscope, hstore⟩
  | tooDeep => exact ⟨hscope, hstore⟩

/-- Parentheses around a balanced statement are neutral and take up one level.  With one level more
the statement gives the same, or fails for the same cause, and leaves the scope and the store
the same. -/
theorem statement_around (session : Session) {text : Text}
    (h : Brackets.paren.isBalanced {} text = true) (limit : Nat) :
    let low := (statement text).run (session.withLimit limit)
    let high := (statement (Brackets.paren.around text)).run (session.withLimit (limit + 1))
    SameKind limit low.1 high.1 ∧ high.2.scope = low.2.scope ∧ high.2.store = low.2.store := by
  intro low high
  obtain ⟨hkind, hdraft⟩ := resolve_around session h limit
  obtain ⟨events, hlow : low = _⟩ := run_statement_enter (session.withLimit limit) text
  obtain ⟨events', hhigh : high = _⟩ :=
    run_statement_enter (session.withLimit (limit + 1)) (Brackets.paren.around text)
  rw [hlow, hhigh]
  refine ⟨hkind, enter_of_sameKind hkind rfl rfl ?_⟩
  rw [hdraft]
  rfl

/-- A declaration that uses its limit up and enters the scope, the same with one level too few, and
a refused assignment to a bracket in quotes. -/
theorem statement_around_declaration :
    let session : Session := { options := { declares := true } }
    let low (limit : Nat) (text : Text) := (statement text).run (session.withLimit limit)
    let high (limit : Nat) (text : Text) :=
      (statement (Brackets.paren.around text)).run (session.withLimit (limit + 1))
    let text := " float a = ((1) * 2)".toList
    let refused := "')' = 2".toList
    (low 2 text).1 = .ok (some (.var 0)) ∧ (low 2 text).2.scope = ⟨[(['a'], 0)]⟩ ∧
    SameKind 2 (low 2 text).1 (high 2 text).1 ∧
    (high 2 text).2.scope = (low 2 text).2.scope ∧
    (low 1 text).1 = .error ⟨.tooDeep 1, Text.trim text⟩ ∧
    SameKind 1 (low 1 text).1 (high 1 text).1 ∧
    (low 1 refused).1 = .error ⟨.notAssignable "')'".toList, refused⟩ ∧
    SameKind 1 (low 1 refused).1 (high 1 refused).1 := by
  intro session low high text refused
  have htext : Brackets.paren.isBalanced {} text = true := by decide
  have hrefused : Brackets.paren.isBalanced {} refused = true := by decide
  have haround : ∀ limit text, Brackets.paren.isBalanced {} text = true →
      SameKind limit (low limit text).1 (high limit text).1 ∧
      (high limit text).2.scope = (low limit text).2.scope := by
    intro limit text h
    obtain ⟨hkind, hscope, -⟩ := statement_around session h limit
    exact ⟨hkind, hscope⟩
  obtain ⟨hkind, hscope⟩ := haround 2 text htext
  exact ⟨by decide +kernel, by decide +kernel, hkind, hscope, by decide +kernel,
    (haround 1 text htext).1, by decide +kernel, (haround 1 refused hrefused).1⟩

end Session

end Shading
