import Shading.Proofs.Agreement
import Shading.Proofs.Place

/-!
# Sources as flat sequences of statements

Reading a source cuts its code into nested blocks, trims the fragments between them, cuts
these at semicolons, and reads what comes out block by block.  None of the nesting is left
in the end: the statements that are not blank are found by one pass over the code, which
cuts at semicolons and at brackets of blocks alike.

* `Source.statements`: the statements found by that pass.
* `statements_of_cut`: they are the statements of the blocks, blank ones aside.
* `source_flat`: reading a source is reading them one after the other.
-/

namespace Shading

/-! ## Texts that are not blank -/

namespace Text

/-- The texts that are not blank, trimmed. -/
def filled (texts : List Text) : List Text :=
  (texts.map trim).filter fun text => !text.isEmpty

@[simp] theorem filled_nil : filled [] = [] := rfl

theorem filled_cons_of_blank {text : Text} (h : trim text = []) (rest : List Text) :
    filled (text :: rest) = filled rest := by
  simp [filled, h]

theorem filled_cons_of_ne {text : Text} (h : trim text ≠ []) (rest : List Text) :
    filled (text :: rest) = trim text :: filled rest := by
  simp [filled, h]

@[simp] theorem filled_nil_cons (rest : List Text) : filled ([] :: rest) = filled rest :=
  filled_cons_of_blank rfl rest

@[simp] theorem filled_append (first second : List Text) :
    filled (first ++ second) = filled first ++ filled second := by
  simp [filled]

theorem filled_cons_congr {first second : Text} (h : trim first = trim second)
    (rest : List Text) : filled (first :: rest) = filled (second :: rest) := by
  simp [filled, h]

/-- A blank before the first text makes no difference. -/
theorem filled_modifyHead {c : Char} (h : isBlank c = true) (texts : List Text) :
    filled (texts.modifyHead (c :: ·)) = filled texts := by
  cases texts with
  | nil => rfl
  | cons first rest =>
      have hblank : ∀ d ∈ [c], isBlank d = true := by simpa using h
      exact filled_cons_congr (trim_append_left hblank first) rest

end Text

/-! ## Cutting at semicolons -/

namespace Piece

theorem ne_semicolon_of_isBlank {c : Char} (h : Text.isBlank c = true) : c ≠ ';' := by
  rintro rfl
  revert h
  decide

/-- The statements in pieces that are not blank, trimmed. -/
def filled (pieces : List Piece) : List Text :=
  Text.filled (allStatements pieces)

@[simp] theorem allStatements_append (first second : List Piece) :
    allStatements (first ++ second) = allStatements first ++ allStatements second := by
  induction first with
  | nil => simp [allStatements]
  | cons piece rest ih => simp [allStatements, ih]

@[simp] theorem filled_nil : filled [] = [] := by
  simp [filled, allStatements]

@[simp] theorem filled_append (first second : List Piece) :
    filled (first ++ second) = filled first ++ filled second := by
  simp [filled]

@[simp] theorem filled_group (inner : List Piece) : filled [.group inner] = filled inner := by
  simp [filled, allStatements, statements]

theorem filled_splitOn_lead {lead : Text} (h : ∀ c ∈ lead, Text.isBlank c = true) (text : Text) :
    Text.filled ((lead ++ text).splitOn ';') = Text.filled (text.splitOn ';') := by
  induction lead with
  | nil => rfl
  | cons c rest ih =>
      have hc : Text.isBlank c = true := h c (List.mem_cons_self ..)
      rw [List.cons_append, List.splitOn_cons_eq_if_modifyHead,
        if_neg (by simpa using ne_semicolon_of_isBlank hc)]
      exact (Text.filled_modifyHead hc _).trans (ih fun d hd => h d (List.mem_cons_of_mem _ hd))

theorem filled_splitOn_trail {trail : Text} (h : ∀ c ∈ trail, Text.isBlank c = true)
    (text : Text) :
    Text.filled ((text ++ trail).splitOn ';') = Text.filled (text.splitOn ';') := by
  have hfree : ';' ∉ trail := fun hmem => ne_semicolon_of_isBlank (h _ hmem) rfl
  -- Only what follows the last semicolon is affected.
  by_cases hmem : ';' ∈ text.reverse
  · obtain ⟨later, earlier, htext, hlater⟩ := List.eq_append_cons_of_mem hmem
    obtain rfl : text = earlier.reverse ++ ';' :: later.reverse := by
      simpa using congrArg List.reverse htext
    have hlast : ';' ∉ later.reverse := by simpa using hlater
    have hlast' : ';' ∉ later.reverse ++ trail := by simp [hfree, hlater]
    rw [List.append_assoc, List.cons_append, List.splitOn_append_cons_self,
      List.splitOn_append_cons_self, List.splitOn_eq_singleton hlast,
      List.splitOn_eq_singleton hlast', Text.filled_append, Text.filled_append,
      Text.filled_cons_congr (Text.trim_append_right h _)]
  · have hmem' : ';' ∉ text := by simpa using hmem
    rw [List.splitOn_eq_singleton hmem', List.splitOn_eq_singleton (by simp [hmem', hfree]),
      Text.filled_cons_congr (Text.trim_append_right h _)]

/-- A text may be trimmed before it is cut at semicolons. -/
theorem filled_splitOn_trim (text : Text) :
    Text.filled ((Text.trim text).splitOn ';') = Text.filled (text.splitOn ';') := by
  obtain ⟨lead, trail, htext, hlead, htrail⟩ := Text.exists_trim text
  conv_rhs => rw [htext]
  rw [filled_splitOn_lead hlead, filled_splitOn_trail htrail]

theorem filled_ofText (text : Text) :
    filled (ofText text) = Text.filled (text.splitOn ';') := by
  rw [← filled_splitOn_trim, ofText]
  cases hfragment : Text.fragment? text with
  | none =>
      rw [Text.fragment?_eq_none_iff.mp hfragment]
      rfl
  | some fragment =>
      rw [(Text.fragment?_eq_some_iff.mp hfragment).1]
      simp [filled, allStatements, statements]

end Piece

/-! ## The flat pass -/

namespace Source

/-- Whether code is cut at a character: at every semicolon, quoted or not, and at the brackets
that open and close blocks. -/
def cutsAt (place : Brackets.Place) (c : Char) : Bool :=
  c == ';' || Brackets.curly.opens place c || Brackets.curly.closes place c

/-- The stretches of a text between the characters where it is cut, read from a place. -/
def stretches (place : Brackets.Place) : Text → List Text
  | [] => [[]]
  | c :: rest =>
      if cutsAt place c then [] :: stretches (Brackets.curly.advance place c) rest
      else (stretches (Brackets.curly.advance place c) rest).modifyHead (c :: ·)

/-- The statements of code: the stretches that are not blank, trimmed. -/
def statements (code : Text) : List Text :=
  Text.filled (stretches {} code)

@[simp] theorem stretches_nil (place : Brackets.Place) : stretches place [] = [[]] := rfl

theorem stretches_cons_of_cutsAt {place : Brackets.Place} {c : Char} (h : cutsAt place c = true)
    (rest : Text) :
    stretches place (c :: rest) = [] :: stretches (Brackets.curly.advance place c) rest := by
  simp [stretches, h]

theorem stretches_cons_of_not_cutsAt {place : Brackets.Place} {c : Char}
    (h : cutsAt place c = false) (rest : Text) :
    stretches place (c :: rest) =
      (stretches (Brackets.curly.advance place c) rest).modifyHead (c :: ·) := by
  simp [stretches, h]

/-- There is always a first stretch, and it has no semicolon. -/
theorem exists_stretches (place : Brackets.Place) (text : Text) :
    ∃ first rest, stretches place text = first :: rest ∧ ';' ∉ first := by
  induction text generalizing place with
  | nil => exact ⟨[], [], rfl, List.not_mem_nil⟩
  | cons c rest ih =>
      cases hcuts : cutsAt place c with
      | true => exact ⟨[], _, stretches_cons_of_cutsAt hcuts rest, List.not_mem_nil⟩
      | false =>
          obtain ⟨first, others, hrest, hfree⟩ := ih (Brackets.curly.advance place c)
          refine ⟨c :: first, others, ?_, ?_⟩
          · rw [stretches_cons_of_not_cutsAt hcuts, hrest]
            rfl
          · rw [List.mem_cons, not_or]
            refine ⟨?_, hfree⟩
            rintro rfl
            simp [cutsAt] at hcuts

end Source

/-! ## The statements of a reading -/

namespace Brackets

/-- The statements that are complete at some point of a reading, in the order of the text: those
of the levels around the innermost one, which only a group can follow, and those before the
fragment being read. -/
def Reading.settled (reading : Reading) : List Text :=
  reading.enclosing.reverse.flatMap (fun level => Piece.filled level.pieces) ++
    Piece.filled reading.level.done.reverse

theorem filled_pieces (level : Level) :
    Piece.filled level.pieces =
      Piece.filled level.done.reverse ++ Text.filled (level.pending.reverse.splitOn ';') := by
  rw [level.pieces_eq, Piece.filled_append, Piece.filled_ofText]

theorem filled_finish (level : Level) (enclosing : List Level) :
    Piece.filled (Reading.finish level enclosing) =
      enclosing.reverse.flatMap (fun outer => Piece.filled outer.pieces) ++
        Piece.filled level.pieces := by
  induction enclosing generalizing level with
  | nil => rfl
  | cons outer rest ih =>
      rw [Reading.finish, ih, filled_pieces (outer.pushGroup _), Level.done_pushGroup,
        Level.pending_pushGroup]
      simp

variable {limit : Nat} {reading next final : Reading}

/-- A bracket completes the fragment before it. -/
theorem settled_of_step? {brackets : Brackets} {c : Char}
    (h : brackets.step? limit reading c = some next)
    (hcut : brackets.opens reading.place c = true ∨ brackets.closes reading.place c = true) :
    next.settled =
        reading.settled ++ Text.filled (reading.level.pending.reverse.splitOn ';') ∧
      next.level.pending = [] := by
  rcases step?_cases h with ⟨-, rfl⟩ | ⟨-, -, outer, rest, henclosing, rfl⟩ | ⟨hopens, hcloses, -⟩
  · refine ⟨?_, rfl⟩
    simp [Reading.settled, Reading.openGroup, filled_pieces]
  · refine ⟨?_, rfl⟩
    simp [Reading.settled, henclosing, filled_pieces]
  · simp [hopens, hcloses] at hcut

/-- The statements of what is read on from a reading: those complete already, and those of the
fragment being read together with the stretches of the text. -/
theorem filled_of_read? {text first : Text} {rest : List Text}
    (h : curly.read? limit reading text = some final)
    (hstretches : Source.stretches reading.place text = first :: rest) :
    Piece.filled final.pieces = reading.settled ++
      Text.filled ((reading.level.pending.reverse ++ first).splitOn ';' ++ rest) := by
  induction text generalizing reading first rest with
  | nil =>
      obtain rfl : reading = final := by simpa [read?] using h
      obtain ⟨rfl, rfl⟩ : [] = first ∧ [] = rest := by simpa using hstretches
      rw [Reading.pieces, filled_finish, filled_pieces, Reading.settled]
      simp
  | cons c text ih =>
      rw [read?_cons] at h
      obtain ⟨next, hnext, hread⟩ := Option.bind_eq_some_iff.mp h
      obtain ⟨first', rest', hrest, hfree⟩ :=
        Source.exists_stretches (curly.advance reading.place c) text
      have hplace : Source.stretches next.place text = first' :: rest' := by
        rw [place_of_step? hnext, hrest]
      rw [ih hread hplace]
      by_cases hcut : curly.opens reading.place c = true ∨ curly.closes reading.place c = true
      · -- A bracket: the fragment ends here, and the next stretch starts a new one.
        have hcuts : Source.cutsAt reading.place c = true := by
          rw [Source.cutsAt, Bool.or_assoc]
          simp [hcut]
        rw [Source.stretches_cons_of_cutsAt hcuts, hrest, List.cons.injEq] at hstretches
        obtain ⟨rfl, rfl⟩ := hstretches
        obtain ⟨hsettled, hpending⟩ := settled_of_step? hnext hcut
        rw [hsettled, hpending, List.reverse_nil, List.nil_append,
          List.splitOn_eq_singleton hfree]
        simp
      · obtain ⟨hopens, hcloses⟩ : curly.opens reading.place c = false ∧
            curly.closes reading.place c = false := by simpa using hcut
        obtain rfl : next = reading.push c := eq_push_of_step? hnext hopens hcloses
        have hpending : (reading.push c).level.pending.reverse ++ first' =
            reading.level.pending.reverse ++ c :: first' := by
          simp [Reading.push, Level.push]
        rw [hpending]
        by_cases hc : c = ';'
        · -- A semicolon: it stays in the fragment, which is cut there later.
          subst hc
          rw [Source.stretches_cons_of_cutsAt (by simp [Source.cutsAt]), hrest,
            List.cons.injEq] at hstretches
          obtain ⟨rfl, rfl⟩ := hstretches
          rw [List.splitOn_append_cons_self, List.splitOn_eq_singleton hfree]
          simp [Reading.settled, Reading.push, Level.push]
        · have hcuts : Source.cutsAt reading.place c = false := by
            simp [Source.cutsAt, hc, hopens, hcloses]
          rw [Source.stretches_cons_of_not_cutsAt hcuts, hrest, List.modifyHead_cons,
            List.cons.injEq] at hstretches
          obtain ⟨rfl, rfl⟩ := hstretches
          rfl

/-- The statements of the blocks of some code, blank ones aside, are those of the flat pass. -/
theorem statements_of_cut {code : Text} {blocks : List Piece}
    (h : curly.cut limit code = .ok blocks) : Piece.filled blocks = Source.statements code := by
  unfold cut at h
  split at h
  next final hread =>
    obtain rfl : final.pieces = blocks := by simpa using h
    obtain ⟨first, rest, hstretches, hfree⟩ := Source.exists_stretches {} code
    rw [filled_of_read? hread hstretches, Source.statements, hstretches]
    change [] ++ Text.filled (([] ++ first).splitOn ';' ++ rest) = _
    rw [List.nil_append, List.nil_append, List.splitOn_eq_singleton hfree]
    rfl
  next => cases h

end Brackets

/-! ## Running a source -/

namespace Session

variable {session : Session}

theorem statement_of_blank {text : Text} (h : Text.trim text = []) :
    statement text = pure none := by
  simp [statement, h]

theorem statement_trim (text : Text) : statement (Text.trim text) = statement text := by
  unfold statement
  rw [Text.trim_trim]

/-- Blank statements make no difference, and neither do the blanks around the others. -/
theorem statements_filled (texts : List Text) :
    statements (Text.filled texts) = statements texts := by
  induction texts with
  | nil => rfl
  | cons first rest ih =>
      by_cases hblank : Text.trim first = []
      · rw [Text.filled_cons_of_blank hblank, ih, statements, statement_of_blank hblank]
        simp
      · rw [Text.filled_cons_of_ne hblank, statements, statements, ih, statement_trim]

/-- A source whose code can be cut is run by running its statements. -/
theorem alike_source {text code : Text} {blocks : List Piece}
    (hcode : Source.code text = .ok code)
    (hcut : Brackets.curly.cut session.options.limit code = .ok blocks) :
    Alike ((source text).run session) ((statements (Source.statements code)).run session) := by
  have hblocks : (Source.code text >>= Brackets.curly.cut session.options.limit) = .ok blocks := by
    rw [hcode]
    exact hcut
  have hagrees : Agrees { session with events := session.events ++ Source.events text } session :=
    ⟨rfl, rfl, rfl⟩
  rw [run_source_ok hblocks, ← Brackets.statements_of_cut hcut, Piece.filled, statements_filled]
  exact hagrees.run_statements _

/-- Reading a source is reading the statements of its code one after the other: it gives the same
values or the same fault, and leaves the same scope and store. -/
theorem source_flat {text code : Text} {blocks : List Piece}
    (hcode : Source.code text = .ok code)
    (hcut : Brackets.curly.cut session.options.limit code = .ok blocks) :
    let whole := (source text).run session
    let parts := (statements (Source.statements code)).run session
    whole.1 = parts.1 ∧ whole.2.scope = parts.2.scope ∧ whole.2.store = parts.2.store := by
  have h := alike_source hcode hcut
  exact ⟨h.outcome, h.final.scope, h.final.store⟩

/-- A quoted bracket, an empty block, one bracket too many and one that is never closed; the
fourth statement fails after the first three changed the session. -/
theorem source_flat_unbalanced :
    let session : Session := { options := { declares := true } }
    let text : Text :=
      "int a = 1;; \x7b \x7d a = '\x7b' \x7b float b;\n; \x7d\x7d 2 = a; int c \x7b int d".toList
    let texts : List Text := ["int a = 1".toList, "a = '\x7b'".toList, "float b".toList,
      "\x7d 2 = a".toList, "int c".toList, "int d".toList]
    let whole := (source text).run session
    let parts := (statements texts).run session
    whole.1 = .error ⟨.notAssignable "\x7d 2".toList, "\x7d 2 = a".toList⟩ ∧
    whole.2.scope.find? ['a'] = some 0 ∧ whole.2.scope.find? ['b'] = some 1 ∧
    whole.1 = parts.1 ∧ whole.2.scope = parts.2.scope ∧ whole.2.store = parts.2.store := by
  intro session text texts
  have hcode : Source.code text = .ok text := by decide +kernel
  have hread : (Brackets.curly.read? session.options.limit {} text).isSome = true := by
    decide +kernel
  have hstatements : Source.statements text = texts := by decide +kernel
  obtain ⟨blocks, hcut⟩ := Brackets.isSome_read?_iff.mp hread
  have hflat := source_flat hcode hcut
  rw [hstatements] at hflat
  exact ⟨by decide +kernel, by decide +kernel, by decide +kernel, hflat⟩

end Session

end Shading
