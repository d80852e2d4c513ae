import Shading.Proofs.Comments
import Shading.Proofs.Flat
import Shading.Proofs.History

/-!
# Sources read in chunks

A source may be handed over in chunks of whole lines, if each chunk leaves nothing open for
the next one: no block comment, no definition, no quote, no block and no statement.  Three
scans have to be back where they started at the seam, and each has a lemma that splits it
there:

* `rawLines_append`: block comments, doubled exclamation marks and lines.
* `code_append`: lines and definitions.
* `statements_append`: quotes, blocks and statements.

Reading the joined source then differs from reading the chunks one after the other in
nothing but the events reported (`source_append`).
-/

namespace Shading

/-! ## Lines -/

/-- Whether a line defines a substitution. -/
def Line.isDefinition : Line → Bool
  | .definition _ => true
  | _ => false

/-- Lines without definitions leave the lines after them as they are. -/
theorem Line.codes_readAll_append {first : List Text} {codes : List Text}
    (hdefinitions : ∀ raw ∈ first, (read [] raw).isDefinition = false)
    (hcodes : Line.codes (readAll [] first) = .ok codes) (second : List Text) :
    Line.codes (readAll [] (first ++ second)) =
      (Line.codes (readAll [] second)).map (codes ++ ·) := by
  induction first generalizing codes with
  | nil =>
      obtain rfl : [] = codes := by simpa [readAll, Line.codes] using hcodes
      cases hsecond : Line.codes (readAll [] second) <;> simp [hsecond, Except.map]
  | cons raw rest ih =>
      have hraw := hdefinitions raw (List.mem_cons_self ..)
      have hrest : ∀ raw' ∈ rest, (read [] raw').isDefinition = false :=
        fun raw' hmem => hdefinitions raw' (List.mem_cons_of_mem _ hmem)
      rw [List.cons_append, readAll]
      rw [readAll] at hcodes
      cases hread : read [] raw with
      | definition s => simp [hread, isDefinition] at hraw
      | malformed fault => simp [hread, Line.codes] at hcodes
      | blank =>
          rw [hread] at hcodes
          exact ih hrest hcodes
      | ignored line =>
          rw [hread] at hcodes
          exact ih hrest hcodes
      | code text =>
          rw [hread] at hcodes
          simp only [Line.codes] at hcodes ⊢
          cases hothers : Line.codes (readAll [] rest) with
          | error fault => simp [hothers, Except.map] at hcodes
          | ok others =>
              obtain rfl : text :: others = codes := by simpa [hothers, Except.map] using hcodes
              rw [ih hrest hothers]
              cases Line.codes (readAll [] second) <;> rfl

/-! ## Chunks -/

namespace Source

/-- A source, with its code, that leaves nothing open for what follows it. -/
structure IsChunk (text code : Text) : Prop where
  /-- Every block comment is closed. -/
  comments : endsInComment false text = false
  /-- No line is a definition. -/
  definitions : ∀ raw ∈ rawLines text, (Line.read [] raw).isDefinition = false
  code_eq : Source.code text = .ok code
  /-- Quotes and blocks are closed. -/
  closed : Brackets.curly.follow {} code = {}
  /-- The last statement is complete: a semicolon follows it, or the end of a block. -/
  ends : code = [] ∨ ∃ front c, code = front ++ [c] ∧
    (c = ';' ∨ Brackets.curly.closes (Brackets.curly.follow {} front) c = true)

variable {first second code code' : Text}

theorem intercalate_append {separator : Text} {codes codes' : List Text} (hne : codes ≠ [])
    (hne' : codes' ≠ []) :
    separator.intercalate (codes ++ codes') =
      separator.intercalate codes ++ (separator ++ separator.intercalate codes') := by
  induction codes with
  | nil => exact absurd rfl hne
  | cons line rest ih =>
      cases rest with
      | nil =>
          rw [List.singleton_append, List.intercalate_cons_of_ne_nil hne',
            List.intercalate_singleton, List.append_assoc]
      | cons line' more =>
          rw [List.cons_append, List.intercalate_cons_of_ne_nil (by simp), ih (by simp),
            List.intercalate_cons_cons]
          simp

/-- The code of a source after a chunk: either part may have no code. -/
theorem IsChunk.code_append (h : IsChunk first code) (hsecond : Source.code second = .ok code') :
    ∃ whole, Source.code (first ++ '\n' :: second) = .ok whole ∧
      (code = [] ∧ whole = code' ∨ code' = [] ∧ whole = code ∨ whole = code ++ '\n' :: code') := by
  have hfirst := h.code_eq
  unfold Source.code lines at hfirst hsecond ⊢
  rw [rawLines_append h.comments]
  cases hcodes : Line.codes (Line.readAll [] (rawLines first)) with
  | error fault => simp [hcodes, Except.map] at hfirst
  | ok codes =>
      cases hcodes' : Line.codes (Line.readAll [] (rawLines second)) with
      | error fault => simp [hcodes', Except.map] at hsecond
      | ok codes' =>
          obtain rfl : ['\n'].intercalate codes = code := by simpa [hcodes, Except.map] using hfirst
          obtain rfl : ['\n'].intercalate codes' = code' := by
            simpa [hcodes', Except.map] using hsecond
          rw [Line.codes_readAll_append h.definitions hcodes, hcodes']
          refine ⟨['\n'].intercalate (codes ++ codes'), rfl, ?_⟩
          by_cases hne : codes = []
          · subst hne
            exact Or.inl ⟨rfl, rfl⟩
          · by_cases hne' : codes' = []
            · subst hne'
              exact Or.inr (Or.inl ⟨rfl, by rw [List.append_nil]⟩)
            · exact Or.inr (Or.inr (intercalate_append hne hne'))

/-! ## Statements -/

theorem stretches_append {place : Brackets.Place} {c : Char}
    (h : cutsAt (Brackets.curly.follow place first) c = true) :
    stretches place (first ++ c :: second) = stretches place first ++
      stretches (Brackets.curly.advance (Brackets.curly.follow place first) c) second := by
  induction first generalizing place with
  | nil => exact stretches_cons_of_cutsAt h second
  | cons d rest ih =>
      rw [List.cons_append]
      cases hcuts : cutsAt place d with
      | true =>
          rw [stretches_cons_of_cutsAt hcuts, stretches_cons_of_cutsAt hcuts, ih h]
          rfl
      | false =>
          rw [stretches_cons_of_not_cutsAt hcuts, stretches_cons_of_not_cutsAt hcuts, ih h]
          obtain ⟨head, tail, hrest, -⟩ := exists_stretches (Brackets.curly.advance place d) rest
          rw [hrest]
          rfl

theorem statements_newline_cons (code : Text) : statements ('\n' :: code) = statements code := by
  have hcuts : cutsAt {} '\n' = false := rfl
  rw [statements, stretches_cons_of_not_cutsAt hcuts, Text.filled_modifyHead (by decide)]
  rfl

theorem IsChunk.statements_append (h : IsChunk first code) (code' : Text) :
    statements (code ++ '\n' :: code') = statements code ++ statements code' := by
  rcases h.ends with rfl | ⟨front, c, rfl, hc⟩
  · exact statements_newline_cons code'
  · have hcuts : cutsAt (Brackets.curly.follow {} front) c = true := by
      rcases hc with rfl | hcloses
      · simp [cutsAt]
      · simp [cutsAt, hcloses]
    have hplace : Brackets.curly.advance (Brackets.curly.follow {} front) c = {} := by
      simpa using h.closed
    have hcode : statements (front ++ [c]) = Text.filled (stretches {} front) := by
      rw [statements, stretches_append hcuts]
      simp
    have hwhole : statements (front ++ [c] ++ '\n' :: code') =
        Text.filled (stretches {} front) ++ statements ('\n' :: code') := by
      rw [statements, List.append_assoc, List.singleton_append, stretches_append hcuts, hplace,
        Text.filled_append]
      rfl
    rw [hwhole, hcode, statements_newline_cons]

theorem IsChunk.isSome_read? (h : IsChunk first code) {limit : Nat}
    (hread : (Brackets.curly.read? limit {} code).isSome = true) (code' : Text) :
    (Brackets.curly.read? limit {} (code ++ '\n' :: code')).isSome =
      (Brackets.curly.read? limit {} code').isSome := by
  have hnewline : (Brackets.curly.read? limit {} ['\n']).isSome = true := rfl
  rw [Brackets.isSome_read?_append hread {} h.closed]
  exact Brackets.isSome_read?_append hnewline {} rfl code'

/-- A chunk and a further part, joined: the code can be cut if both codes can, and it has the
statements of both. -/
theorem IsChunk.exists_joined (h : IsChunk first code) (hsecond : Source.code second = .ok code')
    {limit : Nat} {blocks blocks' : List Piece}
    (hcut : Brackets.curly.cut limit code = .ok blocks)
    (hcut' : Brackets.curly.cut limit code' = .ok blocks') :
    ∃ joined, Source.code (first ++ '\n' :: second) = .ok joined ∧
      statements joined = statements code ++ statements code' ∧
      ∃ pieces, Brackets.curly.cut limit joined = .ok pieces := by
  obtain ⟨joined, hjoined, ⟨rfl, rfl⟩ | ⟨rfl, rfl⟩ | rfl⟩ := h.code_append hsecond
  · exact ⟨joined, hjoined, rfl, blocks', hcut'⟩
  · exact ⟨joined, hjoined, (List.append_nil _).symm, blocks, hcut⟩
  · refine ⟨_, hjoined, h.statements_append code', ?_⟩
    rw [← Brackets.isSome_read?_iff, h.isSome_read? (Brackets.isSome_read?_iff.mpr ⟨_, hcut⟩)]
    exact Brackets.isSome_read?_iff.mpr ⟨_, hcut'⟩

end Source

/-! ## Running a source in chunks -/

namespace Session

variable {session : Session} {first second code code' : Text} {blocks blocks' : List Piece}

theorem statements_append (first second : List Text) :
    statements (first ++ second) = (do
      let values ← statements first
      let values' ← statements second
      pure (values ++ values')) := by
  induction first with
  | nil => simp [statements]
  | cons text rest ih =>
      simp only [List.cons_append, statements, ih, bind_assoc, pure_bind, List.append_assoc]

/-- A source can be read in chunks: reading one that consists of a chunk and a further part gives
the same values or the same fault, and leaves the same scope and store, as reading the chunk
and then, if it has no fault, the other part. -/
theorem source_append (hchunk : Source.IsChunk first code)
    (hsecond : Source.code second = .ok code')
    (hcut : Brackets.curly.cut session.options.limit code = .ok blocks)
    (hcut' : Brackets.curly.cut session.options.limit code' = .ok blocks') :
    let whole := (source (first ++ '\n' :: second)).run session
    let parts := (do
      let values ← source first
      let values' ← source second
      pure (values ++ values')).run session
    whole.1 = parts.1 ∧ whole.2.scope = parts.2.scope ∧ whole.2.store = parts.2.store := by
  obtain ⟨joined, hjoined, hstatements, blocks'', hcut''⟩ :=
    hchunk.exists_joined hsecond hcut hcut'
  have hwhole := alike_source hjoined hcut''
  rw [hstatements, statements_append] at hwhole
  have hparts : Alike
      ((do
        let values ← statements (Source.statements code)
        let values' ← statements (Source.statements code')
        pure (values ++ values')).run session)
      ((do
        let values ← source first
        let values' ← source second
        pure (values ++ values')).run session) := by
    refine (alike_source hchunk.code_eq hcut).symm.bind fun values s s' hrun hs => ?_
    -- The settings are those of the beginning, so the second part can still be cut.
    have hoptions : s'.options = session.options := by
      have hkept := options_run_statements session (Source.statements code)
      rw [hrun] at hkept
      exact hs.options.symm.trans hkept
    rw [← hoptions] at hcut'
    refine ((hs.run_statements _).trans (alike_source hsecond hcut').symm).bind ?_
    exact fun values' t t' _ ht => ht.run_pure _
  have h := hwhole.trans hparts
  exact ⟨h.outcome, h.final.scope, h.final.store⟩

/-- A chunk with a block comment over the end of a line, a quote in a line comment, a directive
and a quoted bracket; the other part uses what the chunk declares, and then fails. -/
theorem source_append_declared :
    let session : Session := { options := { declares := true } }
    let first : Text :=
      "int a = 1; /* \x7b\n*/ // it's\n#version 3\n\x7b a = '\x7d'; \x7d /**/".toList
    let second : Text := "float b = a;\n2 = b; int c".toList
    let whole := (source (first ++ '\n' :: second)).run session
    let parts := (do
      let values ← source first
      let values' ← source second
      pure (values ++ values')).run session
    whole.1 = .error ⟨.notAssignable "Int(2)".toList, "2 = b".toList⟩ ∧
    whole.2.scope.find? ['a'] = some 0 ∧ whole.2.scope.find? ['b'] = some 1 ∧
    whole.1 = parts.1 ∧ whole.2.scope = parts.2.scope ∧ whole.2.store = parts.2.store := by
  intro session first second
  have hchunk : Source.IsChunk first "int a = 1;\n\x7b a = '\x7d'; \x7d".toList :=
    { comments := by decide +kernel
      definitions := by decide +kernel
      code_eq := by decide +kernel
      closed := by decide +kernel
      ends := Or.inr ⟨"int a = 1;\n\x7b a = '\x7d'; ".toList, '\x7d', by decide +kernel,
        Or.inr (by decide +kernel)⟩ }
  have hsecond : Source.code second = .ok second := by decide +kernel
  have hread : (Brackets.curly.read? session.options.limit {}
      "int a = 1;\n\x7b a = '\x7d'; \x7d".toList).isSome = true := by
    decide +kernel
  have hread' : (Brackets.curly.read? session.options.limit {} second).isSome = true := by
    decide +kernel
  obtain ⟨blocks, hcut⟩ := Brackets.isSome_read?_iff.mp hread
  obtain ⟨blocks', hcut'⟩ := Brackets.isSome_read?_iff.mp hread'
  have happend := source_append hchunk hsecond hcut hcut'
  exact ⟨by decide +kernel, by decide +kernel, by decide +kernel, happend⟩

end Session

end Shading
