import Shading.Proofs.Text
import Shading.Statement.Value

/-!
# What declarations spell

A declaration is an optional qualifier, an optional precision, a type and a name, with
blanks between them.  It creates the variable that these words spell, and no other text of
several words creates one: such a text is a name.  The scope has no say in it.

A type is looked at more closely only if it has `vec` in it, and then only its first
letter and the one byte where the keywords have their digit.  So more words are accepted as
types than the keywords, `TypeWord` against `TypeKeyword`.

* `spaced_iff`: the words of a text, with blanks between and around them.
* `shape?_eq_some_iff`: the words that are accepted as types.
* `read?_eq_some_iff`: the words that are accepted as declarations.
* `item_declares`: declarations as operands of a statement.
-/

namespace Shading

/-! ## Words and the blanks between them -/

namespace Text

/-- A text with these words: each is not empty and has no blanks, two of them have blanks between
them, and there may be blanks before the first and after the last. -/
inductive Spaced : (words : List Text) → (text : Text) → Prop
  | blank {text : Text} (h : ∀ c ∈ text, isBlank c = true) : Spaced [] text
  | word {lead word rest : Text} {words : List Text} (hlead : ∀ c ∈ lead, isBlank c = true)
      (hne : word ≠ []) (hword : ∀ c ∈ word, isBlank c = false)
      (hgap : ∀ c ∈ rest.head?, isBlank c = true) (hrest : Spaced words rest) :
      Spaced (word :: words) (lead ++ (word ++ rest))

theorem words_append_blank {c : Char} (h : isBlank c = true) (before after : Text) :
    words (before ++ c :: after) = words before ++ words after := by
  rw [words, List.splitOnP_append_cons before after h, List.filter_append]
  rfl

theorem words_blank_cons {c : Char} (h : isBlank c = true) (text : Text) :
    words (c :: text) = words text :=
  words_append_blank h [] text

theorem words_of_forall {word : Text} (hne : word ≠ []) (h : ∀ c ∈ word, isBlank c = false) :
    words word = [word] := by
  rw [words, List.splitOnP_eq_singleton h]
  simp [hne]

theorem words_blank_append {lead : Text} (h : ∀ c ∈ lead, isBlank c = true) (text : Text) :
    words (lead ++ text) = words text := by
  induction lead with
  | nil => rfl
  | cons c rest ih =>
      rw [List.forall_mem_cons] at h
      rw [List.cons_append, words_blank_cons h.1, ih h.2]

theorem words_blank {text : Text} (h : ∀ c ∈ text, isBlank c = true) : words text = [] := by
  rw [← List.append_nil text, words_blank_append h]
  rfl

@[simp] theorem words_trim (text : Text) : words (trim text) = words text := by
  obtain ⟨lead, trail, htext, hlead, htrail⟩ := exists_trim text
  have hend : words (trim text ++ trail) = words (trim text) := by
    cases trail with
    | nil => rw [List.append_nil]
    | cons c rest =>
        rw [List.forall_mem_cons] at htrail
        rw [words_append_blank htrail.1, words_blank htrail.2, List.append_nil]
  calc words (trim text) = words (lead ++ (trim text ++ trail)) := by
        rw [words_blank_append hlead, hend]
    _ = words text := by rw [← htext]

theorem Spaced.words_eq {ws : List Text} {text : Text} (h : Spaced ws text) : words text = ws := by
  induction h with
  | blank h => exact words_blank h
  | @word lead word rest ws hlead hne hword hgap hrest ih =>
      rw [words_blank_append hlead]
      cases rest with
      | nil =>
          rw [← ih, List.append_nil, words_of_forall hne hword]
          rfl
      | cons c more =>
          have hc : isBlank c = true := hgap c rfl
          rw [words_append_blank hc, words_of_forall hne hword, ← ih, words_blank_cons hc]
          rfl

theorem Spaced.blank_cons {ws : List Text} {text : Text} (h : Spaced ws text) {c : Char}
    (hc : isBlank c = true) : Spaced ws (c :: text) := by
  cases h with
  | blank h => exact .blank (List.forall_mem_cons.mpr ⟨hc, h⟩)
  | word hlead hne hword hgap hrest =>
      exact .word (List.forall_mem_cons.mpr ⟨hc, hlead⟩) hne hword hgap hrest

theorem Spaced.word_append {word rest : Text} {ws : List Text} (hne : word ≠ [])
    (hword : ∀ c ∈ word, isBlank c = false) (hgap : ∀ c ∈ rest.head?, isBlank c = true)
    (h : Spaced ws rest) : Spaced (word :: ws) (word ++ rest) := by
  have hlead : ∀ c ∈ ([] : Text), isBlank c = true := by simp
  exact .word hlead hne hword hgap h

/-- Every text has words. -/
theorem exists_spaced (text : Text) : ∃ ws, Spaced ws text := by
  induction text with
  | nil => exact ⟨[], .blank (by simp)⟩
  | cons c rest ih =>
      obtain ⟨ws, hrest⟩ := ih
      by_cases hc : isBlank c = true
      · exact ⟨ws, hrest.blank_cons hc⟩
      · rw [Bool.not_eq_true] at hc
        -- The character is a word of its own, unless a word follows directly.
        by_cases hgap : ∀ d ∈ rest.head?, isBlank d = true
        · exact ⟨[c] :: ws, .word_append (by simp) (by simpa using hc) hgap hrest⟩
        · cases hrest with
          | blank h =>
              exact absurd (fun d hd => h d (List.mem_of_mem_head? hd)) hgap
          | @word lead word more ws hlead hne hword hgap' hmore =>
              cases lead with
              | nil =>
                  have hlonger : ∀ d ∈ c :: word, isBlank d = false :=
                    List.forall_mem_cons.mpr ⟨hc, hword⟩
                  exact ⟨(c :: word) :: ws, .word_append (by simp) hlonger hgap' hmore⟩
              | cons d lead =>
                  exact absurd (by simpa using hlead d (by simp)) hgap

theorem spaced_iff {ws : List Text} {text : Text} : Spaced ws text ↔ words text = ws := by
  constructor
  · exact Spaced.words_eq
  · rintro rfl
    obtain ⟨ws, h⟩ := exists_spaced text
    rwa [h.words_eq]

end Text

/-! ## Types -/

namespace Declaration

/-- The keywords of the scalar types. -/
def scalarKeywords : List (Text × ValueType) :=
  [("bool".toList, .bool), ("int".toList, .int), ("uint".toList, .uint), ("float".toList, .float),
    ("double".toList, .double)]

/-- What the keywords of the vector types start with, and the type of the members. -/
def vectorStems : List (Text × ValueType) :=
  [("vec".toList, .float), ("bvec".toList, .bool), ("ivec".toList, .int), ("uvec".toList, .uint),
    ("dvec".toList, .double)]

/-- The digits that a vector keyword ends with. -/
def arityDigits : List (Char × Nat) :=
  [('2', 2), ('3', 3), ('4', 4)]

/-- The type keywords, with the shapes they name. -/
inductive TypeKeyword : Text → Shape → Prop
  | scalar {word : Text} {type : ValueType} (h : (word, type) ∈ scalarKeywords) :
      TypeKeyword word (.single type)
  | vector {stem : Text} {element : ValueType} (hstem : (stem, element) ∈ vectorStems)
      {digit : Char} {arity : Nat} (hdigit : (digit, arity) ∈ arityDigits) :
      TypeKeyword (stem ++ [digit]) (.vector (List.replicate arity element))

/-- The words that are accepted as types, with the shapes they are taken for.  A word with `vec`
anywhere in it is a vector type if it has one of the digits after four bytes, or after three if
it starts with `v`. -/
inductive TypeWord : Text → Shape → Prop
  | scalar {word : Text} {type : ValueType} (h : (word, type) ∈ scalarKeywords) :
      TypeWord word (.single type)
  | vector {word front tail : Text} {letter digit : Char} {arity : Nat}
      (hvec : "vec".toList <:+: word) (hletter : word.head? = some letter)
      (hword : word = front ++ digit :: tail)
      (hfront : Text.byteLength front = if letter = 'v' then 3 else 4)
      (hdigit : (digit, arity) ∈ arityDigits) :
      TypeWord word (.vector (List.replicate arity (ValueType.ofVectorLetter letter)))

theorem ofKeyword?_eq_some_iff {word : Text} {type : ValueType} :
    ValueType.ofKeyword? word = some type ↔ (word, type) ∈ scalarKeywords := by
  constructor
  · intro h
    unfold ValueType.ofKeyword? at h
    repeat' split at h
    all_goals simp_all [scalarKeywords]
  · intro h
    have hall : ∀ entry ∈ scalarKeywords, ValueType.ofKeyword? entry.1 = some entry.2 := by decide
    exact hall _ h

theorem arity?_eq_some_iff {digit : Char} {arity : Nat} :
    arity? digit = some arity ↔ (digit, arity) ∈ arityDigits := by
  constructor
  · intro h
    unfold arity? at h
    split at h
    all_goals simp_all [arityDigits]
  · intro h
    have hall : ∀ entry ∈ arityDigits, arity? entry.1 = some entry.2 := by decide
    exact hall _ h

theorem mentionsVec_iff {word : Text} : mentionsVec word = true ↔ "vec".toList <:+: word := by
  induction word with
  | nil => decide
  | cons c rest ih =>
      rw [mentionsVec, Bool.or_eq_true, ih, List.isPrefixOf_iff_prefix, List.infix_cons_iff]
      rfl

/-- Of a word that is taken for a vector, only the first letter and one digit are looked at. -/
theorem vector?_eq {word front tail : Text} {letter digit : Char}
    (hletter : word.head? = some letter) (hword : word = front ++ digit :: tail)
    (hfront : Text.byteLength front = if letter = 'v' then 3 else 4) :
    vector? word = (arity? digit).map fun arity =>
      .vector (List.replicate arity (ValueType.ofVectorLetter letter)) := by
  obtain ⟨rest, hcons⟩ : ∃ rest, word = letter :: rest := List.head?_eq_some_iff.mp hletter
  have hdrop : Text.dropBytes? word (if letter = 'v' then 3 else 4) = some (digit :: tail) :=
    Text.dropBytes?_eq_some_iff.mpr ⟨front, hword, hfront⟩
  rw [hcons] at hdrop ⊢
  simp only [vector?, hdrop]

/-- A word with `vec` in it is no scalar keyword. -/
theorem shape?_of_vec {word : Text} (h : "vec".toList <:+: word) : shape? word = vector? word := by
  have hvec : mentionsVec word = true := mentionsVec_iff.mpr h
  have hnone : ValueType.ofKeyword? word = none := by
    apply Option.eq_none_iff_forall_not_mem.mpr
    intro type htype
    have hall : ∀ entry ∈ scalarKeywords, mentionsVec entry.1 = false := by decide
    rw [hall (word, type) (ofKeyword?_eq_some_iff.mp htype)] at hvec
    cases hvec
  simp only [shape?, hnone, if_pos hvec]

/-- The words that are accepted as types are those that have a shape. -/
theorem shape?_eq_some_iff {word : Text} {shape : Shape} :
    shape? word = some shape ↔ TypeWord word shape := by
  constructor
  · intro h
    unfold shape? at h
    split at h
    next type htype =>
      obtain rfl : .single type = shape := by simpa using h
      exact .scalar (ofKeyword?_eq_some_iff.mp htype)
    next =>
      split at h
      next hvec =>
        unfold vector? at h
        split at h
        · simp at h
        next letter rest =>
          split at h
          next digit tail hdrop =>
            obtain ⟨arity, harity, rfl⟩ := Option.map_eq_some_iff.mp h
            obtain ⟨front, hword, hfront⟩ := Text.dropBytes?_eq_some_iff.mp hdrop
            exact .vector (mentionsVec_iff.mp hvec) rfl hword hfront
              (arity?_eq_some_iff.mp harity)
          · simp at h
      · simp at h
  · intro h
    cases h with
    | scalar h => simp only [shape?, ofKeyword?_eq_some_iff.mpr h]
    | vector hvec hletter hword hfront hdigit =>
        rw [shape?_of_vec hvec, vector?_eq hletter hword hfront,
          arity?_eq_some_iff.mpr hdigit, Option.map_some]

/-- Whatever follows the digit of a vector keyword makes no difference. -/
theorem shape?_stem {stem : Text} {element : ValueType} (h : (stem, element) ∈ vectorStems)
    (digit : Char) (tail : Text) :
    shape? (stem ++ digit :: tail) = (arity? digit).map fun arity =>
      .vector (List.replicate arity element) := by
  have hall : ∀ entry ∈ vectorStems, "vec".toList <:+: entry.1 ∧
      entry.1.head?.map ValueType.ofVectorLetter = some entry.2 ∧
      entry.1.head?.map (fun letter => if letter = 'v' then 3 else 4) =
        some (Text.byteLength entry.1) := by
    decide
  obtain ⟨hvec, helement, hlength⟩ := hall _ h
  obtain ⟨letter, hletter, rfl⟩ := Option.map_eq_some_iff.mp helement
  rw [hletter, Option.map_some, Option.some_inj] at hlength
  have hinfix : "vec".toList <:+: stem ++ digit :: tail :=
    hvec.trans (List.prefix_append ..).isInfix
  have hhead : (stem ++ digit :: tail).head? = some letter := by
    rw [List.head?_append, hletter]
    rfl
  rw [shape?_of_vec hinfix, vector?_eq hhead rfl hlength.symm]

theorem TypeKeyword.typeWord {word : Text} {shape : Shape} (h : TypeKeyword word shape) :
    TypeWord word shape := by
  cases h with
  | scalar h => exact .scalar h
  | vector hstem hdigit =>
      apply shape?_eq_some_iff.mp
      rw [shape?_stem hstem, arity?_eq_some_iff.mpr hdigit, Option.map_some]

/-! ## Declarations -/

/-- The keywords of the qualifiers. -/
def qualifierKeywords : List (Text × Qualifier) :=
  [("varying".toList, .varying), ("uniform".toList, .uniform), ("attribute".toList, .perVertex)]

/-- At most one qualifier; a variable without one is local. -/
inductive Qualifies : List Text → Qualifier → Prop
  | absent : Qualifies [] .unqualified
  | keyword {word : Text} {qualifier : Qualifier} (h : (word, qualifier) ∈ qualifierKeywords) :
      Qualifies [word] qualifier

/-- At most one precision. -/
inductive Precise : List Text → Prop
  | absent : Precise []
  | keyword {word : Text} (h : word ∈ precisions) : Precise [word]

/-- The words of a declaration and the variable they spell, where `names` says which words are
types. -/
inductive Declares (names : Text → Shape → Prop) : List Text → Variable → Prop
  | intro {front middle : List Text} {qualifier : Qualifier} {type : Text} {shape : Shape}
      (hfront : Qualifies front qualifier) (hmiddle : Precise middle) (htype : names type shape)
      (name : Text) :
      Declares names (front ++ (middle ++ [type, name]))
        { name := some name, shape, qualifier, permission := .readWrite, value := none }

theorem Declares.mono {names names' : Text → Shape → Prop}
    (hnames : ∀ {word shape}, names word shape → names' word shape) {words : List Text}
    {v : Variable} (h : Declares names words v) : Declares names' words v := by
  cases h with
  | intro hfront hmiddle htype name => exact .intro hfront hmiddle (hnames htype) name

theorem qualifier?_eq_some_iff {word : Text} {qualifier : Qualifier} :
    Qualifier.ofKeyword? word = some qualifier ↔ (word, qualifier) ∈ qualifierKeywords := by
  constructor
  · intro h
    unfold Qualifier.ofKeyword? at h
    repeat' split at h
    all_goals simp_all [qualifierKeywords]
  · intro h
    have hall : ∀ entry ∈ qualifierKeywords, Qualifier.ofKeyword? entry.1 = some entry.2 := by
      decide
    exact hall _ h

theorem takeQualifier_spec (words : List Text) :
    ∃ front, words = front ++ (takeQualifier words).2 ∧
      Qualifies front (takeQualifier words).1 := by
  cases words with
  | nil => exact ⟨[], rfl, .absent⟩
  | cons word rest =>
      rw [takeQualifier]
      split
      next qualifier hword => exact ⟨[word], rfl, .keyword (qualifier?_eq_some_iff.mp hword)⟩
      next => exact ⟨[], rfl, .absent⟩

theorem dropPrecision_spec (words : List Text) :
    ∃ middle, words = middle ++ dropPrecision words ∧ Precise middle := by
  cases words with
  | nil => exact ⟨[], rfl, .absent⟩
  | cons word rest =>
      rw [dropPrecision]
      split
      next hword => exact ⟨[word], rfl, .keyword (by simpa using hword)⟩
      next => exact ⟨[], rfl, .absent⟩

theorem takeQualifier_append {front : List Text} {qualifier : Qualifier}
    (h : Qualifies front qualifier) {word : Text} (hword : Qualifier.ofKeyword? word = none)
    (rest : List Text) :
    takeQualifier (front ++ word :: rest) = (qualifier, word :: rest) := by
  cases h with
  | absent => simp only [List.nil_append, takeQualifier, hword]
  | keyword h => simp only [List.cons_append, List.nil_append, takeQualifier,
      qualifier?_eq_some_iff.mpr h]

theorem dropPrecision_append {middle : List Text} (h : Precise middle) {word : Text}
    (hword : word ∉ precisions) (rest : List Text) :
    dropPrecision (middle ++ word :: rest) = word :: rest := by
  cases h with
  | absent => simp [dropPrecision, hword]
  | keyword h => simp [dropPrecision, h]

/-- Words that a declaration may have before its type are no types. -/
theorem TypeWord.not_keyword {word : Text} {shape : Shape} (h : TypeWord word shape) :
    Qualifier.ofKeyword? word = none ∧ word ∉ precisions := by
  have hshape : shape? word ≠ none := by
    rw [shape?_eq_some_iff.mpr h]
    simp
  have hqualifiers : ∀ entry ∈ qualifierKeywords, shape? entry.1 = none := by decide
  have hprecisions : ∀ precision ∈ precisions, shape? precision = none := by decide
  constructor
  · apply Option.eq_none_iff_forall_not_mem.mpr
    intro qualifier hqualifier
    exact hshape (hqualifiers _ (qualifier?_eq_some_iff.mp hqualifier))
  · intro hprecision
    exact hshape (hprecisions _ hprecision)

/-- The words that are read as a declaration. -/
theorem read?_eq_some_iff {words : List Text} {v : Variable} :
    read? words = some v ↔ Declares TypeWord words v := by
  constructor
  · intro h
    unfold read? at h
    dsimp only at h
    split at h
    next type name hdrop =>
      obtain ⟨shape, hshape, rfl⟩ := Option.map_eq_some_iff.mp h
      obtain ⟨front, hwords, hfront⟩ := takeQualifier_spec words
      obtain ⟨middle, hrest, hmiddle⟩ := dropPrecision_spec (takeQualifier words).2
      have hspells := Declares.intro hfront hmiddle (shape?_eq_some_iff.mp hshape) name
      rwa [← hdrop, ← hrest, ← hwords] at hspells
    · simp at h
  · intro h
    cases h with
    | @intro front middle qualifier type shape hfront hmiddle htype name =>
        obtain ⟨hqualifier, hprecision⟩ := htype.not_keyword
        have htake : takeQualifier (front ++ (middle ++ [type, name])) =
            (qualifier, middle ++ [type, name]) := by
          cases hmiddle with
          | absent => exact takeQualifier_append hfront hqualifier _
          | keyword h =>
              have hall : ∀ precision ∈ precisions, Qualifier.ofKeyword? precision = none := by
                decide
              exact takeQualifier_append hfront (hall _ h) _
        simp only [read?, htake, dropPrecision_append hmiddle hprecision,
          shape?_eq_some_iff.mpr htype, Option.map_some]

theorem Declares.length {names : Text → Shape → Prop} {words : List Text} {v : Variable}
    (h : Declares names words v) : 1 < words.length := by
  cases h with
  | intro =>
      simp only [List.length_append, List.length_cons]
      omega

end Declaration

/-! ## Operands -/

namespace Statement

open Declaration

/-- The value of a text of several words, which the scope has no part in. -/
theorem run_item_words {setting : Setting} {text : Text} (h : 1 < (Text.words text).length)
    (draft : Draft) :
    (item setting (.text text)).run draft =
      match read? (Text.words text) with
      | some v => (.ok (.var (setting.labels draft).length),
          { draft with created := draft.created ++ [v] })
      | none => (.ok (.name (Text.trim text)), draft) := by
  rw [item, Operand.read]
  simp only [Text.words_trim, if_pos h]
  cases read? (Text.words text) with
  | none => rfl
  | some v => rfl

/-- A text of one word is a variable only if the scope binds it. -/
theorem find?_of_run_item {setting : Setting} {text : Text} (h : ¬ 1 < (Text.words text).length)
    {draft after : Draft} {id : VariableId}
    (hrun : (item setting (.text text)).run draft = (.ok (.var id), after)) :
    setting.scope.find? (Text.trim text) = some id := by
  rw [item, Operand.read] at hrun
  simp only [Text.words_trim, if_neg h] at hrun
  have hword : Operand.ofWord setting.scope (Text.trim text) = .var id := by
    simpa using congrArg Prod.fst hrun
  unfold Operand.ofWord at hword
  split at hword
  next bound hfind =>
    obtain rfl : bound = id := by simpa using hword
    exact hfind
  next =>
    split at hword
    · simp at hword
    · simp at hword

/-- Declarations create what they spell, and nothing else creates a variable.

A text whose words are a declaration gives a new variable, which is as the words say.  If a
text gives a variable that the scope does not bind to it, then its words are a declaration of
that variable.  Every other text of several words is a name. -/
theorem item_declares (setting : Setting) (draft : Draft) (text : Text) :
    let outcome := (item setting (.text text)).run draft
    let creates (v : Variable) : Except Fault Expr × Draft :=
      (.ok (.var (setting.labels draft).length), { draft with created := draft.created ++ [v] })
    (∀ words v, Declares TypeKeyword words v → Text.Spaced words text → outcome = creates v) ∧
    (∀ id after, outcome = (.ok (.var id), after) →
      setting.scope.find? (Text.trim text) ≠ some id →
      ∃ words v, Declares TypeWord words v ∧ Text.Spaced words text ∧ outcome = creates v) ∧
    (∀ words, Text.Spaced words text → 1 < words.length → (∀ v, ¬ Declares TypeWord words v) →
      outcome = (.ok (.name (Text.trim text)), draft)) := by
  intro outcome creates
  have hread : ∀ {v}, read? (Text.words text) = some v →
      1 < (Text.words text).length → outcome = creates v := by
    intro v hv hlength
    have hrun : outcome = _ := run_item_words hlength draft
    rwa [hv] at hrun
  have hname : read? (Text.words text) = none →
      1 < (Text.words text).length → outcome = (.ok (.name (Text.trim text)), draft) := by
    intro hnone hlength
    have hrun : outcome = _ := run_item_words hlength draft
    rwa [hnone] at hrun
  refine ⟨?_, ?_, ?_⟩
  · intro words v hdeclares hspaced
    obtain rfl := hspaced.words_eq
    exact hread (read?_eq_some_iff.mpr (hdeclares.mono TypeKeyword.typeWord)) hdeclares.length
  · intro id after hvar hscope
    have hlength : 1 < (Text.words text).length :=
      Decidable.not_not.mp fun hone => hscope (find?_of_run_item hone hvar)
    cases hv : read? (Text.words text) with
    | none => simp [hname hv hlength] at hvar
    | some v =>
        exact ⟨_, v, read?_eq_some_iff.mp hv, Text.spaced_iff.mpr rfl, hread hv hlength⟩
  · intro words hspaced hlength hnot
    obtain rfl := hspaced.words_eq
    refine hname (Option.eq_none_iff_forall_not_mem.mpr ?_) hlength
    intro v hv
    exact hnot v (read?_eq_some_iff.mp hv)

/-- A keyword for a name, with other blanks than spaces, whatever the scope binds; a type that is no
keyword; and a word too many. -/
theorem item_declares_keyword :
    let setting : Setting := ⟨⟨[("int".toList, 0)]⟩, [⟨some "int".toList, .int⟩], 0⟩
    let run (text : Text) := (item setting (.text text)).run {}
    let text := "\t uniform\u3000lowp  bvec3\nint ".toList
    let words := ["uniform".toList, "lowp".toList, "bvec3".toList, "int".toList]
    let v : Variable :=
      ⟨some "int".toList, .vector [.bool, .bool, .bool], .uniform, .readWrite, none⟩
    let other := "xvec2y a".toList
    let longer := "int a b".toList
    Declares TypeKeyword words v ∧ Text.Spaced words text ∧
    run text = (.ok (.var 1), { created := [v] }) ∧
    (∃ words v, Declares TypeWord words v ∧ Text.Spaced words other ∧
      run other = (.ok (.var 1), { created := [v] })) ∧
    run longer = (.ok (.name longer), {}) := by
  intro setting run text words v other longer
  have hdeclares : Declares TypeKeyword words v :=
    .intro (.keyword (by decide)) (.keyword (by decide))
      (.vector (by decide : ("bvec".toList, _) ∈ vectorStems) (by decide : ('3', 3) ∈ arityDigits))
      "int".toList
  have hspaced : Text.Spaced words text := Text.spaced_iff.mpr (by decide +kernel)
  have hother : run other = (.ok (.var 1), (run other).2) := rfl
  have hlonger : ∀ v, ¬ Declares TypeWord (Text.words longer) v := by
    intro v hv
    have hnone : read? (Text.words longer) = none := by decide
    rw [read?_eq_some_iff.mpr hv] at hnone
    cases hnone
  exact ⟨hdeclares, hspaced, (item_declares setting {} text).1 words v hdeclares hspaced,
    (item_declares setting {} other).2.1 1 _ hother (by decide),
    (item_declares setting {} longer).2.2 _ (Text.spaced_iff.mpr rfl) (by decide) hlonger⟩

end Statement

end Shading
