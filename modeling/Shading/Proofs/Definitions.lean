import Shading.Proofs.Comments

/-!
# A leading definition is a substitution in the rest of the source

A definition is in force from the next line on, and each later line is read with all earlier
definitions applied to it, oldest first.  So the definition of a first line may as well be
applied to the whole text behind it, once and for all: to the lines of code, and to the
later definitions, complete or not.

* `readAll_cons`: a definition in front of all others can be applied beforehand.
* `read_line`: the line that defines a substitution.
* `code_define`: a source that starts with such a line.
-/

namespace Shading

/-! ## Definitions in force -/

theorem Line.read_cons (s : Substitution) (substitutions : List Substitution) (raw : Text) :
    read (s :: substitutions) raw =
      read substitutions (Text.replaceAll s.find s.value raw) := rfl

/-- Later definitions are read under the first one, so they come out the same if it has been
applied to their lines. -/
theorem Line.readAll_cons (s : Substitution) (substitutions : List Substitution)
    (raws : List Text) :
    readAll (s :: substitutions) raws =
      readAll substitutions (raws.map (Text.replaceAll s.find s.value)) := by
  induction raws generalizing substitutions with
  | nil => rfl
  | cons raw rest ih =>
      rw [List.map_cons, readAll, readAll, Line.read_cons, ih]
      cases read substitutions (Text.replaceAll s.find s.value raw) with
      | definition t => exact congrArg _ (ih (substitutions ++ [t]))
      | malformed fault => rfl
      | blank => rfl
      | ignored line => rfl
      | code text => rfl

/-! ## The line of a definition -/

namespace Text

variable {word : Text}

theorem firstWord_append_space (h : ∀ c ∈ word, isBlank c = false) (rest : Text) :
    firstWord (word ++ ' ' :: rest) = word := by
  rw [firstWord, List.takeWhile_append_of_pos fun c hc => by simp [h c hc]]
  simp [isBlank_space]

theorem afterFirstWord_append_space (h : ∀ c ∈ word, isBlank c = false) {rest : Text}
    (hrest : ∀ c ∈ rest.head?, isBlank c = false) :
    afterFirstWord (word ++ ' ' :: rest) = rest := by
  have hword : (word ++ ' ' :: rest).dropWhile (fun c => !isBlank c) = ' ' :: rest := by
    rw [List.dropWhile_append_of_pos fun c hc => by simp [h c hc]]
    exact List.dropWhile_cons_of_neg (by simp [isBlank_space])
  have hspace : trimLeft (' ' :: rest) = trimLeft rest :=
    List.dropWhile_cons_of_pos isBlank_space
  rw [afterFirstWord, hword, hspace, trimLeft_of_starts hrest]

end Text

namespace Substitution

/-- A substitution that a line can define: what it looks for is a word, its value is trimmed and
on one line, and neither has a slash or an exclamation mark. -/
structure Definable (s : Substitution) : Prop where
  find_ne_nil : s.find ≠ []
  find_word : ∀ c ∈ s.find, Text.isBlank c = false
  find_unmarked : '/' ∉ s.find ∧ '!' ∉ s.find
  value_ne_nil : s.value ≠ []
  value_tight : Text.Tight s.value
  value_oneLine : '\n' ∉ s.value
  value_unmarked : '/' ∉ s.value ∧ '!' ∉ s.value

/-- The directive that defines a substitution. -/
def directive (s : Substitution) : Text :=
  "define".toList ++ ' ' :: (s.find ++ ' ' :: s.value)

/-- The line of that directive. -/
def line (s : Substitution) : Text :=
  '#' :: s.directive

variable {s : Substitution}

theorem Definable.newline_not_mem_find (h : s.Definable) : '\n' ∉ s.find := by
  intro hmem
  have hword := h.find_word _ hmem
  revert hword
  decide

/-- A character that is no part of the keyword or of the two texts is no part of the line. -/
theorem not_mem_line {c : Char} (hkeyword : c ∉ "#define ".toList) (hfind : c ∉ s.find)
    (hvalue : c ∉ s.value) : c ∉ s.line := by
  have hsplit : "#define ".toList = '#' :: ("define".toList ++ [' ']) := by decide +kernel
  simp only [hsplit, List.mem_cons, List.mem_append, List.not_mem_nil, or_false, not_or]
    at hkeyword
  obtain ⟨hsign, hkeyword, hspace⟩ := hkeyword
  unfold line directive
  simp only [List.mem_cons, List.mem_append, not_or]
  exact ⟨hsign, hkeyword, hspace, hfind, hspace, hvalue⟩

theorem Definable.slash_not_mem_line (h : s.Definable) : '/' ∉ s.line :=
  not_mem_line (by decide +kernel) h.find_unmarked.1 h.value_unmarked.1

theorem Definable.mark_not_mem_line (h : s.Definable) : '!' ∉ s.line :=
  not_mem_line (by decide +kernel) h.find_unmarked.2 h.value_unmarked.2

theorem Definable.newline_not_mem_line (h : s.Definable) : '\n' ∉ s.line :=
  not_mem_line (by decide +kernel) h.newline_not_mem_find h.value_oneLine

theorem Definable.tight_directive (h : s.Definable) : Text.Tight s.directive := by
  have hkeyword : Text.Tight "define".toList := by decide +kernel
  have htight := hkeyword.append h.value_tight (by decide +kernel) h.value_ne_nil
    (' ' :: (s.find ++ [' ']))
  rwa [List.cons_append, List.append_assoc, List.singleton_append] at htight

theorem Definable.tight_line (h : s.Definable) : Text.Tight s.line := by
  have hsign : Text.Tight ['#'] := by decide
  have hne : s.directive ≠ [] := List.append_ne_nil_of_right_ne_nil _ (by simp)
  exact hsign.append h.tight_directive (by simp) hne []

/-- The line that defines a substitution is read as its definition. -/
theorem Definable.read_line (h : s.Definable) : Line.read [] s.line = .definition s := by
  have hkeyword : ∀ c ∈ "define".toList, Text.isBlank c = false := by decide +kernel
  have hdefine : Text.firstWord s.directive = "define".toList :=
    Text.firstWord_append_space hkeyword _
  have hcut : Source.cutLineComment .outside s.directive = s.directive := by
    refine Source.cutLineComment_of_not_holds ?_
    rintro ⟨front, back, hdirective, -⟩
    exact h.slash_not_mem_line (List.mem_cons_of_mem _ (by simp [hdirective]))
  have harguments : Text.afterFirstWord s.directive = s.find ++ ' ' :: s.value := by
    refine Text.afterFirstWord_append_space hkeyword fun c hc => h.find_word c ?_
    obtain ⟨d, rest, hfind⟩ := List.exists_cons_of_ne_nil h.find_ne_nil
    rw [hfind] at hc ⊢
    obtain rfl : d = c := by simpa using hc
    exact List.mem_cons_self ..
  have hfind : Text.firstWord (s.find ++ ' ' :: s.value) = s.find :=
    Text.firstWord_append_space h.find_word _
  have hvalue : Text.afterFirstWord (s.find ++ ' ' :: s.value) = s.value :=
    Text.afterFirstWord_append_space h.find_word h.value_tight.starts
  calc Line.read [] s.line
      = Line.ofDirective s.line s.directive := by
        rw [Line.read, Substitution.applyAll, List.foldl_nil, Text.trim_of_tight h.tight_line]
        rfl
    _ = .definition s := by
        unfold Line.ofDirective
        rw [Text.trim_of_tight h.tight_directive, hcut, Text.trim_of_tight h.tight_directive]
        dsimp only
        rw [harguments, hfind, hvalue, if_pos hdefine, if_neg]
        simp [h.find_ne_nil, h.value_ne_nil]

end Substitution

/-! ## Sources that start with a definition -/

namespace Source

/-- The line of a definition stands on its own in a source. -/
theorem rawLines_define {s : Substitution} (h : s.Definable) (body : Text) :
    rawLines (s.line ++ '\n' :: body) = s.line :: rawLines body := by
  have hunmarked : Unmarked s.line := by
    constructor
    · intro hfound
      exact h.slash_not_mem_line (hfound.subset (by simp))
    · intro hfound
      exact h.mark_not_mem_line (hfound.subset (by simp))
  rw [rawLines_append (endsInComment_of_unopened hunmarked.comment), hunmarked.rawLines_eq,
    List.splitOn_eq_singleton h.newline_not_mem_line, List.singleton_append]

/-- A source that starts with a definition has the code, or the fault, of what follows it with the
substitution made throughout. -/
theorem code_define {s : Substitution} (h : s.Definable) {body : Text} (hbody : Unmarked body)
    (hreplaced : Unmarked (Text.replaceAll s.find s.value body)) :
    code (s.line ++ '\n' :: body) = code (Text.replaceAll s.find s.value body) := by
  have hlines : lines (s.line ++ '\n' :: body) =
      .definition s :: lines (Text.replaceAll s.find s.value body) := by
    calc lines (s.line ++ '\n' :: body)
        = Line.readAll [] (s.line :: rawLines body) := by rw [lines, rawLines_define h]
      _ = .definition s :: Line.readAll [s] (rawLines body) := by
          rw [Line.readAll, h.read_line]
          rfl
      _ = .definition s ::
            Line.readAll [] ((rawLines body).map (Text.replaceAll s.find s.value)) := by
          rw [Line.readAll_cons]
      _ = .definition s :: lines (Text.replaceAll s.find s.value body) := by
          rw [lines, hbody.rawLines_eq, hreplaced.rawLines_eq,
            Text.splitOn_replaceAll h.find_ne_nil h.newline_not_mem_find h.value_oneLine]
  unfold code
  rw [hlines]
  rfl

/-- A definition that is applied to lines of code and to a later definition, and one that is
applied to a later definition without a value, whose fault tells the text put in. -/
theorem code_define_later :
    let s : Substitution := ⟨"NN".toList, "7 - x".toList⟩
    let body : Text := "#define M (NN) // NN\r\nfloat a = NNN * M;\n\n#version NN".toList
    let t : Substitution := ⟨"N".toList, "7".toList⟩
    let faulty : Text := "int b;\n  #define N // none\nint c;".toList
    s.line = "#define NN 7 - x".toList ∧
    code (s.line ++ '\n' :: body) = code (Text.replaceAll s.find s.value body) ∧
    code (s.line ++ '\n' :: body) = .ok "float a = 7 - xN * (7 - x);".toList ∧
    code (t.line ++ '\n' :: faulty) = code (Text.replaceAll t.find t.value faulty) ∧
    code (t.line ++ '\n' :: faulty) =
      .error ⟨.malformedDefinition "define 7".toList, "#define 7 // none".toList⟩ := by
  intro s body t faulty
  have hs : s.Definable :=
    ⟨by decide +kernel, by decide +kernel, by decide +kernel, by decide +kernel,
      by decide +kernel, by decide +kernel, by decide +kernel⟩
  have ht : t.Definable :=
    ⟨by decide +kernel, by decide +kernel, by decide +kernel, by decide +kernel,
      by decide +kernel, by decide +kernel, by decide +kernel⟩
  exact ⟨by decide +kernel,
    code_define hs ⟨by decide +kernel, by decide +kernel⟩ ⟨by decide +kernel, by decide +kernel⟩,
    by decide +kernel,
    code_define ht ⟨by decide +kernel, by decide +kernel⟩ ⟨by decide +kernel, by decide +kernel⟩,
    by decide +kernel⟩

end Source

end Shading
