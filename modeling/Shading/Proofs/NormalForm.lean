import Mathlib.Data.List.Forall2
import Shading.Proofs.Comments

/-!
# The code of a source is in normal form

Code consists of lines that are trimmed, not empty, no directives and without line
comments: `IsCodeLine`.  Reading code again finds nothing to do in its lines, but it may
still find something between their characters: applying a definition can put together a
doubled exclamation mark or a block comment.  Without these, code is its own code.

With them it never is.  Reading again could define and apply substitutions, so the result
may well be longer than what was taken out; but a definition costs a line, and the result
has no line too many to lose.

* `codes_readAll_cons`: what one line contributes to the code.
* `isCodeLine_of_mem_codes`: every line of code is one as reading leaves it.
* `forall₂_of_codes`: if no line is lost, all lines are read as they stand.
* `code_normal`: normal forms and fixed points.
-/

namespace Shading

/-! ## Lines of code -/

/-- A line of code as reading leaves it. -/
structure Source.IsCodeLine (line : Text) : Prop where
  ne_nil : line ≠ []
  oneLine : '\n' ∉ line
  tight : Text.Tight line
  noDirective : line.head? ≠ some '#'
  noComment : ¬ HoldsLineComment .outside line

namespace Line

variable {substitutions : List Substitution} {raws codes : List Text}

theorem code_of_ofTrimmed {line text : Text} (h : ofTrimmed line = .code text) :
    line ≠ [] ∧ line.head? ≠ some '#' ∧ ¬ ['/', '/'] <+: line ∧
      text = Text.trimRight (Source.cutLineComment .outside line) := by
  unfold ofTrimmed at h
  split at h
  · cases h
  · cases h
  next body =>
    have hcode := code?_ofDirective ('#' :: body) body
    rw [h] at hcode
    cases hcode
  next hnil hcomment hdirective =>
    refine ⟨hnil, fun hhead => ?_, ?_, (Line.code.inj h).symm⟩
    · obtain ⟨body, hbody⟩ := List.head?_eq_some_iff.mp hhead
      exact hdirective body hbody
    · rintro ⟨rest, hrest⟩
      exact hcomment rest hrest.symm

/-- What a line without surrounding blanks leaves, if it is code at all, is a line of code. -/
theorem isCodeLine_of_ofTrimmed {line text : Text} (htight : Text.Tight line)
    (hone : '\n' ∉ line) (h : ofTrimmed line = .code text) : Source.IsCodeLine text := by
  obtain ⟨hne, hdirective, hcomment, rfl⟩ := code_of_ofTrimmed h
  obtain ⟨c, rest, rfl⟩ := List.exists_cons_of_ne_nil hne
  have hc : Text.isBlank c = false := htight.starts c rfl
  have hcut : Source.cutLineComment .outside (c :: rest) =
      c :: Source.cutLineComment (Quote.outside.next c) rest := by
    refine Source.cutLineComment_cons ?_
    rintro ⟨-, rfl, hhead⟩
    obtain ⟨others, rfl⟩ := List.head?_eq_some_iff.mp hhead
    exact hcomment (by simp)
  have htrim : Text.trimRight (Source.cutLineComment .outside (c :: rest)) =
      c :: Text.trimRight (Source.cutLineComment (Quote.outside.next c) rest) := by
    rw [hcut]
    exact Text.trimRight_append_cons hc [] _
  have hkept : Text.trimRight (Source.cutLineComment .outside (c :: rest)) <+: c :: rest :=
    (Text.trimRight_prefix _).trans (Source.cutLineComment_prefix _ _)
  refine ⟨by simp [htrim], fun hmem => hone (hkept.subset hmem), ⟨?_, ?_⟩, ?_, ?_⟩
  · simpa [htrim] using hc
  · exact Text.ends_trimRight _
  · simpa [htrim] using hdirective
  · rintro ⟨front, back, hline, hquote⟩
    -- A comment that was left would stand in the line before it was trimmed.
    obtain ⟨trail, htrail, -⟩ :=
      Text.exists_trimRight (Source.cutLineComment .outside (c :: rest))
    refine Source.not_holdsLineComment_cut .outside (c :: rest) ⟨front, back ++ trail, ?_, hquote⟩
    rw [htrail, hline]
    simp

theorem ofTrimmed_of_isCodeLine {line : Text} (h : Source.IsCodeLine line) :
    ofTrimmed line = .code line := by
  have hcomment : ¬ ['/', '/'] <+: line := by
    rintro ⟨rest, rfl⟩
    exact h.noComment ⟨[], rest, rfl, rfl⟩
  rw [ofTrimmed_of_ordinary h.ne_nil h.noDirective hcomment,
    Source.cutLineComment_of_not_holds h.noComment, Text.trimRight_of_ends h.tight.ends]

theorem read_of_isCodeLine {line : Text} (h : Source.IsCodeLine line) :
    read [] line = .code line := by
  rw [read, Substitution.applyAll, List.foldl_nil, Text.trim_of_tight h.tight]
  exact ofTrimmed_of_isCodeLine h

theorem length_le_of_read {raw text : Text} (h : read [] raw = .code text) :
    text.length ≤ raw.length := by
  obtain ⟨-, -, -, rfl⟩ := code_of_ofTrimmed h
  obtain ⟨lead, trail, hraw, -, -⟩ := Text.exists_trim raw
  calc (Text.trimRight (Source.cutLineComment .outside (Text.trim raw))).length
      ≤ (Source.cutLineComment .outside (Text.trim raw)).length :=
        (Text.trimRight_prefix _).length_le
    _ ≤ (Text.trim raw).length := (Source.cutLineComment_prefix _ _).length_le
    _ ≤ (lead ++ (Text.trim raw ++ trail)).length := by
        rw [List.length_append, List.length_append]
        omega
    _ = raw.length := by rw [← hraw]

/-! ## Line breaks -/

/-- The value of a definition is part of its line. -/
theorem mem_of_mem_value {line : Text} {s : Substitution} (h : ofTrimmed line = .definition s)
    {c : Char} (hc : c ∈ s.value) : c ∈ line := by
  unfold ofTrimmed at h
  split at h
  · cases h
  · cases h
  · unfold ofDirective at h
    dsimp only at h
    split at h
    · split at h
      · cases h
      · obtain rfl := Line.definition.inj h
        have hdirective := Text.mem_of_mem_afterFirstWord (Text.mem_of_mem_afterFirstWord hc)
        have hbody := (Source.cutLineComment_prefix _ _).subset (Text.mem_of_mem_trim hdirective)
        exact List.mem_cons_of_mem _ (Text.mem_of_mem_trim hbody)
    · cases h
  · cases h

theorem not_mem_applyAll {d : Char} {raw : Text} (hvalues : ∀ s ∈ substitutions, d ∉ s.value)
    (hraw : d ∉ raw) : d ∉ Substitution.applyAll substitutions raw := by
  unfold Substitution.applyAll
  induction substitutions generalizing raw with
  | nil => exact hraw
  | cons s rest ih =>
      refine ih (fun t ht => hvalues t (List.mem_cons_of_mem _ ht)) fun hmem => ?_
      rcases Text.mem_of_mem_replaceFrom hmem with hmem | hmem
      · exact hraw hmem
      · exact hvalues s (List.mem_cons_self ..) hmem

/-! ## All lines -/

/-- What the first of some lines contributes to the code: it defines a substitution for the
others, it is a line of code, or it is passed over. -/
theorem codes_readAll_cons {raw : Text}
    (h : Line.codes (readAll substitutions (raw :: raws)) = .ok codes) :
    (∃ s, read substitutions raw = .definition s ∧
      Line.codes (readAll (substitutions ++ [s]) raws) = .ok codes) ∨
    (∃ text others, read substitutions raw = .code text ∧ codes = text :: others ∧
      Line.codes (readAll substitutions raws) = .ok others) ∨
    Line.codes (readAll substitutions raws) = .ok codes := by
  rw [readAll] at h
  cases hread : read substitutions raw with
  | definition s =>
      rw [hread] at h
      exact Or.inl ⟨s, rfl, h⟩
  | malformed fault =>
      rw [hread] at h
      cases h
  | blank =>
      rw [hread] at h
      exact Or.inr (Or.inr h)
  | ignored line =>
      rw [hread] at h
      exact Or.inr (Or.inr h)
  | code text =>
      rw [hread] at h
      simp only [Line.codes] at h
      cases hothers : Line.codes (readAll substitutions raws) with
      | error fault => simp [hothers, Except.map] at h
      | ok others =>
          have hcodes : text :: others = codes := by simpa [hothers, Except.map] using h
          exact Or.inr (Or.inl ⟨text, others, rfl, hcodes.symm, rfl⟩)

theorem isCodeLine_of_mem_codes (hvalues : ∀ s ∈ substitutions, '\n' ∉ s.value)
    (hraws : ∀ raw ∈ raws, '\n' ∉ raw)
    (h : Line.codes (readAll substitutions raws) = .ok codes) :
    ∀ line ∈ codes, Source.IsCodeLine line := by
  induction raws generalizing substitutions codes with
  | nil =>
      obtain rfl : [] = codes := by simpa [readAll, Line.codes] using h
      simp
  | cons raw rest ih =>
      have hraw : '\n' ∉ Text.trim (Substitution.applyAll substitutions raw) := fun hmem =>
        not_mem_applyAll hvalues (hraws raw (List.mem_cons_self ..)) (Text.mem_of_mem_trim hmem)
      have hrest : ∀ other ∈ rest, '\n' ∉ other :=
        fun other hother => hraws other (List.mem_cons_of_mem _ hother)
      rcases codes_readAll_cons h with ⟨s, hread, hcodes⟩ | ⟨text, others, hread, rfl, hcodes⟩ |
        hcodes
      · refine ih (fun t ht => ?_) hrest hcodes
        rcases List.mem_append.mp ht with ht | ht
        · exact hvalues t ht
        · rw [List.mem_singleton.mp ht]
          exact fun hmem => hraw (mem_of_mem_value hread hmem)
      · intro line hline
        rcases List.mem_cons.mp hline with rfl | hline
        · exact isCodeLine_of_ofTrimmed (Text.tight_trim _) hraw hread
        · exact ih hvalues hrest hcodes line hline
      · exact ih hvalues hrest hcodes

theorem length_codes_le (h : Line.codes (readAll substitutions raws) = .ok codes) :
    codes.length ≤ raws.length := by
  induction raws generalizing substitutions codes with
  | nil =>
      obtain rfl : [] = codes := by simpa [readAll, Line.codes] using h
      exact Nat.le_refl _
  | cons raw rest ih =>
      rw [List.length_cons]
      rcases codes_readAll_cons h with ⟨s, -, hcodes⟩ | ⟨text, others, -, rfl, hcodes⟩ | hcodes
      · have hle := ih hcodes
        omega
      · have hle := ih hcodes
        rw [List.length_cons]
        omega
      · have hle := ih hcodes
        omega

/-- A definition leaves a line less than there was, so if no line is lost, there are none. -/
theorem forall₂_of_codes (h : Line.codes (readAll substitutions raws) = .ok codes)
    (hlength : raws.length ≤ codes.length) :
    List.Forall₂ (fun raw code => read substitutions raw = .code code) raws codes := by
  induction raws generalizing codes with
  | nil =>
      obtain rfl : [] = codes := by simpa [readAll, Line.codes] using h
      exact .nil
  | cons raw rest ih =>
      rw [List.length_cons] at hlength
      rcases codes_readAll_cons h with ⟨s, -, hcodes⟩ | ⟨text, others, hread, rfl, hcodes⟩ |
        hcodes
      · have hle := length_codes_le hcodes
        omega
      · rw [List.length_cons] at hlength
        exact .cons hread (ih hcodes (by omega))
      · have hle := length_codes_le hcodes
        omega

end Line

/-! ## Whole sources -/

namespace Source

theorem length_intercalate_le (separator : Text) {raws codes : List Text}
    (h : List.Forall₂ (fun raw code => code.length ≤ raw.length) raws codes) :
    (separator.intercalate codes).length ≤ (separator.intercalate raws).length := by
  induction h with
  | nil => exact Nat.le_refl _
  | @cons raw code rest others hle hrest ih =>
      cases hrest with
      | nil => simpa using hle
      | cons =>
          rw [List.intercalate_cons_cons, List.intercalate_cons_cons]
          simp only [List.length_append] at ih ⊢
          omega

/-- The text whose lines are read: the source without block comments and doubled exclamation
marks. -/
def stripped (source : Text) : Text :=
  Text.replaceAll ['!', '!'] [] (dropBlocks none source)

theorem rawLines_eq (source : Text) : rawLines source = (stripped source).splitOn '\n' := rfl

theorem stripped_sublist (source : Text) :
    (stripped source).Sublist (dropBlocks none source) ∧
      (dropBlocks none source).Sublist source :=
  ⟨Text.replaceFrom_nil_sublist _ 0 _, by simpa using dropBlocks_sublist none source⟩

/-- Code that is read and comes out no shorter was not touched. -/
theorem intact_of_length_le {text : Text} (h : text.length ≤ (stripped text).length) :
    ¬ ['!', '!'] <:+: text ∧ ¬ HoldsBlock text := by
  obtain ⟨hmarks, hblocks⟩ := stripped_sublist text
  have hsame : dropBlocks none text = text :=
    hblocks.eq_of_length_le (Nat.le_trans h hmarks.length_le)
  have hkept : Text.replaceAll ['!', '!'] [] text = text := by
    have hstripped : stripped text = text :=
      (hmarks.trans hblocks).eq_of_length_le h
    rwa [stripped, hsame] at hstripped
  exact ⟨(Text.replaceAll_nil_eq_self_iff (by simp)).mp hkept, dropBlocks_eq_self_iff.mp hsame⟩

theorem exists_codes {source text : Text} (h : code source = .ok text) :
    ∃ codes, Line.codes (Line.readAll [] (rawLines source)) = .ok codes ∧
      text = ['\n'].intercalate codes ∧ ∀ line ∈ codes, IsCodeLine line := by
  unfold code lines at h
  cases hcodes : Line.codes (Line.readAll [] (rawLines source)) with
  | error fault => simp [hcodes, Except.map] at h
  | ok codes =>
      refine ⟨codes, rfl, ?_, ?_⟩
      · have htext : ['\n'].intercalate codes = text := by simpa [hcodes, Except.map] using h
        exact htext.symm
      · refine Line.isCodeLine_of_mem_codes (by simp) (fun raw hraw => ?_) hcodes
        exact Text.not_mem_of_mem_splitOn hraw

/-- The code of a source is lines of code, joined; and it is its own code exactly if it has no
doubled exclamation mark and no block comment. -/
theorem code_normal {source text : Text} (h : code source = .ok text) :
    (∃ lines, text = ['\n'].intercalate lines ∧ ∀ line ∈ lines, IsCodeLine line) ∧
    (code text = .ok text ↔ ¬ ['!', '!'] <:+: text ∧ ¬ HoldsBlock text) := by
  obtain ⟨lines, -, htext, hlines⟩ := exists_codes h
  refine ⟨⟨lines, htext, hlines⟩, fun hfixed => ?_, fun ⟨hmarks, hblocks⟩ => ?_⟩
  · obtain ⟨codes, hcodes, hjoined, hcodeLines⟩ := exists_codes hfixed
    refine intact_of_length_le ?_
    by_cases hnone : codes = []
    · rw [hjoined, hnone]
      exact Nat.zero_le _
    -- Taking characters out makes no new lines, and none is lost on the way to the code.
    have hsplit : text.splitOn '\n' = codes := by
      rw [hjoined]
      exact List.splitOn_intercalate '\n' (fun line hline => (hcodeLines line hline).oneLine) hnone
    have hcount : (rawLines text).length ≤ codes.length := by
      obtain ⟨hshorter, hwhole⟩ := stripped_sublist text
      have hle := (hshorter.trans hwhole).count_le '\n'
      rw [rawLines_eq, ← hsplit, Text.length_splitOn, Text.length_splitOn]
      omega
    have hread := Line.forall₂_of_codes hcodes hcount
    have hle := length_intercalate_le ['\n']
      (hread.imp fun raw line hline => Line.length_le_of_read hline)
    rw [← hjoined, rawLines_eq, List.intercalate_splitOn] at hle
    exact hle
  · by_cases hnone : lines = []
    · rw [htext, hnone]
      rfl
    have hraws : rawLines text = lines := by
      rw [rawLines_of_intact hblocks hmarks, htext]
      exact List.splitOn_intercalate '\n' (fun line hline => (hlines line hline).oneLine) hnone
    have hdefines : ∀ raw ∈ lines, (Line.read [] raw).isDefine = false := by
      intro raw hraw
      rw [Line.read_of_isCodeLine (hlines raw hraw)]
      rfl
    have hkept : lines.filterMap (fun raw => (Line.read [] raw).code?) = lines := by
      have hread : ∀ raw ∈ lines, (Line.read [] raw).code? = some raw := by
        intro raw hraw
        rw [Line.read_of_isCodeLine (hlines raw hraw)]
        rfl
      rw [List.filterMap_congr hread, List.filterMap_some]
    rw [code, Source.lines, hraws, Line.codes_readAll_of_not_isDefine hdefines, hkept, htext]
    rfl

/-- A definition whose application puts a doubled exclamation mark together: reading the code
again takes it out, and it is the code of that that stays as it is. -/
theorem code_normal_reread :
    let source : Text := "#define E !\nbool a = E!b; // c\n\n  #version 3\n\tint c;\r\n".toList
    let text : Text := "bool a = !!b;\nint c;".toList
    let again : Text := "bool a = b;\nint c;".toList
    code source = .ok text ∧ code text = .ok again ∧ code again = .ok again ∧
    (∃ lines, text = ['\n'].intercalate lines ∧ ∀ line ∈ lines, IsCodeLine line) ∧
    ¬ (¬ ['!', '!'] <:+: text ∧ ¬ HoldsBlock text) ∧
    (¬ ['!', '!'] <:+: again ∧ ¬ HoldsBlock again) := by
  intro source text again
  have hsource : code source = .ok text := by decide +kernel
  have htext : code text = .ok again := by decide +kernel
  have hagain : code again = .ok again := by decide +kernel
  obtain ⟨hlines, hfixed⟩ := code_normal hsource
  refine ⟨hsource, htext, hagain, hlines, fun hintact => ?_, (code_normal htext).2.mp hagain⟩
  have hsame := hfixed.mpr hintact
  rw [htext] at hsame
  exact absurd hsame (by decide +kernel)

end Source

end Shading
