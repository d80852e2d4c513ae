import Shading.Text.Quote

/-!
# Trimming and bytes

Every stage trims what it cuts, so the later proofs need to know when trimming does
nothing and which blanks it removes.  A text that neither starts nor ends with a blank is
`Tight`; trimming leaves a tight text alone, and it does not see blanks put around one.

Positions are counted in bytes, so how many bytes a text has, and what dropping some of
them leaves, stands here as well.
-/

namespace Shading.Text

/-- What holds of every character of a text is decided by going through the text, not through
all characters there are. -/
instance (priority := 2000) decidableForallMem (text : Text) (p : Char → Prop) [DecidablePred p] :
    Decidable (∀ c ∈ text, p c) :=
  List.decidableBAll p text

/-! ## Texts without blanks at their ends -/

/-- A text that does not start with a blank and does not end with one. -/
structure Tight (text : Text) : Prop where
  starts : ∀ c ∈ text.head?, isBlank c = false
  ends : ∀ c ∈ text.getLast?, isBlank c = false

theorem tight_iff {text : Text} :
    Tight text ↔ text.head?.all (!isBlank ·) = true ∧ text.getLast?.all (!isBlank ·) = true := by
  constructor
  · intro h
    simp only [Option.all_eq_true, Bool.not_eq_true']
    exact ⟨h.starts, h.ends⟩
  · rintro ⟨hstarts, hends⟩
    simp only [Option.all_eq_true, Bool.not_eq_true'] at hstarts hends
    exact ⟨hstarts, hends⟩

instance decidableTight (text : Text) : Decidable (Tight text) :=
  decidable_of_iff _ tight_iff.symm

theorem isBlank_space : isBlank ' ' = true := by
  decide

/-- A text without any blank is tight. -/
theorem tight_of_forall {text : Text} (h : ∀ c ∈ text, isBlank c = false) : Tight text :=
  ⟨fun c hc => h c (List.mem_of_mem_head? hc), fun c hc => h c (List.mem_of_getLast? hc)⟩

/-- Tight texts stay tight with anything between them. -/
theorem Tight.append {first last : Text} (hfirst : Tight first) (hlast : Tight last)
    (hne : first ≠ []) (hne' : last ≠ []) (middle : Text) :
    Tight (first ++ (middle ++ last)) := by
  obtain ⟨c, rest, rfl⟩ := List.exists_cons_of_ne_nil hne
  obtain ⟨rest', c', rfl⟩ := List.eq_nil_or_concat last |>.resolve_left hne'
  constructor
  · intro d hd
    exact hfirst.starts d (by simpa using hd)
  · intro d hd
    have hends : (c :: rest ++ (middle ++ (rest' ++ [c']))).getLast? = some c' := by
      rw [← List.append_assoc, ← List.append_assoc, List.getLast?_concat]
    rw [List.concat_eq_append, hends] at hd
    exact hlast.ends d (by simpa using hd)

/-! ## Trimming -/

theorem trimLeft_of_starts {text : Text} (h : ∀ c ∈ text.head?, isBlank c = false) :
    trimLeft text = text := by
  cases text with
  | nil => rfl
  | cons c rest => simp [trimLeft, h c rfl]

theorem trimRight_of_ends {text : Text} (h : ∀ c ∈ text.getLast?, isBlank c = false) :
    trimRight text = text := by
  have hstarts : ∀ c ∈ text.reverse.head?, isBlank c = false := by simpa using h
  have := trimLeft_of_starts hstarts
  rw [trimLeft] at this
  rw [trimRight, this, List.reverse_reverse]

@[simp] theorem trim_of_tight {text : Text} (h : Tight text) : trim text = text := by
  rw [trim, trimLeft_of_starts h.starts, trimRight_of_ends h.ends]

/-- The blanks that a text starts with. -/
def indent (text : Text) : Text :=
  text.takeWhile isBlank

@[simp] theorem indent_append_trimLeft (text : Text) : indent text ++ trimLeft text = text :=
  List.takeWhile_append_dropWhile

theorem isBlank_of_mem_indent {text : Text} {c : Char} (h : c ∈ indent text) :
    isBlank c = true :=
  List.all_eq_true.mp List.all_takeWhile c h

/-- What trimming takes from the start of a text is blank. -/
theorem exists_trimLeft (text : Text) :
    ∃ lead, text = lead ++ trimLeft text ∧ ∀ c ∈ lead, isBlank c = true :=
  ⟨indent text, (indent_append_trimLeft text).symm, fun _ hc => isBlank_of_mem_indent hc⟩

/-- What trimming takes from the end of a text is blank. -/
theorem exists_trimRight (text : Text) :
    ∃ trail, text = trimRight text ++ trail ∧ ∀ c ∈ trail, isBlank c = true := by
  refine ⟨(text.reverse.takeWhile isBlank).reverse, ?_, fun c hc => ?_⟩
  · rw [trimRight, ← List.reverse_append, List.takeWhile_append_dropWhile, List.reverse_reverse]
  · exact List.all_eq_true.mp List.all_takeWhile c (by simpa using hc)

theorem exists_trim_indent (text : Text) :
    ∃ trail, text = indent text ++ (trim text ++ trail) ∧ ∀ c ∈ trail, isBlank c = true := by
  obtain ⟨trail, htrail, hblank⟩ := exists_trimRight (trimLeft text)
  refine ⟨trail, ?_, hblank⟩
  rw [trim, ← htrail, indent_append_trimLeft]

/-- Trimming takes blanks from both ends and nothing else. -/
theorem exists_trim (text : Text) :
    ∃ lead trail, text = lead ++ (trim text ++ trail) ∧ (∀ c ∈ lead, isBlank c = true) ∧
      ∀ c ∈ trail, isBlank c = true := by
  obtain ⟨trail, htext, htrail⟩ := exists_trim_indent text
  exact ⟨indent text, trail, htext, fun _ hc => isBlank_of_mem_indent hc, htrail⟩

theorem trimLeft_append_of_blank {lead : Text} (h : ∀ c ∈ lead, isBlank c = true) (text : Text) :
    trimLeft (lead ++ text) = trimLeft text :=
  List.dropWhile_append_of_pos h

theorem trimRight_append_of_blank {trail : Text} (h : ∀ c ∈ trail, isBlank c = true)
    (text : Text) : trimRight (text ++ trail) = trimRight text := by
  rw [trimRight, List.reverse_append, List.dropWhile_append_of_pos (by simpa using h)]
  rfl

/-- Blanks before a text make no difference to trimming. -/
theorem trim_append_left {lead : Text} (h : ∀ c ∈ lead, isBlank c = true) (text : Text) :
    trim (lead ++ text) = trim text := by
  rw [trim, trimLeft_append_of_blank h, trim]

/-- Blanks after a text make no difference to trimming. -/
theorem trim_append_right {trail : Text} (h : ∀ c ∈ trail, isBlank c = true) (text : Text) :
    trim (text ++ trail) = trim text := by
  have hleft : trimLeft (text ++ trail) = trimLeft text ++ trail ∨
      trimLeft (text ++ trail) = [] ∧ trimLeft text = [] := by
    induction text with
    | nil => exact Or.inr ⟨by simpa using trimLeft_append_of_blank h [], rfl⟩
    | cons c rest ih =>
        by_cases hc : isBlank c = true
        · simpa [trimLeft, hc] using ih
        · exact Or.inl (by simp [trimLeft, hc])
  unfold trim
  rcases hleft with hkept | ⟨hall, hnone⟩
  · rw [hkept, trimRight_append_of_blank h]
  · rw [hall, hnone]

@[simp] theorem trim_space_cons (text : Text) : trim (' ' :: text) = trim text := by
  have hspace : ∀ c ∈ [' '], isBlank c = true := by simp [isBlank_space]
  exact trim_append_left hspace text

@[simp] theorem trim_append_space (text : Text) : trim (text ++ [' ']) = trim text :=
  trim_append_right (by simp [isBlank_space]) text

theorem ends_trimRight (text : Text) : ∀ c ∈ (trimRight text).getLast?, isBlank c = false := by
  intro c hc
  rw [trimRight, List.getLast?_reverse] at hc
  have hnot := List.head?_dropWhile_not isBlank text.reverse
  rw [hc] at hnot
  exact hnot

theorem tight_trim (text : Text) : Tight (trim text) := by
  have hstarts : ∀ c ∈ (trimLeft text).head?, isBlank c = false := by
    intro c hc
    have hnot := List.head?_dropWhile_not isBlank text
    rw [trimLeft] at hc
    rw [hc] at hnot
    exact hnot
  constructor
  · intro c hc
    obtain ⟨trail, htrail, -⟩ := exists_trimRight (trimLeft text)
    rw [trim] at hc
    refine hstarts c ?_
    rw [htrail, List.head?_append]
    simp [Option.mem_def.mp hc]
  · exact ends_trimRight (trimLeft text)

@[simp] theorem trim_trim (text : Text) : trim (trim text) = trim text :=
  trim_of_tight (tight_trim text)

theorem mem_of_mem_trim {text : Text} {c : Char} (h : c ∈ trim text) : c ∈ text := by
  obtain ⟨lead, trail, htext, -, -⟩ := exists_trim text
  rw [htext]
  simp [h]

theorem mem_of_mem_afterFirstWord {text : Text} {c : Char} (h : c ∈ afterFirstWord text) :
    c ∈ text :=
  (List.dropWhile_sublist _).subset ((List.dropWhile_sublist _).subset h)

theorem trimRight_prefix (text : Text) : trimRight text <+: text := by
  obtain ⟨trail, htrail, -⟩ := exists_trimRight text
  exact ⟨trail, htrail.symm⟩

@[simp] theorem trim_trimRight (text : Text) : trim (trimRight text) = trim text := by
  obtain ⟨trail, htrail, hblank⟩ := exists_trimRight text
  calc trim (trimRight text)
      = trim (trimRight text ++ trail) := (trim_append_right hblank _).symm
    _ = trim text := by rw [← htrail]

/-- Trimming the end of a text that starts with some character: the rest may be trimmed first. -/
theorem trimRight_cons (c : Char) (text : Text) :
    trimRight (c :: text) = trimRight (c :: trimRight text) := by
  obtain ⟨trail, htrail, hblank⟩ := exists_trimRight text
  rw [← trimRight_append_of_blank hblank (c :: trimRight text), List.cons_append, ← htrail]

/-- A character that is not blank stands in the way of trimming. -/
theorem trimRight_append_cons {c : Char} (hc : isBlank c = false) (first rest : Text) :
    trimRight (first ++ c :: rest) = first ++ c :: trimRight rest := by
  obtain ⟨trail, htrail, hblank⟩ := exists_trimRight rest
  have hends : ∀ d ∈ (first ++ c :: trimRight rest).getLast?, isBlank d = false := by
    intro d hd
    have hrest := ends_trimRight rest d
    rcases List.eq_nil_or_concat (trimRight rest) with hnil | ⟨front, e, hlast⟩
    · rw [hnil, List.getLast?_concat] at hd
      obtain rfl : c = d := by simpa using hd
      exact hc
    · rw [hlast, List.concat_eq_append, List.getLast?_concat] at hrest
      rw [hlast, List.concat_eq_append, ← List.cons_append, ← List.append_assoc,
        List.getLast?_concat] at hd
      exact hrest hd
  calc trimRight (first ++ c :: rest)
      = trimRight ((first ++ c :: trimRight rest) ++ trail) := by
        rw [List.append_assoc, List.cons_append, ← htrail]
    _ = first ++ c :: trimRight rest := by
        rw [trimRight_append_of_blank hblank, trimRight_of_ends hends]

theorem trimLeft_append_cons {c : Char} (hc : isBlank c = false) (before after : Text) :
    trimLeft (before ++ c :: after) = trimLeft before ++ c :: after := by
  induction before with
  | nil => exact trimLeft_of_starts (by simpa using hc)
  | cons d rest ih =>
      by_cases hd : isBlank d = true
      · have hrest : ∀ text : Text, trimLeft (d :: text) = trimLeft text :=
          fun text => List.dropWhile_cons_of_pos hd
        rw [List.cons_append, hrest, hrest, ih]
      · have hkept : ∀ text : Text, trimLeft (d :: text) = d :: text :=
          fun text => List.dropWhile_cons_of_neg hd
        rw [List.cons_append, hkept, hkept, List.cons_append]

theorem trim_append_cons {c : Char} (hc : isBlank c = false) (before after : Text) :
    trim (before ++ c :: after) = trimLeft before ++ c :: trimRight after := by
  rw [trim, trimLeft_append_cons hc, trimRight_append_cons hc]

@[simp] theorem trim_trimLeft (text : Text) : trim (trimLeft text) = trim text := by
  obtain ⟨lead, htext, hlead⟩ := exists_trimLeft text
  calc trim (trimLeft text) = trim (lead ++ trimLeft text) := (trim_append_left hlead _).symm
    _ = trim text := by rw [← htext]

/-! ## Fragments -/

theorem fragment?_eq_none_iff {text : Text} : fragment? text = none ↔ trim text = [] := by
  simp [fragment?]

theorem fragment?_eq_some_iff {text fragment : Text} :
    fragment? text = some fragment ↔ trim text = fragment ∧ fragment ≠ [] := by
  rw [fragment?]
  split
  next hempty =>
    rw [List.isEmpty_iff.mp hempty]
    constructor
    · intro h
      cases h
    · rintro ⟨rfl, hne⟩
      exact absurd rfl hne
  next hempty =>
    rw [Option.some.injEq]
    refine ⟨fun h => ⟨h, ?_⟩, And.left⟩
    rintro rfl
    exact hempty (List.isEmpty_iff.mpr h)

theorem fragment?_of_ne_nil {text : Text} (h : trim text ≠ []) :
    fragment? text = some (trim text) :=
  fragment?_eq_some_iff.mpr ⟨rfl, h⟩

theorem fragment?_of_tight {text : Text} (h : Tight text) (hne : text ≠ []) :
    fragment? text = some text :=
  fragment?_eq_some_iff.mpr ⟨trim_of_tight h, hne⟩

theorem fragment?_of_blank {text : Text} (h : ∀ c ∈ text, isBlank c = true) :
    fragment? text = none :=
  fragment?_eq_none_iff.mpr (by simpa using trim_append_left h [])

/-- What trimming does not see makes no difference to the fragment. -/
theorem fragment?_congr {text other : Text} (h : trim text = trim other) :
    fragment? text = fragment? other := by
  rw [fragment?, fragment?, h]

@[simp] theorem fragment?_nil : fragment? [] = none := rfl

@[simp] theorem fragment?_space_cons (text : Text) : fragment? (' ' :: text) = fragment? text :=
  fragment?_congr (trim_space_cons text)

@[simp] theorem fragment?_append_space (text : Text) :
    fragment? (text ++ [' ']) = fragment? text :=
  fragment?_congr (trim_append_space text)

/-! ## Cutting into pieces -/

/-- A piece of a text that was cut has none of the characters at which it was cut. -/
theorem eq_false_of_mem_splitOnP {p : Char → Bool} {text piece : Text}
    (h : piece ∈ text.splitOnP p) : ∀ c ∈ piece, p c = false := by
  induction text generalizing piece with
  | nil =>
      obtain rfl : piece = [] := by simpa using h
      simp
  | cons c rest ih =>
      rw [List.splitOnP_cons_eq_if_modifyHead] at h
      split at h
      next =>
        rcases List.mem_cons.mp h with rfl | h
        · simp
        · exact ih h
      next hc =>
        -- The character goes to the front of the first piece of the rest.
        obtain ⟨first, more, hsplit⟩ := List.exists_cons_of_ne_nil (List.splitOnP_ne_nil p rest)
        rw [hsplit] at h ih
        rcases List.mem_cons.mp h with rfl | h
        · intro d hd
          rcases List.mem_cons.mp hd with rfl | hd
          · simpa using hc
          · exact ih (List.mem_cons_self ..) d hd
        · exact ih (List.mem_cons_of_mem _ h)

theorem not_mem_of_mem_splitOn {d : Char} {text piece : Text} (h : piece ∈ text.splitOn d) :
    d ∉ piece := by
  intro hd
  have hnot := eq_false_of_mem_splitOnP h d hd
  simp at hnot

theorem length_splitOn (d : Char) (text : Text) :
    (text.splitOn d).length = text.count d + 1 := by
  induction text with
  | nil => rfl
  | cons c rest ih =>
      rw [List.splitOn_cons_eq_if_modifyHead]
      by_cases hc : c = d
      · simp [hc, ih]
      · simp [hc, ih]

/-! ## Words -/

/-- A text without blanks is one word at most. -/
theorem length_words_of_forall {text : Text} (h : ∀ c ∈ text, isBlank c = false) :
    (words text).length ≤ 1 := by
  rw [words, List.splitOnP_eq_singleton h]
  exact List.length_filter_le ..

/-! ## Bytes -/

@[simp] theorem byteLength_append (first rest : Text) :
    byteLength (first ++ rest) = byteLength first + byteLength rest := by
  induction first with
  | nil => simp [byteLength]
  | cons c more ih => simp [byteLength, ih, Nat.add_assoc]

@[simp] theorem byteLength_reverse (text : Text) : byteLength text.reverse = byteLength text := by
  induction text with
  | nil => rfl
  | cons c rest ih => simp [byteLength, ih, Nat.add_comm]

theorem byteLength_pos {text : Text} (h : text ≠ []) : 0 < byteLength text := by
  obtain ⟨c, rest, rfl⟩ := List.exists_cons_of_ne_nil h
  exact Nat.lt_of_lt_of_le c.utf8Size_pos (Nat.le_add_right ..)

theorem dropBytes?_append (front rest : Text) :
    dropBytes? (front ++ rest) (byteLength front) = some rest := by
  induction front with
  | nil => simp [byteLength, dropBytes?]
  | cons c more ih =>
      have hc : c.utf8Size + byteLength more = (c.utf8Size - 1 + byteLength more) + 1 := by
        have := c.utf8Size_pos
        omega
      rw [byteLength, hc, List.cons_append, dropBytes?, ← hc, if_pos (Nat.le_add_right ..),
        Nat.add_sub_cancel_left]
      exact ih

theorem dropBytes?_eq_some_iff {text rest : Text} {count : Nat} :
    dropBytes? text count = some rest ↔
      ∃ front, text = front ++ rest ∧ byteLength front = count := by
  constructor
  · intro h
    induction text generalizing count with
    | nil =>
        cases count with
        | zero => exact ⟨[], by simpa [dropBytes?] using h, rfl⟩
        | succ count => simp [dropBytes?] at h
    | cons c more ih =>
        cases count with
        | zero => exact ⟨[], by simpa [dropBytes?] using h, rfl⟩
        | succ count =>
            rw [dropBytes?] at h
            split at h
            next hle =>
              obtain ⟨front, rfl, hfront⟩ := ih h
              exact ⟨c :: front, rfl, by rw [byteLength, hfront, Nat.add_sub_cancel' hle]⟩
            · simp at h
  · rintro ⟨front, rfl, rfl⟩
    exact dropBytes?_append front rest

end Shading.Text
