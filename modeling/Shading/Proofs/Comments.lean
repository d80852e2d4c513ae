import Mathlib.Data.List.Infix
import Shading.Source.Basic
import Shading.Proofs.Substitution

/-!
# Comments have no part in the code

Block comments are taken out of the whole source in one pass, before it is cut into lines;
line comments are cut off line by line, after definitions are applied.  Both scans go from
left to right and carry little along: whether a block comment is open, and the position
relative to quotes.

* `dropBlocks_append`: the first scan, split where no comment is open.
* `dropBlocks_eq_self_iff`: the texts that it leaves alone.
* `trimRight_cutLineComment_append`: what the second scan sees of the end of a line.
* `Line.read_comment`: a line with a comment behind it reads as it does without.
* `comments_inert`: both kinds of comments may be put in anywhere.
-/

namespace Shading

namespace Source

/-! ## Block comments -/

/-- Whether a text, read in the code or inside a block comment, ends inside one. -/
def endsInComment : (inside : Bool) → (text : Text) → Bool
  | false, '/' :: '*' :: rest => endsInComment true rest
  | false, _ :: rest => endsInComment false rest
  | false, [] => false
  | true, '*' :: '/' :: rest => endsInComment false rest
  | true, _ :: rest => endsInComment true rest
  | true, [] => true

theorem endsInComment_of_unopened {text : Text} (h : ¬ ['/', '*'] <:+: text) :
    endsInComment false text = false := by
  induction text with
  | nil => rfl
  | cons c rest ih =>
      rw [List.infix_cons_iff, not_or] at h
      have hopen : ∀ more, c = '/' → rest = '*' :: more → False := by
        rintro more rfl rfl
        exact h.1 (by simp)
      rw [endsInComment]
      · exact ih h.2
      · exact hopen

/-- The scan for block comments may be split where none is open, unless the seam opens one. -/
theorem dropBlocks_append {comment : Option Text} {first second : Text}
    (h : endsInComment comment.isSome first = false)
    (hseam : ¬ (first.getLast? = some '/' ∧ second.head? = some '*')) :
    dropBlocks comment (first ++ second) =
      dropBlocks comment first ++ dropBlocks none second := by
  have hlater : ∀ {c : Char} {rest : Text},
      ¬ ((c :: rest).getLast? = some '/' ∧ second.head? = some '*') →
        ¬ (rest.getLast? = some '/' ∧ second.head? = some '*') := by
    intro c rest hcons hrest
    exact hcons ⟨by simp [List.getLast?_cons, hrest.1], hrest.2⟩
  fun_induction dropBlocks comment first with
  | case1 rest ih => exact ih h (hlater (hlater hseam))
  | case2 c rest hnot ih =>
      have hrest : endsInComment false rest = false := by
        rwa [Option.isSome_none, endsInComment] at h
        exact hnot
      rw [List.cons_append, dropBlocks, ih hrest (hlater hseam), List.cons_append]
      -- A comment that opens here opens in the first text or across the seam.
      rintro more rfl hmore
      cases rest with
      | nil => exact hseam ⟨rfl, by rw [← List.nil_append second, hmore, List.head?_cons]⟩
      | cons d others => exact hnot others rfl (by rw [(List.cons.inj hmore).1])
  | case3 => rfl
  | case4 held rest ih => exact ih h (hlater (hlater hseam))
  | case5 held c rest hnot ih =>
      have hrest : endsInComment true rest = false := by
        rwa [Option.isSome_some, endsInComment] at h
        exact hnot
      rw [List.cons_append, dropBlocks, ih hrest (hlater hseam)]
      rintro more rfl hmore
      cases rest with
      | nil => simp [endsInComment] at hrest
      | cons d others => exact hnot others rfl (by rw [(List.cons.inj hmore).1])
  | case6 held => simp [endsInComment] at h

/-- A comment that is open ends at the first `*/`, whatever stands before that. -/
theorem dropBlocks_comment {comment : Text} (h : ¬ ['*', '/'] <:+: comment) (held after : Text) :
    dropBlocks (some held) (comment ++ '*' :: '/' :: after) = dropBlocks none after := by
  induction comment generalizing held with
  | nil => rw [List.nil_append, dropBlocks]
  | cons c rest ih =>
      rw [List.infix_cons_iff, not_or] at h
      rw [List.cons_append, dropBlocks, ih h.2]
      rintro more rfl hmore
      cases rest with
      | nil => simp at hmore
      | cons d others => exact h.1 (by simp [(List.cons.inj hmore).1])

/-- A comment that is never closed stays. -/
theorem dropBlocks_unclosed {text : Text} (h : ¬ ['*', '/'] <:+: text) (held : Text) :
    dropBlocks (some held) text = held.reverse ++ text := by
  induction text generalizing held with
  | nil => rw [dropBlocks, List.append_nil]
  | cons c rest ih =>
      rw [List.infix_cons_iff, not_or] at h
      rw [dropBlocks, ih h.2, List.reverse_cons, List.append_assoc, List.singleton_append]
      rintro more rfl rfl
      exact h.1 (by simp)

/-- A text that holds a block comment, opened and closed. -/
def HoldsBlock (text : Text) : Prop :=
  ∃ front comment back, text = front ++ '/' :: '*' :: (comment ++ '*' :: '/' :: back)

theorem HoldsBlock.cons {text : Text} (h : HoldsBlock text) (c : Char) :
    HoldsBlock (c :: text) := by
  obtain ⟨front, comment, back, rfl⟩ := h
  exact ⟨c :: front, comment, back, rfl⟩

/-- A comment that opens at the very start of a text. -/
theorem holdsBlock_open_iff {rest : Text} :
    HoldsBlock ('/' :: '*' :: rest) ↔ ['*', '/'] <:+: rest := by
  constructor
  · rintro ⟨front, comment, back, htext⟩
    match front with
    | [] => exact ⟨comment, back, by simp_all⟩
    | [c] => simp at htext
    | c :: d :: others =>
        refine ⟨others ++ '/' :: '*' :: comment, back, ?_⟩
        have hrest : rest = others ++ '/' :: '*' :: (comment ++ '*' :: '/' :: back) := by
          simpa using (List.cons.inj (List.cons.inj htext).2).2
        rw [hrest]
        simp
  · rintro ⟨comment, back, rfl⟩
    exact ⟨[], comment, back, by simp⟩

/-- Elsewhere the first character has no part in it. -/
theorem holdsBlock_cons_iff {c : Char} {rest : Text} (h : ∀ more, c = '/' → rest ≠ '*' :: more) :
    HoldsBlock (c :: rest) ↔ HoldsBlock rest := by
  refine ⟨?_, fun hrest => hrest.cons c⟩
  rintro ⟨front, comment, back, htext⟩
  cases front with
  | nil =>
      obtain ⟨hc, hrest⟩ := List.cons.inj htext
      exact absurd hrest (h _ hc)
  | cons d others => exact ⟨others, comment, back, (List.cons.inj htext).2⟩

theorem dropBlocks_sublist (comment : Option Text) (text : Text) :
    (dropBlocks comment text).Sublist ((comment.getD []).reverse ++ text) := by
  fun_induction dropBlocks comment text with
  | case1 rest ih => simpa using ih
  | case2 c rest _ ih => simpa using ih
  | case3 => exact List.Sublist.refl _
  | case4 held rest ih =>
      have hrest : (dropBlocks none rest).Sublist rest := by simpa using ih
      exact ((hrest.cons '/').cons '*').trans (List.sublist_append_right ..)
  | case5 held c rest _ ih => simpa using ih
  | case6 held => simp

/-- A comment that is open and is closed is taken out. -/
theorem length_dropBlocks_lt {text : Text} (h : ['*', '/'] <:+: text) (held : Text) :
    (dropBlocks (some held) text).length < text.length := by
  obtain ⟨comment, back, rfl, hfirst⟩ : ∃ comment back,
      text = comment ++ '*' :: '/' :: back ∧ ¬ ['*', '/'] <:+: comment := by
    induction text with
    | nil => simp at h
    | cons c rest ih =>
        by_cases hhere : ['*', '/'] <+: c :: rest
        · obtain ⟨back, hback⟩ := hhere
          exact ⟨[], back, hback.symm, by simp⟩
        · obtain ⟨comment, back, rfl, hfirst⟩ := ih ((List.infix_cons_iff.mp h).resolve_left hhere)
          refine ⟨c :: comment, back, rfl, ?_⟩
          rw [List.infix_cons_iff, not_or]
          refine ⟨fun hslashes => hhere ?_, hfirst⟩
          exact hslashes.trans (List.prefix_append (c :: comment) _)
  have hle := (dropBlocks_sublist none back).length_le
  rw [dropBlocks_comment hfirst]
  simp only [Option.getD_none, List.reverse_nil, List.nil_append] at hle
  simp only [List.length_append, List.length_cons]
  omega

/-- Taking out the block comments leaves a text as it is exactly if it holds none. -/
theorem dropBlocks_eq_self_iff {text : Text} : dropBlocks none text = text ↔ ¬ HoldsBlock text := by
  induction text with
  | nil => simp [dropBlocks, HoldsBlock]
  | cons c rest ih =>
      by_cases hopen : ∃ more, c = '/' ∧ rest = '*' :: more
      · obtain ⟨more, rfl, rfl⟩ := hopen
        rw [holdsBlock_open_iff, dropBlocks]
        refine ⟨fun hsame hclosed => ?_, fun hunclosed => dropBlocks_unclosed hunclosed _⟩
        have hlt := length_dropBlocks_lt hclosed ['*', '/']
        rw [hsame] at hlt
        simp only [List.length_cons] at hlt
        omega
      · have hnot : ∀ more, c = '/' → rest ≠ '*' :: more :=
          fun more hc hrest => hopen ⟨more, hc, hrest⟩
        rw [holdsBlock_cons_iff hnot, ← ih, dropBlocks, List.cons_inj_right]
        exact hnot

/-! ## Lines -/

theorem rawLines_append {first : Text} (h : endsInComment false first = false) (second : Text) :
    rawLines (first ++ '\n' :: second) = rawLines first ++ rawLines second := by
  have hblocks : dropBlocks none (first ++ '\n' :: second) =
      dropBlocks none first ++ '\n' :: dropBlocks none second := by
    rw [dropBlocks_append (by simpa using h) (by simp)]
    rfl
  rw [rawLines, dropBlockComments, hblocks,
    Text.replaceAll_append_cons (by simp) (by simp), List.splitOn_append_cons_self]
  rfl

/-- A text in which nothing opens a block comment and no exclamation mark is doubled. -/
structure Unmarked (text : Text) : Prop where
  comment : ¬ ['/', '*'] <:+: text
  doubled : ¬ ['!', '!'] <:+: text

theorem rawLines_of_intact {text : Text} (hblock : ¬ HoldsBlock text)
    (hdoubled : ¬ ['!', '!'] <:+: text) : rawLines text = text.splitOn '\n' := by
  rw [rawLines, dropBlockComments, dropBlocks_eq_self_iff.mpr hblock,
    Text.replaceAll_of_not_infix hdoubled]

theorem Unmarked.rawLines_eq {text : Text} (h : Unmarked text) :
    rawLines text = text.splitOn '\n' := by
  refine rawLines_of_intact ?_ h.doubled
  rintro ⟨front, comment, back, rfl⟩
  exact h.comment ⟨front, comment ++ '*' :: '/' :: back, by simp⟩

/-! ## Line comments -/

/-- A line, read from a position relative to quotes, that holds a `//` outside quotes. -/
def HoldsLineComment (quote : Quote) (line : Text) : Prop :=
  ∃ front back, line = front ++ '/' :: '/' :: back ∧ quote.after front = .outside

theorem holdsLineComment_cons_iff {quote : Quote} {c : Char} {rest : Text} :
    HoldsLineComment quote (c :: rest) ↔
      (quote = .outside ∧ c = '/' ∧ rest.head? = some '/') ∨
        HoldsLineComment (quote.next c) rest := by
  constructor
  · rintro ⟨front, back, hline, hquote⟩
    cases front with
    | nil =>
        obtain ⟨rfl, rfl⟩ := List.cons.inj hline
        exact Or.inl ⟨hquote, rfl, rfl⟩
    | cons d others =>
        obtain ⟨rfl, rfl⟩ := List.cons.inj hline
        exact Or.inr ⟨others, back, rfl, hquote⟩
  · rintro (⟨hquote, rfl, hhead⟩ | ⟨front, back, rfl, hquote⟩)
    · obtain ⟨back, rfl⟩ := List.head?_eq_some_iff.mp hhead
      exact ⟨[], back, rfl, hquote⟩
    · exact ⟨c :: front, back, rfl, hquote⟩

theorem cutLineComment_cons_of_comment {quote : Quote} {c : Char} {rest : Text}
    (h : quote = .outside ∧ c = '/' ∧ rest.head? = some '/') :
    cutLineComment quote (c :: rest) = [] := by
  obtain ⟨rfl, rfl, hhead⟩ := h
  simp [cutLineComment, hhead]

theorem cutLineComment_cons {quote : Quote} {c : Char} {rest : Text}
    (h : ¬ (quote = .outside ∧ c = '/' ∧ rest.head? = some '/')) :
    cutLineComment quote (c :: rest) = c :: cutLineComment (quote.next c) rest := by
  rw [cutLineComment, if_neg]
  simpa [and_assoc] using h

theorem cutLineComment_prefix (quote : Quote) (line : Text) :
    cutLineComment quote line <+: line := by
  induction line generalizing quote with
  | nil => exact List.prefix_refl []
  | cons c rest ih =>
      by_cases h : quote = .outside ∧ c = '/' ∧ rest.head? = some '/'
      · rw [cutLineComment_cons_of_comment h]
        exact List.nil_prefix
      · rw [cutLineComment_cons h, List.prefix_cons_inj]
        exact ih (quote.next c)

theorem cutLineComment_of_not_holds {quote : Quote} {line : Text}
    (h : ¬ HoldsLineComment quote line) : cutLineComment quote line = line := by
  induction line generalizing quote with
  | nil => rfl
  | cons c rest ih =>
      rw [holdsLineComment_cons_iff, not_or] at h
      rw [cutLineComment_cons h.1, ih h.2]

/-- What is left of a line holds no comment. -/
theorem not_holdsLineComment_cut (quote : Quote) (line : Text) :
    ¬ HoldsLineComment quote (cutLineComment quote line) := by
  induction line generalizing quote with
  | nil => simp [cutLineComment, HoldsLineComment]
  | cons c rest ih =>
      by_cases h : quote = .outside ∧ c = '/' ∧ rest.head? = some '/'
      · simp [cutLineComment_cons_of_comment h, HoldsLineComment]
      · rw [cutLineComment_cons h, holdsLineComment_cons_iff, not_or]
        refine ⟨?_, ih (quote.next c)⟩
        rintro ⟨hquote, hc, hhead⟩
        -- The character that follows is the one that followed before the cut.
        have hsame : rest.head? = some '/' := by
          obtain ⟨back, hback⟩ := cutLineComment_prefix (quote.next c) rest
          rw [← hback, List.head?_append, hhead]
          rfl
        exact h ⟨hquote, hc, hsame⟩

/-- What stands behind a line can be left off before its comment is cut off, if it is cut off with
it but for blanks. -/
theorem trimRight_cutLineComment_append {quote : Quote} {line tail : Text}
    (hhead : tail.head? ≠ some '/')
    (htail : Text.trimRight (cutLineComment (quote.after line) tail) = []) :
    Text.trimRight (cutLineComment quote (line ++ tail)) =
      Text.trimRight (cutLineComment quote line) := by
  induction line generalizing quote with
  | nil => exact htail
  | cons c rest ih =>
      have hiff : (rest ++ tail).head? = some '/' ↔ rest.head? = some '/' := by
        cases rest with
        | nil => simpa using hhead
        | cons d others => rfl
      rw [List.cons_append]
      by_cases h : quote = .outside ∧ c = '/' ∧ rest.head? = some '/'
      · have h' : quote = .outside ∧ c = '/' ∧ (rest ++ tail).head? = some '/' :=
          ⟨h.1, h.2.1, hiff.mpr h.2.2⟩
        rw [cutLineComment_cons_of_comment h, cutLineComment_cons_of_comment h']
      · have h' : ¬ (quote = .outside ∧ c = '/' ∧ (rest ++ tail).head? = some '/') :=
          fun hall => h ⟨hall.1, hall.2.1, hiff.mp hall.2.2⟩
        rw [cutLineComment_cons h, cutLineComment_cons h', Text.trimRight_cons,
          ih htail, ← Text.trimRight_cons]

/-- A comment behind a line is cut off. -/
theorem trimRight_cutLineComment_comment {quote : Quote} {line : Text}
    (h : quote.after line = .outside) (comment : Text) :
    Text.trimRight (cutLineComment quote (line ++ ' ' :: '/' :: '/' :: comment)) =
      Text.trimRight (cutLineComment quote line) := by
  refine trimRight_cutLineComment_append (by simp) ?_
  rw [h]
  rfl

end Source

/-! ## Blanks around a line -/

theorem Quote.isMark_of_isBlank {c : Char} (h : Text.isBlank c = true) : isMark c = false := by
  cases hmark : isMark c with
  | false => rfl
  | true =>
      simp only [isMark, Bool.or_eq_true, beq_iff_eq] at hmark
      revert h
      rcases hmark with rfl | rfl <;> decide

theorem Quote.after_of_blank {lead : Text} (h : ∀ c ∈ lead, Text.isBlank c = true)
    (quote : Quote) : quote.after lead = quote := by
  induction lead with
  | nil => rfl
  | cons c rest ih =>
      rw [after_cons, next_of_not_isMark (isMark_of_isBlank (h c (List.mem_cons_self ..)))]
      exact ih fun d hd => h d (List.mem_cons_of_mem _ hd)

namespace Source

theorem ne_slash_of_isBlank {c : Char} (h : Text.isBlank c = true) : c ≠ '/' := by
  rintro rfl
  revert h
  decide

theorem cutLineComment_append_of_blank {lead : Text} (h : ∀ c ∈ lead, Text.isBlank c = true)
    (quote : Quote) (line : Text) :
    cutLineComment quote (lead ++ line) = lead ++ cutLineComment quote line := by
  induction lead with
  | nil => rfl
  | cons c rest ih =>
      have hc := h c (List.mem_cons_self ..)
      rw [List.cons_append, cutLineComment_cons fun hall => ne_slash_of_isBlank hc hall.2.1,
        Quote.next_of_not_isMark (Quote.isMark_of_isBlank hc),
        ih fun d hd => h d (List.mem_cons_of_mem _ hd), List.cons_append]

/-- Blanks behind a line make no difference. -/
theorem trimRight_cutLineComment_trimRight (quote : Quote) (line : Text) :
    Text.trimRight (cutLineComment quote (Text.trimRight line)) =
      Text.trimRight (cutLineComment quote line) := by
  obtain ⟨trail, hline, hblank⟩ := Text.exists_trimRight line
  have hcut : cutLineComment (quote.after (Text.trimRight line)) trail = trail := by
    simpa [cutLineComment] using
      cutLineComment_append_of_blank hblank (quote.after (Text.trimRight line)) []
  have htail : trail.head? ≠ some '/' :=
    fun hhead => ne_slash_of_isBlank (hblank _ (List.mem_of_mem_head? hhead)) rfl
  have hnone : Text.trimRight (cutLineComment (quote.after (Text.trimRight line)) trail) = [] := by
    rw [hcut]
    exact Text.trimRight_append_of_blank hblank []
  calc Text.trimRight (cutLineComment quote (Text.trimRight line))
      = Text.trimRight (cutLineComment quote (Text.trimRight line ++ trail)) :=
        (trimRight_cutLineComment_append htail hnone).symm
    _ = Text.trimRight (cutLineComment quote line) := by rw [← hline]

/-- A directive may be trimmed before its comment is cut off. -/
theorem trim_cutLineComment_trim (body : Text) :
    Text.trim (cutLineComment .outside (Text.trim body)) =
      Text.trim (cutLineComment .outside body) := by
  obtain ⟨lead, hbody, hlead⟩ := Text.exists_trimLeft body
  have hright := trimRight_cutLineComment_trimRight .outside (Text.trimLeft body)
  calc Text.trim (cutLineComment .outside (Text.trim body))
      = Text.trim (Text.trimRight (cutLineComment .outside (Text.trim body))) :=
        (Text.trim_trimRight _).symm
    _ = Text.trim (cutLineComment .outside (Text.trimLeft body)) := by
        rw [show Text.trim body = Text.trimRight (Text.trimLeft body) from rfl, hright,
          Text.trim_trimRight]
    _ = Text.trim (lead ++ cutLineComment .outside (Text.trimLeft body)) :=
        (Text.trim_append_left hlead _).symm
    _ = Text.trim (cutLineComment .outside body) := by
        rw [← cutLineComment_append_of_blank hlead, ← hbody]

end Source

/-! ## Lines with a comment behind them -/

namespace Line

/-- The code of a line. -/
def code? : Line → Option Text
  | .code text => some text
  | _ => none

/-- Whether a line is a definition, complete or not. -/
def isDefine : Line → Bool
  | .definition _ => true
  | .malformed _ => true
  | _ => false

theorem ofTrimmed_of_ordinary {line : Text} (hne : line ≠ [])
    (hdirective : line.head? ≠ some '#') (hcomment : ¬ ['/', '/'] <+: line) :
    ofTrimmed line = .code (Text.trimRight (Source.cutLineComment .outside line)) := by
  unfold ofTrimmed
  split
  next => exact absurd rfl hne
  next => exact absurd (by simp) hcomment
  next => simp at hdirective
  next => rfl

theorem code?_ofDirective (line body : Text) : (ofDirective line body).code? = none := by
  unfold ofDirective
  dsimp only
  split
  · split <;> rfl
  · rfl

/-- Whether a directive is a definition depends on nothing but its text without the comment. -/
theorem isDefine_ofDirective (line body : Text) :
    (ofDirective line body).isDefine =
      decide (Text.firstWord (Text.trim (Source.cutLineComment .outside body)) =
        "define".toList) := by
  unfold ofDirective
  rw [Source.trim_cutLineComment_trim]
  dsimp only
  split
  next hdefine =>
    rw [decide_eq_true hdefine]
    split <;> rfl
  next hother =>
    rw [decide_eq_false hother]
    rfl

/-- The lines of a source without definitions are read on their own. -/
theorem codes_readAll_of_not_isDefine {raws : List Text}
    (h : ∀ raw ∈ raws, (read [] raw).isDefine = false) :
    codes (readAll [] raws) = .ok (raws.filterMap fun raw => (read [] raw).code?) := by
  induction raws with
  | nil => rfl
  | cons raw rest ih =>
      have hrest := ih fun other hother => h other (List.mem_cons_of_mem _ hother)
      have hraw := h raw (List.mem_cons_self ..)
      rw [readAll]
      cases hread : read [] raw with
      | definition s => simp [hread, isDefine] at hraw
      | malformed fault => simp [hread, isDefine] at hraw
      | blank => simpa [hread, code?, codes] using hrest
      | ignored line => simpa [hread, code?, codes] using hrest
      | code text => simp [hread, code?, codes, hrest, Except.map]

/-- A line that starts with a character of its own, with a comment behind it. -/
theorem ofTrimmed_comment {c : Char} {rest : Text} (hc : Text.isBlank c = false)
    (hquotes : Quote.outside.after (c :: rest) = .outside) (comment : Text) :
    let commented := ofTrimmed (c :: rest ++ ' ' :: '/' :: '/' :: comment)
    let plain := ofTrimmed (Text.trimRight (c :: rest))
    commented.code? = plain.code? ∧ commented.isDefine = plain.isDefine := by
  have htrim : Text.trimRight (c :: rest) = c :: Text.trimRight rest :=
    Text.trimRight_append_cons hc [] rest
  intro commented plain
  by_cases hdirective : c = '#'
  · subst hdirective
    have hrest : Quote.outside.after rest = .outside := hquotes
    have hcommented : commented =
        ofDirective ('#' :: rest ++ ' ' :: '/' :: '/' :: comment)
          (rest ++ ' ' :: '/' :: '/' :: comment) := rfl
    have hplain : plain = ofDirective ('#' :: Text.trimRight rest) (Text.trimRight rest) := by
      rw [show plain = ofTrimmed (Text.trimRight ('#' :: rest)) from rfl, htrim]
      rfl
    rw [hcommented, hplain, code?_ofDirective, code?_ofDirective, isDefine_ofDirective,
      isDefine_ofDirective]
    refine ⟨rfl, ?_⟩
    rw [← Text.trim_trimRight (Source.cutLineComment _ (rest ++ _)),
      Source.trimRight_cutLineComment_comment hrest,
      ← Source.trimRight_cutLineComment_trimRight, Text.trim_trimRight]
  by_cases hcomment : ['/', '/'] <+: c :: rest
  · obtain ⟨others, hothers⟩ := hcomment
    obtain ⟨rfl, rfl⟩ : '/' = c ∧ '/' :: others = rest := by simpa using hothers
    have hplain : plain = .blank := by
      have hslash : Text.isBlank '/' = false := by decide
      rw [show plain = ofTrimmed (Text.trimRight ('/' :: '/' :: others)) from rfl, htrim,
        show Text.trimRight ('/' :: others) = '/' :: Text.trimRight others from
          Text.trimRight_append_cons hslash [] others]
      rfl
    rw [hplain]
    exact ⟨rfl, rfl⟩
  -- What is left is code, with the comment and without.
  · have hcommented : commented =
        .code (Text.trimRight (Source.cutLineComment .outside (c :: rest))) := by
      rw [← Source.trimRight_cutLineComment_comment hquotes comment]
      refine ofTrimmed_of_ordinary (by simp) (by simpa using hdirective) ?_
      intro hslashes
      cases rest with
      | nil => simp at hslashes
      | cons d others => exact hcomment (by simpa using hslashes)
    have hplain : plain =
        .code (Text.trimRight (Source.cutLineComment .outside (c :: rest))) := by
      rw [← Source.trimRight_cutLineComment_trimRight]
      have hhead : (Text.trimRight (c :: rest)).head? = some c := by rw [htrim, List.head?_cons]
      refine ofTrimmed_of_ordinary (by simp [htrim]) (by simpa [hhead] using hdirective) ?_
      exact fun hslashes => hcomment (hslashes.trans (Text.trimRight_prefix _))
    rw [hcommented, hplain]
    exact ⟨rfl, rfl⟩

/-- A line whose quotes are closed reads the same with a comment behind it, as far as code and
definitions are concerned; `ending` is what may stand between a line and its break. -/
theorem read_comment {line ending : Text} (hquotes : Quote.outside.after line = .outside)
    (hending : ∀ c ∈ ending, Text.isBlank c = true) (comment : Text) :
    let commented := read [] (line ++ ' ' :: '/' :: '/' :: comment ++ ending)
    let plain := read [] (line ++ ending)
    commented.code? = plain.code? ∧ commented.isDefine = plain.isDefine := by
  obtain ⟨lead, hline, hlead⟩ := Text.exists_trimLeft line
  have hslash : Text.isBlank '/' = false := by decide
  have hcommented : Text.trim (line ++ ' ' :: '/' :: '/' :: comment ++ ending) =
      Text.trim (Text.trimLeft line ++ ' ' :: '/' :: '/' :: comment) := by
    calc Text.trim (line ++ ' ' :: '/' :: '/' :: comment ++ ending)
        = Text.trim (line ++ ' ' :: '/' :: '/' :: comment) := Text.trim_append_right hending _
      _ = Text.trim (lead ++ (Text.trimLeft line ++ ' ' :: '/' :: '/' :: comment)) := by
          rw [← List.append_assoc, ← hline]
      _ = Text.trim (Text.trimLeft line ++ ' ' :: '/' :: '/' :: comment) :=
          Text.trim_append_left hlead _
  have hplain : Text.trim (line ++ ending) = Text.trimRight (Text.trimLeft line) :=
    Text.trim_append_right hending line
  simp only [read, Substitution.applyAll, List.foldl_nil]
  rw [hcommented, hplain]
  -- Behind a blank line the comment starts the line, which is then skipped as a whole.
  cases hstart : Text.trimLeft line with
  | nil =>
      have hblank : Text.trim ([] ++ ' ' :: '/' :: '/' :: comment) =
          '/' :: '/' :: Text.trimRight comment := by
        rw [List.nil_append, Text.trim_space_cons]
        exact Text.trimRight_append_cons hslash ['/'] comment
      rw [hblank]
      exact ⟨rfl, rfl⟩
  | cons c rest =>
      have hc : Text.isBlank c = false := by
        have hnot := List.head?_dropWhile_not Text.isBlank line
        rw [← Text.trimLeft, hstart] at hnot
        exact hnot
      have hclosed : Quote.outside.after (c :: rest) = .outside := by
        rw [hline, hstart, Quote.after_append, Quote.after_of_blank hlead] at hquotes
        exact hquotes
      have htrim : Text.trim (c :: rest ++ ' ' :: '/' :: '/' :: comment) =
          c :: rest ++ ' ' :: '/' :: '/' :: Text.trimRight comment := by
        have hright := Text.trimRight_append_cons hslash (c :: rest ++ [' ', '/']) comment
        rw [Text.trim, List.cons_append, Text.trimLeft, List.dropWhile_cons_of_neg (by simp [hc])]
        simpa using hright
      rw [htrim]
      exact ofTrimmed_comment hc hclosed _

end Line

/-! ## Sources with comments -/

namespace Source

/-- Comments have no part in the code of a source.  A block comment may be put in where no other
is open, unless what stands around it would open one; and without definitions, a line
comment may be put behind any line whose quotes are closed. -/
theorem comments_inert :
    (∀ before comment after : Text, endsInComment false before = false →
      ¬ ['*', '/'] <:+: comment →
      ¬ (before.getLast? = some '/' ∧ after.head? = some '*') →
        code (before ++ "/*".toList ++ comment ++ "*/".toList ++ after) = code (before ++ after)) ∧
    ∀ (source line ending comment : Text) (earlier later : List Text),
      source.splitOn '\n' = earlier ++ (line ++ ending) :: later →
      (ending = [] ∨ ending = ['\r']) →
      (∀ raw ∈ rawLines source, (Line.read [] raw).isDefine = false) →
      Quote.outside.after line = .outside → '\n' ∉ comment →
      let commented :=
        ['\n'].intercalate (earlier ++ (line ++ " //".toList ++ comment ++ ending) :: later)
      Unmarked source → Unmarked commented → code commented = code source := by
  constructor
  · intro before comment after hclosed hcomment hseam
    have hdrop : dropBlocks none (before ++ "/*".toList ++ comment ++ "*/".toList ++ after) =
        dropBlocks none (before ++ after) := by
      calc dropBlocks none (before ++ "/*".toList ++ comment ++ "*/".toList ++ after)
          = dropBlocks none (before ++ '/' :: '*' :: (comment ++ '*' :: '/' :: after)) := by simp
        _ = dropBlocks none before ++
              dropBlocks none ('/' :: '*' :: (comment ++ '*' :: '/' :: after)) :=
            dropBlocks_append (by simpa using hclosed) (by simp)
        _ = dropBlocks none before ++ dropBlocks none after := by
            rw [dropBlocks, dropBlocks_comment hcomment]
        _ = dropBlocks none (before ++ after) :=
            (dropBlocks_append (by simpa using hclosed) hseam).symm
    simp only [code, lines, rawLines, dropBlockComments, hdrop]
  · -- Without definitions every line is read on its own, so only the commented one is compared.
    intro source line ending comment earlier later hlines hending hdefines hquotes hcomment
      commented hsource hcommented
    have hblank : ∀ c ∈ ending, Text.isBlank c = true := by
      rcases hending with rfl | rfl <;> decide
    have hfree : ∀ raw ∈ source.splitOn '\n', '\n' ∉ raw := fun raw => Text.not_mem_of_mem_splitOn
    rw [hsource.rawLines_eq, hlines] at hdefines
    rw [hlines] at hfree
    have hlines' : commented.splitOn '\n' =
        earlier ++ (line ++ ' ' :: '/' :: '/' :: comment ++ ending) :: later := by
      have htext : line ++ " //".toList ++ comment ++ ending =
          line ++ ' ' :: '/' :: '/' :: comment ++ ending := by simp
      simp only [commented, htext]
      refine List.splitOn_intercalate '\n' ?_ (by simp)
      intro raw hraw
      simp only [List.mem_append, List.mem_cons] at hraw
      rcases hraw with hraw | rfl | hraw
      · exact hfree raw (by simp [hraw])
      · have hold : '\n' ∉ line ++ ending := hfree _ (by simp)
        rw [List.mem_append, not_or] at hold
        simp [hold, hcomment]
      · exact hfree raw (by simp [hraw])
    obtain ⟨hcode, hdefine⟩ := Line.read_comment hquotes hblank comment
    have hdefines' : ∀ raw ∈ earlier ++ (line ++ ' ' :: '/' :: '/' :: comment ++ ending) :: later,
        (Line.read [] raw).isDefine = false := by
      intro raw hraw
      simp only [List.mem_append, List.mem_cons] at hraw
      rcases hraw with hraw | rfl | hraw
      · exact hdefines raw (by simp [hraw])
      · exact hdefine.trans (hdefines _ (by simp))
      · exact hdefines raw (by simp [hraw])
    unfold code lines
    rw [hsource.rawLines_eq, hcommented.rawLines_eq, hlines, hlines',
      Line.codes_readAll_of_not_isDefine hdefines, Line.codes_readAll_of_not_isDefine hdefines']
    simp only [List.filterMap_append, List.filterMap_cons, hcode]

/-- A block comment after a slash, with a definition, a quote and other marks in it, and a line
comment with a quote in it behind a line that ends with a carriage return. -/
theorem comments_inert_quotes :
    let before : Text := "#define N 3\nint a = 6 /".toList
    let comment : Text := " it's\n#define N 4 /* // ".toList
    let after : Text := " N;".toList
    let source : Text := "s = \"a//b\";\r\n#version 3\nint c;".toList
    let commented : Text := "s = \"a//b\"; //don't\r\n#version 3\nint c;".toList
    endsInComment false before = false ∧
    code (before ++ "/*".toList ++ comment ++ "*/".toList ++ after) = code (before ++ after) ∧
    code (before ++ after) = .ok "int a = 6 / 3;".toList ∧
    source.splitOn '\n' =
      [] ++ ("s = \"a//b\";".toList ++ ['\r']) :: ["#version 3".toList, "int c;".toList] ∧
    Unmarked source ∧ Unmarked commented ∧ code commented = code source ∧
    code source = .ok "s = \"a//b\";\nint c;".toList := by
  intro before comment after source commented
  have hclosed : endsInComment false before = false := by decide +kernel
  have hlines : source.splitOn '\n' =
      [] ++ ("s = \"a//b\";".toList ++ ['\r']) :: ["#version 3".toList, "int c;".toList] := by
    decide +kernel
  have hdefines : ∀ raw ∈ rawLines source, (Line.read [] raw).isDefine = false := by
    decide +kernel
  have hsource : Unmarked source := ⟨by decide +kernel, by decide +kernel⟩
  have hcommented : Unmarked commented := ⟨by decide +kernel, by decide +kernel⟩
  have hjoined : ['\n'].intercalate ([] ++
      ("s = \"a//b\";".toList ++ " //".toList ++ "don't".toList ++ ['\r']) ::
        ["#version 3".toList, "int c;".toList]) = commented := by
    decide +kernel
  obtain ⟨hblock, hline⟩ := comments_inert
  have hsame := hline source _ _ "don't".toList _ _ hlines (Or.inr rfl) hdefines
    (by decide +kernel) (by decide +kernel) hsource
  rw [hjoined] at hsame
  exact ⟨hclosed, hblock before comment after hclosed (by decide +kernel) (by decide +kernel),
    by decide +kernel, hlines, hsource, hcommented, hsame hcommented, by decide +kernel⟩

end Source

end Shading
