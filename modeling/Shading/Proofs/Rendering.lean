import Shading.Proofs.Place

/-!
# Pieces and the texts that write them out

Pieces are written out by writing every fragment as it is and every group between
brackets, with any blanks before, between and after them.  `Brackets.Renders` is that
relation; a sequence of pieces has many such texts, and all of them are cut alike.

* `renders_of_cut`: a text that is cut writes its pieces out, once the groups that it
  leaves open are closed; and the pieces are `Neat`.
* `cut_of_renders`: every text that writes out neat pieces is cut into them, if their
  fragments have no bracket outside quotes and no quote that stays open.

The first follows a reading character by character: `Level.Holds` says which text a level
has read, and `Spells` says it for all levels of a reading.  The second goes by the pieces
and uses that texts in order only change the level they are read on (`ReadsAs`).
-/

namespace Shading

/-! ## Neat pieces -/

/-- Pieces as cutting gives them, in every sequence at every depth: a fragment is not empty and
has no blank at either end, and no two fragments stand next to each other. -/
inductive Piece.Neat : List Piece → Prop
  | nil : Neat []
  | text {fragment : Text} {rest : List Piece} (hne : fragment ≠ [])
      (htight : Text.Tight fragment) (hnext : ∀ other, rest.head? ≠ some (.text other))
      (hrest : Neat rest) : Neat (.text fragment :: rest)
  | group {inner rest : List Piece} (hinner : Neat inner) (hrest : Neat rest) :
      Neat (.group inner :: rest)

/-- Neat pieces after neat pieces that end with a group. -/
theorem Piece.Neat.append {first second : List Piece} (h : Neat first)
    (hlast : ∀ fragment, first.getLast? ≠ some (.text fragment)) (hsecond : Neat second) :
    Neat (first ++ second) := by
  induction h with
  | nil => exact hsecond
  | @text fragment rest hne htight hnext hrest ih =>
      cases rest with
      | nil => exact absurd rfl (hlast fragment)
      | cons piece more => exact .text hne htight hnext (ih (by simpa using hlast))
  | @group inner rest hinner hrest _ ih =>
      cases rest with
      | nil => exact .group hinner hsecond
      | cons piece more => exact .group hinner (ih (by simpa using hlast))

namespace Brackets

/-! ## Written-out pieces -/

/-- A text between brackets. -/
def around (brackets : Brackets) (text : Text) : Text :=
  brackets.opening :: (text ++ [brackets.closing])

/-- The texts that write out a sequence of pieces. -/
inductive Renders (brackets : Brackets) : List Piece → Text → Prop
  | nil {blanks : Text} (hblanks : ∀ c ∈ blanks, Text.isBlank c = true) :
      Renders brackets [] blanks
  | text {blanks fragment more : Text} {rest : List Piece}
      (hblanks : ∀ c ∈ blanks, Text.isBlank c = true) (hrest : Renders brackets rest more) :
      Renders brackets (.text fragment :: rest) (blanks ++ (fragment ++ more))
  | group {blanks body more : Text} {inner rest : List Piece}
      (hblanks : ∀ c ∈ blanks, Text.isBlank c = true) (hinner : Renders brackets inner body)
      (hrest : Renders brackets rest more) :
      Renders brackets (.group inner :: rest) (blanks ++ (brackets.around body ++ more))

variable {brackets : Brackets} {limit : Nat} {text : Text} {pieces : List Piece}

theorem Renders.blank_append (h : brackets.Renders pieces text) {blanks : Text}
    (hblanks : ∀ c ∈ blanks, Text.isBlank c = true) :
    brackets.Renders pieces (blanks ++ text) := by
  have hboth : ∀ {more : Text}, (∀ c ∈ more, Text.isBlank c = true) →
      ∀ c ∈ blanks ++ more, Text.isBlank c = true := by
    intro more hmore c hc
    rcases List.mem_append.mp hc with hc | hc
    · exact hblanks c hc
    · exact hmore c hc
  cases h with
  | nil hmore => exact .nil (hboth hmore)
  | text hmore hrest =>
      rw [← List.append_assoc]
      exact .text (hboth hmore) hrest
  | group hmore hinner hrest =>
      rw [← List.append_assoc]
      exact .group (hboth hmore) hinner hrest

theorem Renders.append (h : brackets.Renders pieces text) {others : List Piece} {other : Text}
    (hother : brackets.Renders others other) :
    brackets.Renders (pieces ++ others) (text ++ other) := by
  induction h with
  | nil hblanks => exact hother.blank_append hblanks
  | text hblanks _ ih =>
      rw [List.append_assoc, List.append_assoc]
      exact .text hblanks ih
  | group hblanks hinner _ _ ih =>
      rw [List.append_assoc, List.append_assoc]
      exact .group hblanks hinner ih

/-- A fragment is trimmed, and dropped if nothing is left of it. -/
theorem renders_ofText (text : Text) : brackets.Renders (Piece.ofText text) text := by
  obtain ⟨lead, trail, htext, hlead, htrail⟩ := Text.exists_trim text
  rw [Piece.ofText]
  cases hfragment : Text.fragment? text with
  | none =>
      rw [Text.fragment?_eq_none_iff.mp hfragment, List.nil_append] at htext
      rw [htext]
      exact (Renders.nil htrail).blank_append hlead
  | some fragment =>
      rw [(Text.fragment?_eq_some_iff.mp hfragment).1] at htext
      rw [htext]
      exact .text hlead (.nil htrail)

theorem neat_ofText_append (text : Text) {rest : List Piece} (h : Piece.Neat rest)
    (hnext : ∀ other, rest.head? ≠ some (.text other)) :
    Piece.Neat (Piece.ofText text ++ rest) := by
  rw [Piece.ofText]
  cases hfragment : Text.fragment? text with
  | none => exact h
  | some fragment =>
      obtain ⟨rfl, hne⟩ := Text.fragment?_eq_some_iff.mp hfragment
      exact .text hne (Text.tight_trim text) hnext h

/-! ## What a reading has read -/

/-- The text that a level has read.  The first part of it writes out the pieces completed so far,
which are neat and of which the last is a group; the rest is the fragment being read. -/
structure Level.Holds (brackets : Brackets) (level : Level) (text : Text) : Prop where
  neat : Piece.Neat level.done.reverse
  last : ∀ fragment, level.done.head? ≠ some (.text fragment)
  renders : ∃ settled, brackets.Renders level.done.reverse settled ∧
    text = settled ++ level.pending.reverse

namespace Level.Holds

variable {level : Level}

theorem empty : Holds brackets {} [] :=
  ⟨.nil, by simp, [], .nil (by simp), rfl⟩

theorem append_neat (h : level.Holds brackets text) {rest : List Piece}
    (hrest : Piece.Neat rest) (hnext : ∀ other, rest.head? ≠ some (.text other)) :
    Piece.Neat (level.pieces ++ rest) := by
  rw [level.pieces_eq, List.append_assoc]
  refine h.neat.append ?_ (neat_ofText_append _ hrest hnext)
  simpa using h.last

theorem renders_pieces (h : level.Holds brackets text) : brackets.Renders level.pieces text := by
  obtain ⟨settled, hsettled, htext⟩ := h.renders
  rw [level.pieces_eq, htext]
  exact hsettled.append (renders_ofText _)

theorem neat_pieces (h : level.Holds brackets text) : Piece.Neat level.pieces := by
  simpa using h.append_neat .nil (by simp)

theorem push (h : level.Holds brackets text) (c : Char) :
    (level.push c).Holds brackets (text ++ [c]) := by
  obtain ⟨settled, hsettled, htext⟩ := h.renders
  refine ⟨h.neat, h.last, settled, hsettled, ?_⟩
  simp [htext, Level.push]

theorem pushGroup (h : level.Holds brackets text) {inner : List Piece} {body : Text}
    (hneat : Piece.Neat inner) (hbody : brackets.Renders inner body) :
    (level.pushGroup inner).Holds brackets (text ++ brackets.around body) where
  neat := by
    rw [Level.done_pushGroup]
    exact h.append_neat (.group hneat .nil) (by simp)
  last := by simp [Level.pushGroup]
  renders := by
    have hblank : ∀ c ∈ ([] : Text), Text.isBlank c = true := by simp
    have hgroup : brackets.Renders [.group inner] ([] ++ (brackets.around body ++ [])) :=
      .group hblank hbody (.nil hblank)
    rw [List.nil_append, List.append_nil] at hgroup
    refine ⟨text ++ brackets.around body, ?_, by simp⟩
    rw [Level.done_pushGroup]
    exact h.renders_pieces.append hgroup

end Level.Holds

/-- The text that a level and the levels around it have read. -/
def Spells (brackets : Brackets) : (level : Level) → (enclosing : List Level) → (text : Text) → Prop
  | level, [], text => level.Holds brackets text
  | level, outer :: rest, text =>
      ∃ before inner, text = before ++ brackets.opening :: inner ∧
        level.Holds brackets inner ∧ brackets.Spells outer rest before

namespace Spells

variable {level : Level} {enclosing : List Level}

/-- What is read next is read on the innermost level. -/
theorem extend (h : brackets.Spells level enclosing text) {other : Level} {more : Text}
    (hmore : ∀ part, level.Holds brackets part → other.Holds brackets (part ++ more)) :
    brackets.Spells other enclosing (text ++ more) := by
  cases enclosing with
  | nil => exact hmore text h
  | cons outer rest =>
      obtain ⟨before, inner, htext, hlevel, houter⟩ := h
      refine ⟨before, inner ++ more, ?_, hmore inner hlevel, houter⟩
      rw [htext, List.append_assoc, List.cons_append]

theorem openGroup (h : brackets.Spells level enclosing text) :
    brackets.Spells {} (level :: enclosing) (text ++ [brackets.opening]) :=
  ⟨text, [], rfl, .empty, h⟩

theorem closeGroup {outer : Level} (h : brackets.Spells level (outer :: enclosing) text) :
    brackets.Spells (outer.pushGroup level.pieces) enclosing (text ++ [brackets.closing]) := by
  obtain ⟨before, inner, htext, hlevel, houter⟩ := h
  have hgroup : text ++ [brackets.closing] = before ++ brackets.around inner := by
    simp [htext, around]
  rw [hgroup]
  exact houter.extend fun part hpart => hpart.pushGroup hlevel.neat_pieces hlevel.renders_pieces

/-- Closing the groups that are open writes out all pieces. -/
theorem finish (h : brackets.Spells level enclosing text) :
    Piece.Neat (Reading.finish level enclosing) ∧
      brackets.Renders (Reading.finish level enclosing)
        (text ++ List.replicate enclosing.length brackets.closing) := by
  induction enclosing generalizing level text with
  | nil =>
      rw [Reading.finish, List.length_nil, List.replicate_zero, List.append_nil]
      exact ⟨h.neat_pieces, h.renders_pieces⟩
  | cons outer rest ih =>
      have hrest := ih h.closeGroup
      rw [List.append_assoc, List.singleton_append, ← List.replicate_succ] at hrest
      exact hrest

theorem step {reading next : Reading} {c : Char}
    (h : brackets.Spells reading.level reading.enclosing text)
    (hstep : brackets.step? limit reading c = some next) :
    brackets.Spells next.level next.enclosing (text ++ [c]) := by
  rcases step?_cases hstep with ⟨hopens, rfl⟩ | ⟨-, hcloses, outer, rest, henclosing, rfl⟩ |
    ⟨-, -, rfl⟩
  · obtain rfl : c = brackets.opening := by
      simp only [opens, Bool.and_eq_true, beq_iff_eq] at hopens
      exact hopens.2
    exact h.openGroup
  · obtain rfl : c = brackets.closing := by
      simp only [closes, Bool.and_eq_true, beq_iff_eq] at hcloses
      exact hcloses.1.2
    rw [henclosing] at h
    exact h.closeGroup
  · exact h.extend fun part hpart => hpart.push c

theorem read {reading final : Reading} {more : Text}
    (h : brackets.Spells reading.level reading.enclosing text)
    (hread : brackets.read? limit reading more = some final) :
    brackets.Spells final.level final.enclosing (text ++ more) := by
  induction more generalizing reading text with
  | nil =>
      obtain rfl : reading = final := by simpa [read?] using hread
      rwa [List.append_nil]
  | cons c rest ih =>
      rw [read?_cons] at hread
      obtain ⟨next, hnext, hrest⟩ := Option.bind_eq_some_iff.mp hread
      have hafter := ih (h.step hnext) hrest
      rwa [List.append_assoc, List.singleton_append] at hafter

end Spells

/-- Cutting loses nothing but blanks around pieces and invents nothing: with one closing bracket for
each group that is open when it ends, the text writes its pieces out.  The pieces are neat. -/
theorem renders_of_cut (h : brackets.cut limit text = .ok pieces) :
    brackets.Renders pieces
      (text ++ List.replicate (brackets.follow {} text).opened brackets.closing) ∧
    Piece.Neat pieces := by
  unfold cut at h
  split at h
  next final hread =>
    obtain rfl : final.pieces = pieces := by simpa using h
    have hstart : brackets.Spells (Reading.level {}) (Reading.enclosing {}) [] := .empty
    obtain ⟨hneat, hrenders⟩ := (hstart.read hread).finish
    have hopened : (brackets.follow {} text).opened = final.enclosing.length := by
      have hplace := place_of_read? hread
      rw [← Reading.opened_place, hplace]
      rfl
    rw [hopened]
    exact ⟨hrenders, hneat⟩
  next => cases h

/-- A quoted bracket, an empty group, a bracket that closes nothing and two that are never closed;
then a closing bracket that is a quotation mark, and so never closes. -/
theorem renders_of_cut_unclosed :
    let text : Text := "α \x7b 'x\x7d' \x7bb \x7d\x7b\x7d \x7d \x7d c \x7bd \x7b".toList
    let pieces : List Piece :=
      [.text ['α'], .group [.text "'x\x7d'".toList, .group [.text ['b']], .group []],
        .text "\x7d c".toList, .group [.text ['d'], .group []]]
    let quoting : Brackets := ⟨'«', '"'⟩
    let parts : List Piece := [.text ['a'], .group [.text "b \" «".toList]]
    curly.cut 8 text = .ok pieces ∧ (curly.follow {} text).opened = 2 ∧
    curly.Renders pieces (text ++ ['\x7d', '\x7d']) ∧ Piece.Neat pieces ∧
    quoting.cut 1 "a«b \" « ".toList = .ok parts ∧
    quoting.Renders parts ("a«b \" « ".toList ++ ['"']) ∧ Piece.Neat parts := by
  intro text pieces quoting parts
  have hcut : curly.cut 8 text = .ok pieces := rfl
  have hparts : quoting.cut 1 "a«b \" « ".toList = .ok parts := rfl
  exact ⟨hcut, rfl, (renders_of_cut hcut).1, (renders_of_cut hcut).2, hparts,
    (renders_of_cut hparts).1, (renders_of_cut hparts).2⟩

/-! ## Reading written-out pieces -/

/-- Brackets that differ from each other and are neither blanks nor quotation marks. -/
structure IsProper (brackets : Brackets) : Prop where
  distinct : brackets.opening ≠ brackets.closing
  opening_isBlank : Text.isBlank brackets.opening = false
  closing_isBlank : Text.isBlank brackets.closing = false
  opening_isMark : Quote.isMark brackets.opening = false
  closing_isMark : Quote.isMark brackets.closing = false

theorem isPlain_of_isBlank (hproper : brackets.IsProper) {c : Char} (h : Text.isBlank c = true) :
    brackets.isPlain c = true := by
  have hmark : Quote.isMark c = false := by
    cases hmark : Quote.isMark c with
    | false => rfl
    | true =>
        simp only [Quote.isMark, Bool.or_eq_true, beq_iff_eq] at hmark
        revert h
        rcases hmark with rfl | rfl <;> decide
  have hopening : c ≠ brackets.opening := by
    rintro rfl
    simp [hproper.opening_isBlank] at h
  have hclosing : c ≠ brackets.closing := by
    rintro rfl
    simp [hproper.closing_isBlank] at h
  simp [isPlain, hmark, hopening, hclosing]

namespace Level

variable {blanks : Text} (hblanks : ∀ c ∈ blanks, Text.isBlank c = true)

include hblanks

/-- Blanks after the fragment being read make no difference to the pieces. -/
theorem pieces_pushText_blank (level : Level) : (level.pushText blanks).pieces = level.pieces := by
  rw [pieces_pushText, level.pieces_eq, Piece.ofText,
    Text.fragment?_congr (Text.trim_append_right hblanks _), Piece.ofText]

/-- Blanks before a fragment make no difference to it. -/
theorem pieces_pushText_fragment {level : Level} {fragment : Text}
    (hpending : ∀ c ∈ level.pending, Text.isBlank c = true) (hne : fragment ≠ [])
    (htight : Text.Tight fragment) :
    (level.pushText (blanks ++ fragment)).pieces = level.pieces ++ [.text fragment] := by
  have hlead : ∀ c ∈ level.pending.reverse, Text.isBlank c = true := by simpa using hpending
  have hnone : Text.fragment? level.pending.reverse = none := Text.fragment?_of_blank hlead
  have hsome : Text.fragment? (level.pending.reverse ++ (blanks ++ fragment)) = some fragment := by
    rw [Text.fragment?_congr (Text.trim_append_left hlead _),
      Text.fragment?_congr (Text.trim_append_left hblanks _),
      Text.fragment?_of_tight htight hne]
  rw [pieces_pushText, level.pieces_eq, Piece.ofText, Piece.ofText, hnone, hsome]
  simp

end Level

/-- Blanks become part of the fragment being read, inside quotes or not. -/
theorem read?_blank (hproper : brackets.IsProper) {blanks : Text}
    (h : ∀ c ∈ blanks, Text.isBlank c = true) (limit : Nat) (reading : Reading) :
    brackets.read? limit reading blanks =
      some { reading with level := reading.level.pushText blanks } := by
  induction blanks generalizing reading with
  | nil => rfl
  | cons c rest ih =>
      obtain ⟨quote, level, enclosing⟩ := reading
      have hplain := isPlain_of_isBlank hproper (h c (List.mem_cons_self ..))
      simp only [isPlain, Bool.and_eq_true, Bool.not_eq_true', bne_iff_ne, ne_eq] at hplain
      obtain ⟨⟨hmark, hopening⟩, hclosing⟩ := hplain
      have hexposed : (quote.exposes c && (c == brackets.opening || c == brackets.closing)) =
          false := by
        simp [hopening, hclosing]
      have hpush : (level.push c).pushText rest = level.pushText (c :: rest) := by
        simp [Level.push, Level.pushText]
      rw [read?_cons, step?_of_not_exposed hexposed, Option.bind_some,
        ih fun d hd => h d (List.mem_cons_of_mem _ hd), Quote.next_of_not_isMark hmark, hpush]

theorem readsAs_blank (hproper : brackets.IsProper) {blanks : Text}
    (h : ∀ c ∈ blanks, Text.isBlank c = true) (depth : Nat) :
    ReadsAs brackets limit depth blanks (·.pushText blanks) :=
  fun level enclosing _ => read?_blank hproper h limit ⟨.outside, level, enclosing⟩

/-- Reading on a level a text that writes out pieces appends them to those of the level, unless the
first of them is a fragment and the level is in the middle of one. -/
theorem Renders.readsAs (h : brackets.Renders pieces text) (hproper : brackets.IsProper)
    (hneat : Piece.Neat pieces)
    (hsealed : ∀ fragment ∈ Piece.allFragments pieces, brackets.isSealed .outside fragment = true)
    (limit : Nat) {depth : Nat} (hdepth : Piece.nesting pieces ≤ depth) :
    ∃ effect, ReadsAs brackets limit depth text effect ∧
      ∀ level : Level,
        (∀ fragment, pieces.head? = some (.text fragment) →
          ∀ c ∈ level.pending, Text.isBlank c = true) →
        (effect level).pieces = level.pieces ++ pieces := by
  induction h generalizing depth with
  | nil hblanks =>
      refine ⟨_, readsAs_blank hproper hblanks depth, fun level _ => ?_⟩
      rw [Level.pieces_pushText_blank hblanks, List.append_nil]
  | @text blanks fragment more rest hblanks _ ih =>
      cases hneat with
      | text hne htight hnext hrest =>
          obtain ⟨hfragment, hothers⟩ : brackets.isSealed .outside fragment = true ∧
              ∀ other ∈ Piece.allFragments rest, brackets.isSealed .outside other = true := by
            simpa using hsealed
          obtain ⟨effect, hreads, heffect⟩ := ih hrest hothers (by simpa using hdepth)
          refine ⟨_, (readsAs_blank hproper hblanks depth).append
            ((readsAs_of_isSealed hfragment depth).append hreads), fun level hpending => ?_⟩
          calc (effect ((level.pushText blanks).pushText fragment)).pieces
              = ((level.pushText blanks).pushText fragment).pieces ++ rest :=
                heffect _ fun other hother => absurd hother (hnext other)
            _ = (level.pieces ++ [.text fragment]) ++ rest := by
                rw [Level.pushText_pushText,
                  Level.pieces_pushText_fragment hblanks (hpending _ rfl) hne htight]
            _ = level.pieces ++ .text fragment :: rest := by simp
  | @group blanks body more inner rest hblanks _ _ ihinner ihrest =>
      cases hneat with
      | group hinner hrest =>
          rw [Piece.nesting_cons, Piece.depth_group] at hdepth
          simp only [Piece.allFragments_cons, Piece.fragments_group, List.mem_append] at hsealed
          -- The group itself takes one level, so there is room for `depth - 1` inside it.
          obtain ⟨room, rfl⟩ : ∃ room, depth = room + 1 := ⟨depth - 1, by omega⟩
          obtain ⟨innerEffect, hinnerReads, hinnerEffect⟩ :=
            ihinner hinner (fun other hother => hsealed other (.inl hother))
              (show _ ≤ room by omega)
          obtain ⟨effect, hreads, heffect⟩ :=
            ihrest hrest (fun other hother => hsealed other (.inr hother))
              (show _ ≤ room + 1 by omega)
          have hgroup := hinnerReads.group hproper.opening_isMark hproper.closing_isMark
            hproper.distinct
          refine ⟨_, (readsAs_blank hproper hblanks (room + 1)).append (hgroup.append hreads),
            fun level _ => ?_⟩
          have hpieces : (innerEffect {}).pieces = inner := hinnerEffect {} (by simp)
          calc (effect ((level.pushText blanks).pushGroup (innerEffect {}).pieces)).pieces
              = ((level.pushText blanks).pushGroup (innerEffect {}).pieces).pieces ++ rest :=
                heffect _ (by simp)
            _ = (level.pieces ++ [.group inner]) ++ rest := by
                rw [hpieces, Level.pieces_eq, Level.done_pushGroup,
                  Level.pieces_pushText_blank hblanks]
                simp
            _ = level.pieces ++ .group inner :: rest := by simp

/-- Cutting undoes writing out: a text that writes out neat pieces is cut into them, whatever blanks
stand between them, if the fragments are sealed and the limit is not below their depth. -/
theorem cut_of_renders (hproper : brackets.IsProper) (hneat : Piece.Neat pieces)
    (hsealed : ∀ fragment ∈ Piece.allFragments pieces, brackets.isSealed .outside fragment = true)
    (hrenders : brackets.Renders pieces text) (hlimit : Piece.nesting pieces ≤ limit) :
    brackets.cut limit text = .ok pieces := by
  obtain ⟨effect, hreads, heffect⟩ := hrenders.readsAs hproper hneat hsealed limit hlimit
  have hpieces : (effect {}).pieces = pieces := heffect {} (by simp)
  rw [hreads.cut (Nat.le_refl limit), hpieces]

/-- A bracket and the other quotation mark inside quotes, groups next to each other, an empty one,
and blanks of several kinds where they may stand. -/
theorem cut_of_renders_nested :
    let pieces : List Piece :=
      [.text "é'\x7b\"'".toList, .group [.group [], .group [.text "b c".toList]], .text ['d']]
    let text : Text := "é'\x7b\"' \x7b\x7b\t\x7d\x7b b c\x7d \x7dd\n".toList
    curly.IsProper ∧ Piece.Neat pieces ∧
    (∀ fragment ∈ Piece.allFragments pieces, curly.isSealed .outside fragment = true) ∧
    curly.Renders pieces text ∧ Piece.nesting pieces = 2 ∧ curly.cut 2 text = .ok pieces := by
  intro pieces text
  have hproper : curly.IsProper := by constructor <;> decide
  have hsealed : ∀ fragment ∈ Piece.allFragments pieces,
      curly.isSealed .outside fragment = true := by decide
  have htight : ∀ {fragment : Text}, Text.trim fragment = fragment → Text.Tight fragment :=
    fun {fragment} htrim => htrim ▸ Text.tight_trim fragment
  have hneat : Piece.Neat pieces :=
    .text (by decide) (htight rfl) (by simp)
      (.group (.group .nil (.group (.text (by decide) (htight rfl) (by simp) .nil) .nil))
        (.text (by decide) (htight rfl) (by simp) .nil))
  have hinner : curly.Renders [.group [], .group [.text "b c".toList]]
      "\x7b\t\x7d\x7b b c\x7d ".toList :=
    @Renders.group curly [] ['\t'] "\x7b b c\x7d ".toList _ _ (by decide) (.nil (by decide))
      (@Renders.group curly [] " b c".toList [' '] _ _ (by decide)
        (@Renders.text curly [' '] "b c".toList [] _ (by decide) (.nil (by decide)))
        (.nil (by decide)))
  have hrenders : curly.Renders pieces text :=
    @Renders.text curly [] "é'\x7b\"'".toList _ _ (by decide)
      (@Renders.group curly [' '] _ "d\n".toList _ _ (by decide) hinner
        (@Renders.text curly [] ['d'] ['\n'] _ (by decide) (.nil (by decide))))
  exact ⟨hproper, hneat, hsealed, hrenders, by simp [pieces],
    cut_of_renders hproper hneat hsealed hrenders (by simp [pieces])⟩

end Brackets

end Shading
