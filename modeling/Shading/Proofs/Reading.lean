import Shading.Piece.Brackets
import Shading.Proofs.Text

/-!
# Reading brackets piece by piece

Reading is a fold over characters with a stack of open levels.  For texts whose quotes
and brackets are in order it is enough to know what they do to the level they are read
on, and `ReadsAs` says just that: outside quotes, at any nesting that leaves room for
`depth` further groups, the text changes the current level by `effect` and nothing else.

Such texts compose: text without brackets outside quotes is pushed
(`readsAs_of_isSealed`, `readsAs_plain`), one text after another composes the effects
(`ReadsAs.append`), and a bracketed text pushes a group (`ReadsAs.group`).
-/

namespace Shading

/-- A text is at most one piece. -/
theorem Piece.reverse_ofText (text : Text) : (ofText text).reverse = ofText text := by
  cases h : Text.fragment? text with
  | none => simp [ofText, h]
  | some fragment => simp [ofText, h]

namespace Brackets

/-- Whether a character has no meaning of its own to a reading. -/
def isPlain (brackets : Brackets) (c : Char) : Bool :=
  !Quote.isMark c && c != brackets.opening && c != brackets.closing

namespace Level

/-- Appends a text to the fragment being read. -/
def pushText (level : Level) (text : Text) : Level :=
  { level with pending := text.reverse ++ level.pending }

@[simp] theorem pushText_pushText (level : Level) (first second : Text) :
    (level.pushText first).pushText second = level.pushText (first ++ second) := by
  simp [pushText]

theorem pieces_eq (level : Level) :
    level.pieces = level.done.reverse ++ Piece.ofText level.pending.reverse := by
  rw [pieces, close, List.reverse_append, Piece.reverse_ofText]

@[simp] theorem pieces_pushText (level : Level) (text : Text) :
    (level.pushText text).pieces =
      level.done.reverse ++ Piece.ofText (level.pending.reverse ++ text) := by
  simp [pieces_eq, pushText]

@[simp] theorem done_pushGroup (level : Level) (inner : List Piece) :
    (level.pushGroup inner).done.reverse = level.pieces ++ [.group inner] := by
  simp [pushGroup, pieces]

@[simp] theorem pending_pushGroup (level : Level) (inner : List Piece) :
    (level.pushGroup inner).pending = [] := rfl

end Level

/-- What reading a text does to the level it is read on, below which `depth` more groups
may have to nest. -/
def ReadsAs (brackets : Brackets) (limit depth : Nat) (text : Text) (effect : Level → Level) :
    Prop :=
  ∀ (level : Level) (enclosing : List Level), enclosing.length + depth ≤ limit →
    brackets.read? limit ⟨.outside, level, enclosing⟩ text =
      some ⟨.outside, effect level, enclosing⟩

variable {brackets : Brackets} {limit depth : Nat} {text : Text} {effect : Level → Level}

theorem ReadsAs.mono (h : ReadsAs brackets limit depth text effect) {more : Nat}
    (hle : depth ≤ more) : ReadsAs brackets limit more text effect :=
  fun level enclosing hroom => h level enclosing (by omega)

/-- One text after another. -/
theorem ReadsAs.append (h : ReadsAs brackets limit depth text effect) {next : Text}
    {nextEffect : Level → Level} (hnext : ReadsAs brackets limit depth next nextEffect) :
    ReadsAs brackets limit depth (text ++ next) (nextEffect ∘ effect) := by
  intro level enclosing hroom
  have hfirst := h level enclosing hroom
  have hsecond := hnext (effect level) enclosing hroom
  unfold read? at *
  rw [List.foldlM_append, hfirst]
  exact hsecond

theorem read?_cons {reading : Reading} {c : Char} {rest : Text} :
    brackets.read? limit reading (c :: rest) =
      (brackets.step? limit reading c).bind fun next => brackets.read? limit next rest :=
  rfl

/-- Whether a text, read from a position relative to quotes, has no bracket outside quotes and no
quote that stays open. -/
def isSealed (brackets : Brackets) : (quote : Quote) → (text : Text) → Bool
  | quote, [] => quote == .outside
  | quote, c :: rest =>
      !(quote.exposes c && (c == brackets.opening || c == brackets.closing)) &&
        brackets.isSealed (quote.next c) rest

theorem step?_of_not_exposed {quote : Quote} {c : Char}
    (h : (quote.exposes c && (c == brackets.opening || c == brackets.closing)) = false)
    (level : Level) (enclosing : List Level) :
    brackets.step? limit ⟨quote, level, enclosing⟩ c =
      some ⟨quote.next c, level.push c, enclosing⟩ := by
  unfold step?
  dsimp only
  split
  next hexposes =>
    rw [hexposes, Bool.true_and, Bool.or_eq_false_iff, beq_eq_false_iff_ne,
      beq_eq_false_iff_ne] at h
    rw [if_neg h.1, if_neg h.2]
    rfl
  next => rfl

theorem read?_of_isSealed {quote : Quote} (h : brackets.isSealed quote text = true) (level : Level)
    (enclosing : List Level) :
    brackets.read? limit ⟨quote, level, enclosing⟩ text =
      some ⟨.outside, level.pushText text, enclosing⟩ := by
  induction text generalizing quote level with
  | nil =>
      obtain rfl : quote = .outside := by simpa [isSealed] using h
      rfl
  | cons c rest ih =>
      rw [isSealed, Bool.and_eq_true, Bool.not_eq_true'] at h
      have hpush : (level.push c).pushText rest = level.pushText (c :: rest) := by
        simp [Level.push, Level.pushText]
      rw [read?_cons, step?_of_not_exposed h.1, Option.bind_some, ih h.2, hpush]

/-- A sealed text becomes part of the fragment being read. -/
theorem readsAs_of_isSealed (h : brackets.isSealed .outside text = true) (depth : Nat) :
    ReadsAs brackets limit depth text (·.pushText text) :=
  fun level enclosing _ => read?_of_isSealed h level enclosing

theorem isSealed_of_isPlain (h : ∀ c ∈ text, brackets.isPlain c = true) :
    brackets.isSealed .outside text = true := by
  induction text with
  | nil => rfl
  | cons c rest ih =>
      have hc := h c (List.mem_cons_self ..)
      simp only [isPlain, Bool.and_eq_true, Bool.not_eq_true', bne_iff_ne, ne_eq] at hc
      obtain ⟨⟨hmark, hopening⟩, hclosing⟩ := hc
      have hquote : Quote.outside.next c = .outside := Quote.next_of_not_isMark hmark _
      rw [isSealed, hquote, ih fun d hd => h d (List.mem_cons_of_mem _ hd)]
      simp [hopening, hclosing]

/-- Plain text becomes part of the fragment being read. -/
theorem readsAs_plain (h : ∀ c ∈ text, brackets.isPlain c = true) :
    ReadsAs brackets limit 0 text (·.pushText text) :=
  readsAs_of_isSealed (isSealed_of_isPlain h) 0

/-- A text between brackets becomes a group. -/
theorem ReadsAs.group (h : ReadsAs brackets limit depth text effect)
    (hopening : Quote.isMark brackets.opening = false)
    (hclosing : Quote.isMark brackets.closing = false)
    (hne : brackets.opening ≠ brackets.closing) :
    ReadsAs brackets limit (depth + 1) (brackets.opening :: (text ++ [brackets.closing]))
      (·.pushGroup (effect {}).pieces) := by
  intro level enclosing hroom
  have hinner := h {} (level :: enclosing) (by simp only [List.length_cons]; omega)
  have hopen : brackets.step? limit ⟨.outside, level, enclosing⟩ brackets.opening =
      some ⟨.outside, {}, level :: enclosing⟩ := by
    have hlt : enclosing.length < limit := by omega
    simp [step?, Quote.exposes, hopening, Reading.openGroup, hlt]
  have hclose : ∀ inner : Level,
      brackets.step? limit ⟨.outside, inner, level :: enclosing⟩ brackets.closing =
        some ⟨.outside, level.pushGroup inner.pieces, enclosing⟩ := by
    intro inner
    simp [step?, Quote.exposes, hclosing, hne.symm, Reading.closeGroup]
  unfold read? at *
  rw [List.foldlM_cons, hopen]
  simp only [Option.bind_eq_bind, Option.bind_some, List.foldlM_append, hinner]
  simp [hclose]

/-- The pieces of a whole text. -/
theorem ReadsAs.cut (h : ReadsAs brackets limit depth text effect) (hdepth : depth ≤ limit) :
    brackets.cut limit text = .ok (effect {}).pieces := by
  have hread : brackets.read? limit {} text = some ⟨.outside, effect {}, []⟩ :=
    h {} [] (by simpa using hdepth)
  unfold Brackets.cut
  rw [hread]
  rfl

end Brackets

end Shading
