import Shading.Proofs.Place

/-!
# A text in front

Plain text in front of another does not take part in how that one is cut at brackets: it
becomes the front of the first fragment outside all groups, whether the other text starts
with a fragment or with a group.

Two readings, one with the text in front and one without, differ in nothing but their
outermost level; `Level.Led` and `Reading.Led` say how.

* `Reading.Led.step`: reading a character keeps the two readings alike.
* `cut_lead`: the pieces of a text with another in front.
-/

namespace Shading.Brackets

variable {lead : Text}

/-! ## Levels -/

/-- Two levels of which the second has a text in front of its first fragment, still being read
or completed. -/
inductive Level.Led (lead : Text) : Level → Level → Prop
  | reading (pending : Text) : Led lead ⟨[], pending⟩ ⟨[], pending ++ lead.reverse⟩
  | read (first : Text) (rest : List Piece) (pending : Text) :
      Led lead ⟨(Piece.ofText first ++ rest).reverse, pending⟩
        ⟨(Piece.ofText (lead ++ first) ++ rest).reverse, pending⟩

namespace Level

variable {level level' : Level}

theorem Led.pieces (h : Led lead level level') :
    ∃ first rest, level.pieces = Piece.ofText first ++ rest ∧
      level'.pieces = Piece.ofText (lead ++ first) ++ rest := by
  cases h with
  | reading pending => exact ⟨pending.reverse, [], by simp [pieces_eq], by simp [pieces_eq]⟩
  | read first rest pending =>
      exact ⟨first, rest ++ Piece.ofText pending.reverse, by simp [pieces_eq], by simp [pieces_eq]⟩

theorem Led.push (h : Led lead level level') (c : Char) :
    Led lead (level.push c) (level'.push c) := by
  cases h with
  | reading pending => exact .reading (c :: pending)
  | read first rest pending => exact .read first rest (c :: pending)

theorem Led.pushGroup (h : Led lead level level') (inner : List Piece) :
    Led lead (level.pushGroup inner) (level'.pushGroup inner) := by
  obtain ⟨first, rest, hpieces, hpieces'⟩ := h.pieces
  have hclose : ∀ other : Level, other.pushGroup inner =
      ⟨(other.pieces ++ [Piece.group inner]).reverse, []⟩ := by
    intro other
    simp [Level.pushGroup, Level.pieces]
  rw [hclose, hclose, hpieces, hpieces', List.append_assoc, List.append_assoc]
  exact .read first (rest ++ [.group inner]) []

end Level

/-! ## Readings -/

/-- Two readings that differ in their outermost level. -/
inductive Reading.Led (lead : Text) : Reading → Reading → Prop
  | outside {level level' : Level} (h : level.Led lead level') (quote : Quote) :
      Led lead ⟨quote, level, []⟩ ⟨quote, level', []⟩
  | inside {outer outer' : Level} (h : outer.Led lead outer') (quote : Quote) (level : Level)
      (enclosing : List Level) :
      Led lead ⟨quote, level, enclosing ++ [outer]⟩ ⟨quote, level, enclosing ++ [outer']⟩

namespace Reading

variable {reading reading' next : Reading}

theorem Led.place_eq (h : Led lead reading reading') : reading'.place = reading.place := by
  cases h with
  | outside h quote => rfl
  | inside h quote level enclosing => simp [Reading.place]

theorem Led.openGroup (h : Led lead reading reading') :
    Led lead reading.openGroup reading'.openGroup := by
  cases h with
  | outside h quote => exact .inside h quote {} []
  | inside h quote level enclosing => exact .inside h quote {} (level :: enclosing)

theorem Led.push (h : Led lead reading reading') (c : Char) :
    Led lead (reading.push c) (reading'.push c) := by
  cases h with
  | outside h quote => exact .outside (h.push c) _
  | inside h quote level enclosing => exact .inside h _ (level.push c) enclosing

theorem Led.closeGroup (h : Led lead reading reading') (c : Char) :
    Led lead (reading.closeGroup c) (reading'.closeGroup c) := by
  cases h with
  | outside h quote => exact .outside (h.push c) _
  | inside h quote level enclosing =>
      cases enclosing with
      | nil => exact .outside (h.pushGroup level.pieces) quote
      | cons outer rest => exact .inside h quote (outer.pushGroup level.pieces) rest

/-- Whether a character opens or closes a group is decided by the place, which is the same. -/
theorem Led.step {brackets : Brackets} {limit : Nat} (h : Led lead reading reading') {c : Char}
    (hstep : brackets.step? limit reading c = some next) :
    ∃ next', brackets.step? limit reading' c = some next' ∧ Led lead next next' := by
  have hquote : reading'.quote = reading.quote := congrArg Place.quote h.place_eq
  have hlength : reading'.enclosing.length = reading.enclosing.length :=
    congrArg Place.opened h.place_eq
  unfold step? at hstep ⊢
  rw [hquote, hlength]
  split at hstep
  next hexposes =>
    rw [if_pos hexposes]
    split at hstep
    next hopening =>
      rw [if_pos hopening]
      split at hstep
      next hroom =>
        obtain rfl : reading.openGroup = next := by simpa using hstep
        exact ⟨_, if_pos hroom, h.openGroup⟩
      next => cases hstep
    next hopening =>
      rw [if_neg hopening]
      split at hstep
      next hclosing =>
        obtain rfl : reading.closeGroup c = next := by simpa using hstep
        exact ⟨_, if_pos hclosing, h.closeGroup c⟩
      next hclosing =>
        obtain rfl : reading.push c = next := by simpa using hstep
        exact ⟨_, if_neg hclosing, h.push c⟩
  next hexposes =>
    obtain rfl : reading.push c = next := by simpa using hstep
    exact ⟨_, if_neg hexposes, h.push c⟩

theorem Led.read {brackets : Brackets} {limit : Nat} {text : Text} {final : Reading}
    (h : Led lead reading reading') (hread : brackets.read? limit reading text = some final) :
    ∃ final', brackets.read? limit reading' text = some final' ∧ Led lead final final' := by
  induction text generalizing reading reading' with
  | nil =>
      obtain rfl : reading = final := by simpa [read?] using hread
      exact ⟨reading', rfl, h⟩
  | cons c rest ih =>
      rw [read?_cons] at hread
      obtain ⟨next, hnext, hrest⟩ := Option.bind_eq_some_iff.mp hread
      obtain ⟨next', hnext', hled⟩ := h.step hnext
      obtain ⟨final', hfinal', hled'⟩ := ih hled hrest
      exact ⟨final', by rw [read?_cons, hnext', Option.bind_some, hfinal'], hled'⟩

/-- Groups that are still open at the end are closed on both sides. -/
theorem Led.pieces (h : Led lead reading reading') :
    ∃ first rest, reading.pieces = Piece.ofText first ++ rest ∧
      reading'.pieces = Piece.ofText (lead ++ first) ++ rest := by
  cases h with
  | outside h quote => exact h.pieces
  | @inside outer outer' h quote level enclosing =>
      change ∃ first rest, finish level (enclosing ++ [outer]) = _ ∧
        finish level (enclosing ++ [outer']) = _
      induction enclosing generalizing level with
      | nil => exact (h.pushGroup level.pieces).pieces
      | cons next rest ih => exact ih (next.pushGroup level.pieces)

end Reading

/-! ## Whole texts -/

/-- A plain text in front of another, if that one can be cut at all, becomes the front of its first
fragment. -/
theorem cut_lead {brackets : Brackets} (hlead : ∀ c ∈ lead, brackets.isPlain c = true)
    (limit : Nat) (text : Text) :
    brackets.cut limit (lead ++ text) = .error ⟨.tooDeep limit, lead ++ text⟩ ∨
      ∃ first rest, brackets.cut limit text = .ok (Piece.ofText first ++ rest) ∧
        brackets.cut limit (lead ++ text) = .ok (Piece.ofText (lead ++ first) ++ rest) := by
  have hplain : brackets.read? limit {} lead = some ⟨.outside, Level.pushText {} lead, []⟩ :=
    readsAs_plain hlead {} [] (Nat.zero_le _)
  have hled : Reading.Led lead {} ⟨.outside, Level.pushText {} lead, []⟩ := by
    have hlevel : Level.pushText {} lead = ⟨[], [] ++ lead.reverse⟩ := by simp [Level.pushText]
    rw [hlevel]
    exact .outside (.reading []) .outside
  unfold cut
  rw [read?_append, hplain, Option.bind_some]
  cases hread : brackets.read? limit {} text with
  | none =>
      have hnone : brackets.read? limit ⟨.outside, Level.pushText {} lead, []⟩ text = none := by
        rw [← Option.not_isSome_iff_eq_none, isSome_read? hled.place_eq, hread]
        simp
      rw [hnone]
      exact .inl rfl
  | some final =>
      obtain ⟨final', hread', hfinal⟩ := hled.read hread
      obtain ⟨first, rest, hpieces, hpieces'⟩ := hfinal.pieces
      rw [hread']
      exact .inr ⟨first, rest, congrArg Except.ok hpieces, congrArg Except.ok hpieces'⟩

end Shading.Brackets
