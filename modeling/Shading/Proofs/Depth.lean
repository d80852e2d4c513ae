import Shading.Proofs.Place

/-!
# How deep groups nest

The depth of pieces is a property of a tree, and the limit is tested while that tree is
being built.  Both are found by counting: a place knows how many groups are open, and the
greatest such number along a text is the depth of its pieces, and what the limit is
compared with.

* `nesting_of_step?`: after one more character the pieces read so far are as deep as before,
  or as deep as there are groups open now.
* `nesting_of_read?`: the same for a text.
* `isSome_read?_iff_deepest_le`: which texts can be read under a limit.
* `cut_deepest`: cutting a text, from the count alone.
-/

namespace Shading

theorem Piece.nesting_append (first second : List Piece) :
    nesting (first ++ second) = max (nesting first) (nesting second) := by
  induction first with
  | nil => simp
  | cons piece rest ih => simp [ih, Nat.max_assoc]

namespace Brackets

open Piece

/-! ## Counting open groups -/

/-- The greatest number of groups that are open at some point of a text, read from a place. -/
def deepest (brackets : Brackets) (place : Place) : Text → Nat
  | [] => place.opened
  | c :: rest => max place.opened (brackets.deepest (brackets.advance place c) rest)

variable {brackets : Brackets} {limit : Nat} {reading next final : Reading}

theorem opened_le_deepest (brackets : Brackets) (place : Place) (text : Text) :
    place.opened ≤ brackets.deepest place text := by
  cases text with
  | nil => exact Nat.le_refl _
  | cons c rest => exact Nat.le_max_left ..

/-! ## The depth of a level -/

@[simp] theorem nesting_ofText (text : Text) : nesting (ofText text) = 0 := by
  cases h : Text.fragment? text with
  | none => simp [ofText, h]
  | some fragment => simp [ofText, h]

@[simp] theorem nesting_push (level : Level) (c : Char) :
    nesting (level.push c).pieces = nesting level.pieces := by
  simp [Level.pieces_eq, nesting_append, Level.push]

@[simp] theorem nesting_pushGroup (level : Level) (inner : List Piece) :
    nesting (level.pushGroup inner).pieces = max (nesting level.pieces) (1 + nesting inner) := by
  simp [(level.pushGroup inner).pieces_eq, nesting_append]

/-- Depth `n` on a level shows on the outside, one deeper for each level around it. -/
theorem nesting_finish {level other : Level} {n : Nat}
    (h : nesting other.pieces = max (nesting level.pieces) n) (enclosing : List Level) :
    nesting (Reading.finish other enclosing) =
      max (nesting (Reading.finish level enclosing)) (n + enclosing.length) := by
  induction enclosing generalizing level other n with
  | nil => exact h
  | cons outer rest ih =>
      have houter : nesting (outer.pushGroup other.pieces).pieces =
          max (nesting (outer.pushGroup level.pieces).pieces) (n + 1) := by
        rw [nesting_pushGroup, nesting_pushGroup, h]
        omega
      rw [Reading.finish, Reading.finish, ih houter, List.length_cons]
      omega

/-! ## The depth of a reading -/

/-- Every open group adds to the depth. -/
theorem opened_le_nesting (reading : Reading) :
    reading.place.opened ≤ nesting reading.pieces := by
  have hzero : nesting reading.level.pieces = max (nesting reading.level.pieces) 0 := by simp
  have hfinish := nesting_finish hzero reading.enclosing
  rw [Reading.opened_place, Reading.pieces]
  omega

/-- One more character: the depth is that of before, or that of the groups open now. -/
theorem nesting_of_step? {c : Char} (h : brackets.step? limit reading c = some next) :
    nesting next.pieces = max (nesting reading.pieces) next.place.opened := by
  have hopened := opened_le_nesting reading
  rw [Reading.opened_place] at hopened
  rcases step?_cases h with ⟨-, rfl⟩ | ⟨-, -, outer, rest, henclosing, rfl⟩ | ⟨-, -, rfl⟩
  · have hempty : nesting (reading.level.pushGroup []).pieces =
        max (nesting reading.level.pieces) 1 := by simp
    have hfinish := nesting_finish hempty reading.enclosing
    calc nesting reading.openGroup.pieces
        = nesting (Reading.finish (reading.level.pushGroup []) reading.enclosing) := rfl
      _ = max (nesting reading.pieces) (1 + reading.enclosing.length) := hfinish
      _ = max (nesting reading.pieces) reading.openGroup.place.opened := by
          rw [Nat.add_comm]
          rfl
  · -- The group that ends was counted as if it ended here.
    have hpieces : reading.pieces =
        Reading.finish (outer.pushGroup reading.level.pieces) rest := by
      rw [Reading.pieces, henclosing, Reading.finish]
    rw [henclosing, List.length_cons] at hopened
    rw [hpieces] at hopened ⊢
    rw [Reading.opened_place, Reading.pieces]
    dsimp only
    omega
  · have hpush : nesting (reading.level.push c).pieces =
        max (nesting reading.level.pieces) 0 := by simp
    have hfinish := nesting_finish hpush reading.enclosing
    calc nesting (reading.push c).pieces
        = max (nesting reading.pieces) (0 + reading.enclosing.length) := hfinish
      _ = max (nesting reading.pieces) (reading.push c).place.opened := by
          rw [Nat.zero_add]
          rfl

/-- The depth of what is read on from a reading. -/
theorem nesting_of_read? {text : Text} (h : brackets.read? limit reading text = some final) :
    nesting final.pieces = max (nesting reading.pieces) (brackets.deepest reading.place text) := by
  have hopened := opened_le_nesting reading
  induction text generalizing reading with
  | nil =>
      obtain rfl : reading = final := by simpa [read?] using h
      rw [deepest]
      omega
  | cons c rest ih =>
      rw [read?_cons] at h
      obtain ⟨next, hnext, hread⟩ := Option.bind_eq_some_iff.mp h
      have hrest := ih hread (opened_le_nesting next)
      have hstep := nesting_of_step? hnext
      have hle := opened_le_deepest brackets next.place rest
      rw [place_of_step? hnext] at hrest hstep hle
      rw [deepest]
      omega

/-- A text can be read if the groups open at any time are within the limit. -/
theorem isSome_read?_iff_deepest_le {text : Text} (h : reading.place.opened ≤ limit) :
    (brackets.read? limit reading text).isSome = true ↔
      brackets.deepest reading.place text ≤ limit := by
  induction text generalizing reading with
  | nil => simpa [read?, deepest] using h
  | cons c rest ih =>
      have hle := opened_le_deepest brackets (brackets.advance reading.place c) rest
      rw [read?_cons, deepest]
      cases hstep : brackets.step? limit reading c with
      | none =>
          obtain ⟨hopens, hfull⟩ := step?_eq_none_iff.mp hstep
          have hadvance : (brackets.advance reading.place c).opened = reading.place.opened + 1 := by
            simp [advance, hopens]
          simp only [Option.bind_none, Option.isSome_none, Bool.false_eq_true, false_iff]
          omega
      | some next =>
          have hroom : ¬ (brackets.opens reading.place c = true ∧
              limit ≤ reading.place.opened) := by
            rw [← step?_eq_none_iff, hstep]
            simp
          have hnext : next.place.opened ≤ limit := by
            rw [place_of_step? hstep, advance]
            dsimp only
            split
            next hopens => exact Nat.lt_of_not_le fun hfull => hroom ⟨hopens, hfull⟩
            next => split <;> omega
          rw [Option.bind_some, ih hnext, place_of_step? hstep]
          omega

/-- Cutting a text.  If no more groups are open at a time than the limit allows, the text is cut,
and its pieces are as deep as that; otherwise it is not cut, and all of it is the source of
the fault. -/
theorem cut_deepest (brackets : Brackets) (limit : Nat) (text : Text) :
    (brackets.deepest {} text ≤ limit → ∃ pieces, brackets.cut limit text = .ok pieces ∧
      nesting pieces = brackets.deepest {} text) ∧
    (limit < brackets.deepest {} text →
      brackets.cut limit text = .error ⟨.tooDeep limit, text⟩) := by
  have hread : (brackets.read? limit {} text).isSome = true ↔
      brackets.deepest {} text ≤ limit :=
    isSome_read?_iff_deepest_le (Nat.zero_le limit)
  constructor
  · intro hle
    obtain ⟨final, hfinal⟩ := Option.isSome_iff_exists.mp (hread.mpr hle)
    refine ⟨final.pieces, by rw [cut, hfinal], ?_⟩
    have hnesting := nesting_of_read? hfinal
    have hempty : nesting (Reading.pieces {}) = 0 := nesting_ofText []
    rw [hnesting, hempty]
    exact Nat.zero_max _
  · intro hlt
    have hnone : brackets.read? limit {} text = none := by
      rw [← Option.not_isSome_iff_eq_none, hread]
      omega
    rw [cut, hnone]

/-- A quoted bracket, one that closes nothing, and one at the very end that opens an empty group;
then brackets that are the same, and so only open. -/
theorem cut_deepest_unbalanced :
    let text : Text := "a \x7b '\x7b' \x7b b \x7d \x7d \x7d c \x7b".toList
    let bars : Brackets := ⟨'|', '|'⟩
    curly.deepest {} text = 2 ∧
    (∃ pieces, curly.cut 2 text = .ok pieces ∧ nesting pieces = 2) ∧
    curly.cut 1 text = .error ⟨.tooDeep 1, text⟩ ∧
    bars.deepest {} "a|b|é|".toList = 3 ∧
    ∃ pieces, bars.cut 3 "a|b|é|".toList = .ok pieces ∧ nesting pieces = 3 := by
  intro text bars
  have hdeepest : curly.deepest {} text = 2 := by decide
  have hbars : bars.deepest {} "a|b|é|".toList = 3 := by decide
  have htwo := (cut_deepest curly 2 text).1 (Nat.le_of_eq hdeepest)
  have hone := (cut_deepest curly 1 text).2 (by omega)
  have hthree := (cut_deepest bars 3 "a|b|é|".toList).1 (Nat.le_of_eq hbars)
  rw [hdeepest] at htwo
  rw [hbars] at hthree
  exact ⟨hdeepest, htwo, hone, hbars, hthree⟩

end Brackets

end Shading
