import Shading.Proofs.Target

/-!
# Assignments without a target

An assignment symbol directly after a comparison character, as in `a >>= b`, is no split
point.  It becomes one when the fragment is split at the symbol before it, and then it
starts its side: nothing stands on its left, so it assigns nothing.

A flat statement is `Idle` if this is so of all its assignments: those that are split points
have blanks before them at most, and they are in the first item.  Both sides of a split are
then idle again, although they are trimmed and scanned anew, and the split itself is at an
assignment only if its left side is empty.

* `exists_before`, `exists_after`: the split points of a side are split points of the fragment,
  but for one at the very start of the right side.
* `idle_sides`: a split keeps a flat statement idle.
* `inert_flat_of_idle`: an idle statement assigns nothing.
-/

namespace Shading

namespace Occurrence

/-! ## Assignments that are split points -/

/-- No assignment of the fragment is a split point. -/
def Bare (fragment : Text) : Prop :=
  ∀ o ∈ splitPoints fragment, o.symbol.role ≠ .assign

/-- An assignment of the fragment that is a split point has nothing but blanks before it. -/
def Headed (fragment : Text) : Prop :=
  ∀ o ∈ splitPoints fragment, o.symbol.role = .assign → ∀ c ∈ o.behind, Text.isBlank c = true

theorem Bare.headed {fragment : Text} (h : Bare fragment) : Headed fragment :=
  fun o ho hrole => absurd hrole (h o ho)

variable {fragment : Text} {o p : Occurrence}

/-- A split point of the trimmed left side is one of the fragment, with the same text before it but
for blanks. -/
theorem exists_before (ho : o ∈ scan fragment) (hp : p ∈ splitPoints (Text.trim o.before)) :
    ∃ q ∈ splitPoints fragment, q.symbol = p.symbol ∧ ∃ blanks, q.behind = p.behind ++ blanks := by
  obtain ⟨hpscan, hpoint⟩ := List.mem_filter.mp hp
  obtain ⟨rest, _, hscan⟩ := scan_trimmed ho
  have hq : amid (Text.indent o.before) rest p ∈ scan fragment := by
    rw [hscan]
    exact List.mem_append_left _ (List.mem_map_of_mem hpscan)
  refine ⟨_, List.mem_filter.mpr ⟨hq, ?_⟩, rfl, _, rfl⟩
  rw [isSplitPoint_amid_blank hpscan hq fun _ => Text.isBlank_of_mem_indent, hpoint]

/-- A split point of the trimmed right side with something before it there is one of the fragment,
with even more before it. -/
theorem exists_after (ho : o ∈ scan fragment) (hp : p ∈ splitPoints (Text.trim o.after))
    (hne : p.behind ≠ []) :
    ∃ q ∈ splitPoints fragment, q.symbol = p.symbol ∧ ∃ more, q.behind = p.behind ++ more := by
  obtain ⟨hpscan, hpoint⟩ := List.mem_filter.mp hp
  obtain ⟨_, trail, hscan⟩ := scan_trimmed ho
  have hq : amid (o.before ++ (o.symbol.text ++ Text.indent o.after)) trail p ∈ scan fragment := by
    rw [hscan]
    exact List.mem_append_right _ (List.mem_cons_of_mem _ (List.mem_map_of_mem hpscan))
  refine ⟨_, List.mem_filter.mpr ⟨hq, ?_⟩, rfl, _, rfl⟩
  have hfirst := isWordChar_before_right (symbol_mem_table ho)
  rw [isSplitPoint_amid hpscan hq hfirst (Text.tight_trim o.after).starts hne, hpoint]

theorem Bare.before (h : Bare fragment) (ho : o ∈ scan fragment) :
    Bare (Text.trim o.before) := by
  intro p hp hrole
  obtain ⟨q, hq, hsymbol, -⟩ := exists_before ho hp
  exact h q hq (by rw [hsymbol, hrole])

theorem Headed.before (h : Headed fragment) (ho : o ∈ scan fragment) :
    Headed (Text.trim o.before) := by
  intro p hp hrole c hc
  obtain ⟨q, hq, hsymbol, blanks, hbehind⟩ := exists_before ho hp
  exact h q hq (by rw [hsymbol, hrole]) c (by simp [hbehind, hc])

theorem Headed.after (h : Headed fragment) (ho : o ∈ scan fragment) :
    Headed (Text.trim o.after) := by
  intro p hp hrole c hc
  obtain ⟨q, hq, hsymbol, more, hbehind⟩ := exists_after ho hp (List.ne_nil_of_mem hc)
  exact h q hq (by rw [hsymbol, hrole]) c (by simp [hbehind, hc])

end Occurrence

/-! ## Items -/

/-- No assignment of the item is a split point. -/
def Item.Bare : Item Expr → Prop
  | .text fragment => Occurrence.Bare fragment
  | .value _ => True

/-- An assignment of the item that is a split point has nothing but blanks before it. -/
def Item.Headed : Item Expr → Prop
  | .text fragment => Occurrence.Headed fragment
  | .value _ => True

theorem Item.Bare.headed {item : Item Expr} (h : item.Bare) : item.Headed := by
  cases item with
  | text fragment => exact Occurrence.Bare.headed h
  | value a => trivial

theorem Item.Unassigning.bare {item : Item Expr} (h : item.Unassigning) : item.Bare := by
  cases item with
  | value a => trivial
  | text fragment =>
      intro o ho
      exact h o.symbol (List.mem_map_of_mem (List.mem_filter.mp ho).1)

/-- Only the first item has an assignment that is a split point, and nothing before it. -/
def Idle : List (Item Expr) → Prop
  | [] => True
  | first :: rest => first.Headed ∧ ∀ item ∈ rest, item.Bare

theorem idle_of_bare {items : List (Item Expr)} (h : ∀ item ∈ items, item.Bare) : Idle items := by
  cases items with
  | nil => trivial
  | cons first rest =>
      exact ⟨(h first (List.mem_cons_self ..)).headed,
        fun item hitem => h item (List.mem_cons_of_mem _ hitem)⟩

/-- A text whose fragment is headed may stand first. -/
theorem idle_ofText_append {text : Text} (h : Occurrence.Headed (Text.trim text))
    {rest : List (Item Expr)} (hrest : ∀ item ∈ rest, item.Bare) :
    Idle (Item.ofText text ++ rest) := by
  rw [Item.ofText]
  cases hfragment : Text.fragment? text with
  | none => exact idle_of_bare hrest
  | some fragment =>
      rw [(Text.fragment?_eq_some_iff.mp hfragment).1] at h
      exact ⟨h, hrest⟩

/-- Both sides of a split are idle again; if it is at an assignment, nothing is on its left. -/
theorem idle_sides {items : List (Item Expr)} (h : Idle items) {cut : Cut Expr}
    (hfind : Cut.find? items = some cut) :
    (cut.point.symbol.role = .assign → cut.leftSide = []) ∧ Idle cut.leftSide ∧
      Idle cut.rightSide := by
  obtain ⟨fragment, rfl, hpoint⟩ := Cut.exists_of_find? hfind
  have hscan : cut.point ∈ Occurrence.scan fragment := (List.mem_filter.mp hpoint).1
  have hrightSide : Occurrence.Headed fragment → (∀ item ∈ cut.right, item.Bare) →
      Idle cut.rightSide := by
    intro hheaded hright
    exact idle_ofText_append (hheaded.after hscan) hright
  rw [Cut.leftSide]
  cases hleft : cut.left with
  | nil =>
      rw [hleft] at h
      obtain ⟨hheaded, hright⟩ := h
      refine ⟨fun hrole => ?_, ?_, hrightSide hheaded hright⟩
      · have hblank := hheaded cut.point hpoint hrole
        have hnone : Text.fragment? cut.point.before = none :=
          Text.fragment?_of_blank (by simpa [Occurrence.before] using hblank)
        rw [Item.ofText, hnone]
        rfl
      · have hleftSide := idle_ofText_append (hheaded.before hscan) (List.forall_mem_nil Item.Bare)
        rwa [List.append_nil] at hleftSide
  | cons first more =>
      rw [hleft] at h
      obtain ⟨hfirst, hothers⟩ := h
      have hbare : Occurrence.Bare fragment := hothers (.text fragment) (by simp)
      refine ⟨fun hrole => absurd hrole (hbare cut.point hpoint), ⟨hfirst, fun item hitem => ?_⟩,
        hrightSide hbare.headed fun item hitem => hothers item (by simp [hitem])⟩
      rcases List.mem_append.mp hitem with hitem | hitem
      · exact hothers item (by simp [hitem])
      · have hbefore : Item.Bare (.text (Text.trim cut.point.before)) := hbare.before hscan
        exact Item.forall_mem_ofText hbefore item hitem

namespace SplitTree

/-- A split at an assignment has nothing on its left. -/
def Idle : SplitTree Expr → Prop
  | .leaf _ => True
  | .tooDeep _ => True
  | .split point left right =>
      (point.symbol.role = .assign → left = .leaf []) ∧ left.Idle ∧ right.Idle

theorem idle_ofItems (levels : Nat) {items : List (Item Expr)} (h : Shading.Idle items) :
    (ofItems levels items).Idle := by
  induction levels generalizing items with
  | zero =>
      simp only [ofItems]
      split <;> trivial
  | succ levels ih =>
      simp only [ofItems]
      split
      next => trivial
      next cut hfind =>
        obtain ⟨hrole, hleft, hright⟩ := idle_sides h hfind
        refine ⟨fun hassign => ?_, ih hleft, ih hright⟩
        rw [hrole hassign]
        exact ofItems_of_find? rfl levels

end SplitTree

/-! ## Statements -/

namespace Statement

open Drafting

variable {setting : Setting}

/-- Without an operand on the left nothing is assigned. -/
theorem inert_combine_none (point : Occurrence) (right : Option Expr) :
    Inert (combine setting point none right) fun _ => True := by
  have hreport : ∀ (event : Event) (e : Expr),
      Inert (do report event; pure e) fun _ => True :=
    fun event _ => (inert_report event).bind fun _ _ => inert_pure trivial
  cases right with
  | none => exact hreport _ _
  | some right =>
      simp only [combine]
      split
      · exact inert_pure trivial
      · exact inert_pure trivial
      · exact hreport _ _

theorem inert_tree_of_idle {splits : SplitTree Expr} (h : splits.Idle) :
    Inert (tree setting splits) fun _ => True := by
  induction splits with
  | leaf items => exact inert_leaf items
  | tooDeep point => exact inert_tooDeep _ _
  | split point left right ihleft ihright =>
      obtain ⟨hassign, hleft, hright⟩ := h
      have hleftValue : Inert (tree setting left)
          fun value => point.symbol.role = .assign → value = none := by
        by_cases hrole : point.symbol.role = .assign
        · rw [hassign hrole]
          exact inert_pure fun _ => rfl
        · exact (ihleft hleft).mono fun _ _ hassigns => absurd hassigns hrole
      refine (inert_report _).bind fun _ _ => hleftValue.bind fun leftValue hnone => ?_
      refine (ihright hright).bind fun rightValue _ => ?_
      have hcombine : Inert (combine setting point leftValue rightValue) fun _ => True := by
        by_cases hrole : point.symbol.role = .assign
        · rw [hnone hrole]
          exact inert_combine_none point rightValue
        · exact inert_combine hrole leftValue rightValue
      exact hcombine.bind fun _ _ => inert_pure trivial

/-- An idle statement assigns nothing. -/
theorem inert_flat_of_idle (levels : Nat) {items : List (Item Expr)} (h : Idle items) :
    Inert (flat setting levels items) fun _ => True :=
  inert_tree_of_idle (SplitTree.idle_ofItems (levels + 1) h)

end Statement

end Shading
