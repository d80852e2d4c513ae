import Shading.Proofs.Gives
import Shading.Proofs.Relocation

/-!
# Resolving on from a draft

What was drafted so far has a say in how a statement is resolved further only through the
variables it created: how many there are, and their labels.  So the splits of a flat
statement can be resolved as if those variables had existed all along, from an empty draft,
and what is drafted is put behind the rest afterwards.

* `resumes_tree`: the splits of a flat statement.
* `run_tree_behind`: the same splits, with further variables created before.
* `flat_eq_none`, `pieces_eq_nil`: a statement without a value drafts nothing.
-/

namespace Shading

/-- A sequence of two steps that gives a result: both give one. -/
theorem Action.exists_of_run_bind {σ α β : Type} {step : Action σ α} {next : α → Action σ β}
    {s t : σ} {b : β} (h : (step >>= next).run s = (.ok b, t)) :
    ∃ a middle, step.run s = (.ok a, middle) ∧ (next a).run middle = (.ok b, t) := by
  cases hstep : step.run s with
  | mk result middle =>
      cases result with
      | error fault =>
          rw [run_bind_error hstep] at h
          cases h
      | ok a => exact ⟨a, middle, rfl, by rw [← run_bind_ok hstep next, h]⟩

/-- One draft after another. -/
def Draft.append (first second : Draft) : Draft where
  created := first.created ++ second.created
  assignments := first.assignments ++ second.assignments
  events := first.events ++ second.events

@[simp] theorem Draft.append_empty (draft : Draft) : draft.append {} = draft := by
  simp [append]

namespace Setting

/-- The setting in which the variables of a draft exist. -/
def after (setting : Setting) (draft : Draft) : Setting :=
  { setting with known := setting.labels draft }

theorem labels_append (setting : Setting) (first second : Draft) :
    setting.labels (first.append second) = (setting.after first).labels second := by
  simp [labels, after, Draft.append]

theorem look_append (setting : Setting) (first second : Draft) :
    setting.look (first.append second) = (setting.after first).look second := by
  funext id
  rw [look, look, labels_append]

end Setting

/-! ## Steps -/

namespace Drafting

variable {α β : Type} {first : Draft}

/-- From a draft behind `first` the step does what the other does from that draft alone. -/
def Resumes (first : Draft) (step step' : Drafting α) : Prop :=
  ∀ draft : Draft,
    step.run (first.append draft) = ((step'.run draft).1, first.append (step'.run draft).2)

theorem resumes_pure (a : α) : Resumes first (pure a) (pure a) :=
  fun _ => rfl

theorem resumes_fail (fault : Fault) : Resumes first (.fail fault : Drafting α) (.fail fault) :=
  fun _ => rfl

theorem resumes_report (event : Event) : Resumes first (report event) (report event) := by
  intro draft
  simp [report, Draft.append]

theorem resumes_assign (target : VariableId) (e : Expr) :
    Resumes first (assign target e) (assign target e) := by
  intro draft
  simp [assign, Draft.append]

theorem resumes_create (setting : Setting) (v : Variable) :
    Resumes first (create setting v) (create (setting.after first) v) := by
  intro draft
  simp only [create, Action.run, setting.labels_append]
  simp [Draft.append]

theorem Resumes.bind {step step' : Drafting α} (h : Resumes first step step')
    {next next' : α → Drafting β} (hnext : ∀ a, Resumes first (next a) (next' a)) :
    Resumes first (step >>= next) (step' >>= next') := by
  intro draft
  have hrun := h draft
  cases hstep : step'.run draft with
  | mk result after =>
      rw [hstep] at hrun
      cases result with
      | error fault => rw [Action.run_bind_error hrun, Action.run_bind_error hstep]
      | ok a =>
          rw [Action.run_bind_ok hrun, Action.run_bind_ok hstep]
          exact hnext a after

end Drafting

namespace Statement

open Drafting

variable {setting : Setting} {first : Draft}

theorem resumes_combine (point : Occurrence) (left right : Option Expr) :
    Resumes first (combine setting point left right)
      (combine (setting.after first) point left right) := by
  have hreport : ∀ (event : Event) (e : Expr),
      Resumes first (do report event; pure e) (do report event; pure e) :=
    fun event e => (resumes_report event).bind fun _ => resumes_pure e
  -- Only a refused assignment looks at the draft, to show its target by labels.
  have hfault : ∀ target : Expr, Resumes first
      (do
        let draft ← Action.state
        .fail ⟨.notAssignable (targetText (setting.look draft) target), point.fragment⟩
        : Drafting Expr)
      (do
        let draft ← Action.state
        .fail ⟨.notAssignable (targetText ((setting.after first).look draft) target),
          point.fragment⟩) := by
    intro target draft
    simp [Action.run_bind, setting.look_append]
  unfold combine
  split
  · split
    · split
      · exact (resumes_assign _ _).bind fun _ => resumes_pure _
      · exact hfault _
    · exact resumes_pure _
    · exact resumes_pure _
    · exact hreport _ _
  · split
    · exact resumes_pure _
    · exact resumes_pure _
    · exact hreport _ _
  · exact hreport _ _
  · exact hreport _ _

theorem resumes_item (i : Item Expr) :
    Resumes first (item setting i) (item (setting.after first) i) := by
  cases i with
  | value result => exact resumes_pure result
  | text fragment =>
      have hscope : (setting.after first).scope = setting.scope := rfl
      rw [item, item, hscope]
      split
      · exact resumes_pure _
      · exact (resumes_create setting _).bind fun id => resumes_pure (Expr.var id)

theorem resumes_leaf (items : List (Item Expr)) :
    Resumes first (leaf setting items) (leaf (setting.after first) items) := by
  cases items with
  | nil => exact resumes_pure none
  | cons i rest =>
      cases rest with
      | nil => exact (resumes_item i).bind fun e => resumes_pure (some e)
      | cons second more =>
          exact (resumes_report _).bind fun _ =>
            (resumes_item i).bind fun e => resumes_pure (some e)

/-- The splits of a flat statement, resolved on from a draft. -/
theorem resumes_tree (splits : SplitTree Expr) :
    Resumes first (tree setting splits) (tree (setting.after first) splits) := by
  induction splits with
  | leaf items => exact resumes_leaf items
  | tooDeep point => exact resumes_fail _
  | split point left right ihleft ihright =>
      refine (resumes_report _).bind fun _ => ?_
      refine ihleft.bind fun leftValue => ihright.bind fun rightValue => ?_
      exact (resumes_combine point leftValue rightValue).bind fun e => resumes_pure (some e)

/-- What was reported and assigned before has no influence on the splits of a flat statement. -/
theorem run_tree_of_created {before between : Draft} (h : between.created = before.created)
    (splits : SplitTree Expr) :
    ∃ result after, (tree setting splits).run before = (result, before.append after) ∧
      (tree setting splits).run between = (result, between.append after) := by
  have hafter : setting.after between = setting.after before := by
    simp [Setting.after, Setting.labels, h]
  have hbefore : (tree setting splits).run (before.append {}) = _ := resumes_tree splits {}
  have hbetween : (tree setting splits).run (between.append {}) = _ := resumes_tree splits {}
  rw [Draft.append_empty] at hbefore hbetween
  rw [hafter] at hbetween
  exact ⟨_, _, hbefore, hbetween⟩

/-- The splits of a flat statement do the same with further variables created before. -/
theorem run_tree_behind
    (hscope : ∀ binding ∈ setting.scope.bindings, binding.2 < setting.known.length)
    {before between : Draft} {created : List Variable}
    (hcreated : between.created = before.created ++ created) (levels : Nat)
    {items : List (Item Expr)}
    (hitems : ∀ i ∈ items, i.Holds (Expr.Within (setting.count before))) :
    ∃ result after, (tree setting (.ofItems levels items)).run before =
        (result, before.append after) ∧
      (tree setting (.ofItems levels items)).run between =
        (result.map (Option.map (Expr.rename (shift (setting.count before) created.length))),
          between.append (after.rename (shift (setting.count before) created.length))) := by
  let ρ := shift (setting.count before) created.length
  let splits := SplitTree.ofItems levels items
  -- The values among the items are from before, so they keep their variables.
  have hsplits : splits.map (Expr.rename ρ) = splits := by
    have hfixed : ∀ i ∈ items, i.map (Expr.rename ρ) = i := by
      intro i hi
      cases i with
      | text fragment => rfl
      | value e =>
          have he : e.Within (setting.count before) := hitems _ hi
          exact congrArg Item.value (he.rename_eq fun id hid => shift_of_lt hid _)
    rw [← SplitTree.map_ofItems, List.map_congr_left hfixed, List.map_id']
  have hmirror : (setting.after before).Mirror ρ (setting.after between) := by
    have hknown : ∀ binding ∈ (setting.after before).scope.bindings,
        binding.2 < (setting.after before).known.length :=
      fun binding hbinding =>
        Nat.lt_of_lt_of_le (hscope binding hbinding) (setting.known_le_count before)
    have hafter : setting.after between =
        { setting.after before with
          known := (setting.after before).known ++ created.map Variable.label } := by
      simp [Setting.after, Setting.labels, hcreated]
    have hshift := mirror_shift hknown (created.map Variable.label)
    rwa [← hafter, List.length_map] at hshift
  obtain ⟨result, after, hrun⟩ : ∃ result after,
      (tree (setting.after before) splits).run {} = (result, after) := ⟨_, _, rfl⟩
  refine ⟨result, after, ?_, ?_⟩
  · have hresumed : (tree setting splits).run (before.append {}) = _ := resumes_tree splits {}
    rw [hrun, Draft.append_empty] at hresumed
    exact hresumed
  · have hresumed : (tree setting splits).run (between.append {}) = _ := resumes_tree splits {}
    have hmirrored : (tree (setting.after between) splits).run {} =
        (result.map (Option.map (Expr.rename ρ)), after.rename ρ) := by
      have hboth := mirrors_tree hmirror splits {}
      rwa [hsplits, hrun] at hboth
    rw [hmirrored, Draft.append_empty] at hresumed
    exact hresumed

/-! ## Statements without a value -/

variable {draft after : Draft}

/-- Splits have a value, and so have items that do not split. -/
theorem tree_eq_none {splits : SplitTree Expr}
    (h : (tree setting splits).run draft = (.ok none, after)) :
    splits = .leaf [] ∧ after = draft := by
  cases splits with
  | tooDeep point => cases h
  | split point left right =>
      rw [tree] at h
      obtain ⟨-, reported, -, h⟩ := Action.exists_of_run_bind h
      obtain ⟨leftValue, left', -, h⟩ := Action.exists_of_run_bind h
      obtain ⟨rightValue, right', -, h⟩ := Action.exists_of_run_bind h
      obtain ⟨e, combined, -, h⟩ := Action.exists_of_run_bind h
      cases h
  | leaf items =>
      have hsome : ∀ {i : Item Expr} {d : Draft},
          (do let result ← item setting i; pure (some result) : Drafting (Option Expr)).run d ≠
            (.ok none, after) := by
        intro i d h
        obtain ⟨e, read, -, h⟩ := Action.exists_of_run_bind h
        cases h
      rw [tree] at h
      cases items with
      | nil => exact ⟨rfl, (Prod.mk.inj h).2.symm⟩
      | cons i rest =>
          cases rest with
          | nil => exact absurd h hsome
          | cons second more =>
              obtain ⟨-, reported, -, h⟩ := Action.exists_of_run_bind h
              exact absurd h hsome

theorem flat_eq_none {levels : Nat} {items : List (Item Expr)}
    (h : (flat setting levels items).run draft = (.ok none, after)) :
    items = [] ∧ after = draft := by
  obtain ⟨hleaf, hdraft⟩ := tree_eq_none h
  refine ⟨?_, hdraft⟩
  cases hfind : Cut.find? items with
  | none =>
      rw [SplitTree.ofItems_of_find? hfind] at hleaf
      exact SplitTree.leaf.inj hleaf
  | some cut =>
      rw [SplitTree.ofItems_succ_of_find? hfind] at hleaf
      cases hleaf

mutual

theorem piece_eq_nil : ∀ {levels : Nat} {part : Piece} {draft after : Draft},
    (piece setting levels part).run draft = (.ok [], after) → after = draft
  | levels, .text fragment, draft, after, h => by
      rw [piece] at h
      cases h
  | 0, .group inner, draft, after, h => by
      rw [piece] at h
      cases h
  | levels + 1, .group inner, draft, after, h => by
      rw [piece] at h
      obtain ⟨items, middle, hitems, h⟩ := Action.exists_of_run_bind h
      obtain ⟨result, last, hflat, h⟩ := Action.exists_of_run_bind h
      cases result with
      | some e => cases h
      | none =>
          obtain ⟨rfl, rfl⟩ := flat_eq_none hflat
          obtain rfl : last = after := (Prod.mk.inj h).2
          exact pieces_eq_nil hitems

/-- Pieces that leave no items are groups without a value, and nothing was drafted. -/
theorem pieces_eq_nil : ∀ {levels : Nat} {parts : List Piece} {draft after : Draft},
    (pieces setting levels parts).run draft = (.ok [], after) → after = draft
  | levels, [], draft, after, h => by
      rw [pieces] at h
      exact (Prod.mk.inj h).2.symm
  | levels, part :: rest, draft, after, h => by
      rw [pieces] at h
      obtain ⟨partItems, middle, hpart, h⟩ := Action.exists_of_run_bind h
      obtain ⟨restItems, last, hrest, h⟩ := Action.exists_of_run_bind h
      obtain ⟨hnil, rfl⟩ : partItems ++ restItems = [] ∧ last = after := by simpa using h
      obtain ⟨rfl, rfl⟩ := List.append_eq_nil_iff.mp hnil
      exact (pieces_eq_nil hrest).trans (piece_eq_nil hpart)

end

end Statement

end Shading
