import Shading.Proofs.Lead
import Shading.Proofs.Limit
import Shading.Proofs.Resume
import Shading.Proofs.Target

/-!
# Assignments

What stands on the right of an assignment is never resolved as a text of its own: its
groups are resolved with all others before the statement is split, and what remains is the
end of one fragment and everything behind it.  It comes to the same.  The groups are
resolved before the left side is, so they find what they would find without it; and the
rest is resolved after a declaration on the left has created its variable, which moves the
variables that come after it by one place and does nothing else.

* `flat_assignment`: an assignment without groups, from its right side alone.
* `Draft.Completes.renamed`: the store, whichever way the target was created.
* `evaluate_assignment`: the value and the store of a whole assignment.
-/

namespace Shading

/-! ## Steps -/

theorem Occurrence.unassigning_of_ofText {text : Text}
    (h : ∀ fragment, Piece.text fragment ∈ Piece.ofText text → Unassigning fragment) :
    Unassigning text := by
  by_cases hblank : Text.trim text = []
  · rw [Unassigning, ← symbols_trim, hblank]
    simp
  · rw [Unassigning, ← symbols_trim]
    exact h _ (by simp [Piece.ofText, Text.fragment?_of_ne_nil hblank])

namespace Statement

open Drafting

variable {setting : Setting}

/-- Text in front of other pieces. -/
theorem run_pieces_ofText (levels : Nat) (text : Text) (rest : List Piece) (draft : Draft) :
    (pieces setting levels (Piece.ofText text ++ rest)).run draft =
      (((pieces setting levels rest).run draft).1.map (Item.ofText text ++ ·),
        ((pieces setting levels rest).run draft).2) := by
  rw [Piece.ofText, Item.ofText]
  cases Text.fragment? text with
  | none =>
      simp only [Option.toList_none, List.map_nil, List.nil_append]
      cases hrun : (pieces setting levels rest).run draft with
      | mk result after => cases result <;> rfl
  | some fragment =>
      simp only [Option.toList_some, List.map_cons, List.map_nil, List.singleton_append]
      rw [pieces, piece]
      cases hrun : (pieces setting levels rest).run draft with
      | mk result after =>
          cases result with
          | error fault =>
              rw [pure_bind, Action.run_bind_error hrun]
              rfl
          | ok items =>
              rw [pure_bind, Action.run_bind_ok hrun]
              rfl

/-- A group becomes a value, if it becomes anything. -/
theorem exists_of_mem_group {levels : Nat} {inner : List Piece} {items : List (Item Expr)}
    {draft after : Draft}
    (h : (piece setting levels (.group inner)).run draft = (.ok items, after)) {i : Item Expr}
    (hi : i ∈ items) : ∃ e, i = .value e := by
  cases levels with
  | zero =>
      rw [piece] at h
      cases h
  | succ levels =>
      rw [piece] at h
      obtain ⟨inside, middle, -, h⟩ := Action.exists_of_run_bind h
      obtain ⟨result, last, -, h⟩ := Action.exists_of_run_bind h
      obtain ⟨rfl, -⟩ : result.toList.map Item.value = items ∧ last = after := by simpa using h
      obtain ⟨e, -, rfl⟩ := List.mem_map.mp hi
      exact ⟨e, rfl⟩

/-- The items of pieces are the fragments outside groups, and values. -/
theorem unassigning_pieces {levels : Nat} {parts : List Piece} {items : List (Item Expr)}
    {draft after : Draft}
    (hfree : ∀ fragment, Piece.text fragment ∈ parts → Occurrence.Unassigning fragment)
    (h : (pieces setting levels parts).run draft = (.ok items, after)) :
    ∀ i ∈ items, i.Unassigning := by
  induction parts generalizing items draft after with
  | nil =>
      rw [pieces] at h
      obtain ⟨rfl, -⟩ : items = [] ∧ draft = after := by simpa using h
      simp
  | cons part rest ih =>
      rw [pieces] at h
      obtain ⟨partItems, middle, hpart, h⟩ := Action.exists_of_run_bind h
      obtain ⟨restItems, last, hrest, h⟩ := Action.exists_of_run_bind h
      obtain ⟨rfl, -⟩ : partItems ++ restItems = items ∧ last = after := by simpa using h
      intro i hi
      rcases List.mem_append.mp hi with hi | hi
      · cases part with
        | text fragment =>
            rw [piece] at hpart
            obtain ⟨rfl, -⟩ : [.text fragment] = partItems ∧ draft = middle := by
              simpa using hpart
            rw [List.mem_singleton.mp hi]
            exact hfree fragment (List.mem_cons_self ..)
        | group inner =>
            obtain ⟨e, rfl⟩ := exists_of_mem_group hpart hi
            trivial
      · exact ih (fun fragment hmem => hfree fragment (List.mem_cons_of_mem _ hmem)) hrest i hi

/-- An assignment resolves its left side, then its right side, then it combines them. -/
theorem run_flat_assignment {left : Text} {target : Target}
    (htarget : target.Denoted setting.scope left)
    (hleft : ∀ c ∈ left, Symbol.isSymbolChar c = false) {first : Text}
    (hfirst : Occurrence.Unassigning first) {items : List (Item Expr)}
    (hitems : ∀ i ∈ items, i.Unassigning) (levels : Nat) (before : Draft) :
    ∃ (point : Occurrence) (between : Draft), point.symbol = .assignment ∧
      between.created = before.created ++ target.created ∧
      between.assignments = before.assignments ∧
      (flat setting levels (Item.ofText (left ++ " = ".toList ++ first) ++ items)).run before =
        (do
          let right ← tree setting (.ofItems levels (Item.ofText first ++ items))
          let result ← combine setting point
            (some (.var (target.place (setting.count before)))) right
          pure (some result) : Drafting (Option Expr)).run between := by
  obtain ⟨cut, hfind, hsymbol, hleftSide, hrightSide⟩ := Cut.find?_assignment hleft hfirst hitems
  let event : Event := .split cut.point.fragment cut.point.symbol.text cut.point.offset
  let reported : Draft := { before with events := before.events ++ [event] }
  have hreport : (report event).run before = (.ok (), reported) := rfl
  refine ⟨cut.point, { reported with created := before.created ++ target.created }, hsymbol, rfl,
    rfl, ?_⟩
  rw [flat, SplitTree.ofItems_succ_of_find? hfind, hleftSide, hrightSide, tree,
    Action.run_bind_ok hreport, Action.run_bind_ok (run_target htarget hleft _ _)]
  rfl

end Statement

/-! ## Drafts -/

/-- A draft that does what another does and, between creating its variables, creates a target,
to which it assigns in the end; `front` are the variables created before it and `back` those
after it. -/
structure Draft.Completes (size : Nat) (target : Target) (e : Expr) (front back : List Variable)
    (alone whole : Draft) : Prop where
  created_alone : alone.created = front ++ back
  created : whole.created = front ++ target.created ++ back
  assignments : whole.assignments = alone.assignments ++
    [⟨target.place (size + front.length),
      e.rename (shift (size + front.length) target.created.length)⟩]
  earlier : ∀ a ∈ alone.assignments,
    a.target < size + front.length ∧ a.value.Within (size + front.length)
  within : e.Within (size + alone.created.length)
  valueless : ∀ v ∈ alone.created, v.value = none

namespace Draft

theorem eq_nil_of_append_eq {first second : Draft} (h : first.append second = first) :
    second.created = [] ∧ second.assignments = [] :=
  ⟨List.append_right_eq_self.mp (congrArg created h),
    List.append_right_eq_self.mp (congrArg assignments h)⟩

/-- A target is created after `before`, and then the rest is drafted, which assigns nothing. -/
theorem completes_append {setting : Setting} {target : Target} {e : Expr}
    {before after between : Draft} (hbefore : before.Holds setting fun n e => e.Within n)
    (halone : (before.append after).Holds setting fun n e => e.Within n)
    (he : e.Within (setting.count (before.append after))) (hinert : after.assignments = [])
    (hcreated : between.created = before.created ++ target.created)
    (hassignments : between.assignments = before.assignments)
    {whole : Draft}
    (hwhole : whole.created = (between.append
      (after.rename (shift (setting.count before) target.created.length))).created)
    (hlast : whole.assignments = between.assignments ++ [⟨target.place (setting.count before),
      e.rename (shift (setting.count before) target.created.length)⟩]) :
    Completes setting.known.length target e before.created after.created (before.append after)
      whole := by
  have hvalueless : ∀ v ∈ (before.append after).created, v.value = none :=
    fun v hv => (halone.created v hv).2
  refine ⟨rfl, ?_, ?_, ?_, ?_, hvalueless⟩
  · have hfixed : ∀ v ∈ after.created,
        v.rename (shift (setting.count before) target.created.length) = v := by
      intro v hv
      refine Variable.rename_eq ?_ fun id hid => shift_of_lt hid _
      simp [hvalueless v (List.mem_append_right _ hv)]
    rw [hwhole]
    simp only [append, rename, hcreated, List.map_congr_left hfixed, List.map_id']
  · rw [hlast, hassignments, ← setting.count_eq]
    simp [append, hinert]
  · intro a ha
    have hmem : a ∈ before.assignments := by simpa [append, hinert] using ha
    rw [← setting.count_eq]
    exact ⟨hbefore.target a hmem a.target (List.mem_singleton_self _), hbefore.value a hmem⟩
  · rw [← setting.count_eq]
    exact he

end Draft

namespace Statement

open Drafting Shading.Action

variable {setting : Setting}

/-- The right side of an assignment has one level less than it has alone, which the limit allows
if it does not stop the assignment. -/
theorem run_tree_of_goes {α : Type} {items : List (Item Expr)} {draft whole : Draft}
    {next : Option Expr → Drafting α} {outcome : Except Fault α}
    (h : (tree setting (.ofItems setting.limit items) >>= next).run draft = (outcome, whole))
    (houtcome : isStopped outcome = false) :
    (tree setting (.ofItems setting.limit items)).run draft =
      (tree setting (.ofItems (setting.limit + 1) items)).run draft := by
  have hgoes : isStopped ((tree setting (.ofItems setting.limit items)).run draft).1 = false := by
    cases hstep : (tree setting (.ofItems setting.limit items)).run draft with
    | mk step after =>
        cases step with
        | ok value => rfl
        | error fault =>
            rw [run_bind_error hstep] at h
            rw [← (Prod.mk.inj h).1] at houtcome
            exact houtcome
  have hrises : Lockstep Eq setting.limit
      ((tree setting (.ofItems setting.limit items)).run draft)
      ((tree (setting.withLimit setting.limit) (.ofItems (setting.limit + 1) items)).run draft) :=
    rises_tree (Nat.le_succ _) items draft
  obtain ⟨hresult, hdraft⟩ := hrises.eq_of_goes hgoes
  exact Prod.ext hresult.symm hdraft

/-- An assignment to a variable gives that variable, and sets it if there is a value. -/
theorem run_combine_assignment {point : Occurrence} (h : point.symbol = .assignment)
    (id : VariableId) (right : Option Expr) (draft : Draft) :
    ∃ events, (do
        let result ← combine setting point (some (.var id)) right
        pure (some result) : Drafting (Option Expr)).run draft =
      (.ok (some (.var id)), { draft with
        assignments := draft.assignments ++ (right.map fun e => ⟨id, e⟩).toList
        events := draft.events ++ events }) := by
  cases right with
  | none =>
      refine ⟨[.missingOperand point.fragment point.symbol.text (.var id)], ?_⟩
      rw [Option.map_none, Option.toList_none, List.append_nil]
      rfl
  | some e =>
      refine ⟨[], ?_⟩
      rw [combine, h, List.append_nil]
      rfl

/-- What a flat assignment gives and drafts, from what its right side gives and drafts alone. -/
theorem flat_assignment
    (hscope : ∀ binding ∈ setting.scope.bindings, binding.2 < setting.known.length)
    {left : Text} {target : Target} (htarget : target.Denoted setting.scope left)
    (hleft : ∀ c ∈ left, Symbol.isSymbolChar c = false) {first : Text}
    (hfirst : Occurrence.Unassigning first) {items : List (Item Expr)}
    (hitems : ∀ i ∈ items, i.Unassigning) {before alone whole : Draft}
    (hbefore : before.Holds setting fun n e => e.Within n)
    (hvalues : ∀ i ∈ items, i.Holds (Expr.Within (setting.count before)))
    {result outcome : Except Fault (Option Expr)}
    (halone : (flat setting setting.limit (Item.ofText first ++ items)).run before =
      (result, alone))
    (hwhole : (flat setting setting.limit
      (Item.ofText (left ++ " = ".toList ++ first) ++ items)).run before = (outcome, whole))
    (hgoes : isStopped outcome = false) :
    (∀ fault, result = .error fault → outcome = .error fault) ∧
    (result = .ok none → items = [] ∧
      outcome = .ok (some (.var (target.place (setting.count before)))) ∧
      whole.created = before.created ++ target.created ∧
      whole.assignments = before.assignments) ∧
    ∀ e, result = .ok (some e) →
      outcome = .ok (some (.var (target.place (setting.count before)))) ∧
      ∃ back, Draft.Completes setting.known.length target e before.created back alone whole := by
  have hrightItems : ∀ i ∈ Item.ofText first ++ items, i.Unassigning := by
    intro i hi
    rcases List.mem_append.mp hi with hi | hi
    · exact Item.unassigning_ofText hfirst i hi
    · exact hitems i hi
  have hrightValues : ∀ i ∈ Item.ofText first ++ items,
      i.Holds (Expr.Within (setting.count before)) := by
    intro i hi
    rcases List.mem_append.mp hi with hi | hi
    · exact Item.holds_ofText _ first i hi
    · exact hvalues i hi
  -- The left side comes first and leaves the draft `between`, with the target created.
  obtain ⟨point, between, hsymbol, hcreated, hassignments, hrun⟩ :=
    run_flat_assignment htarget hleft hfirst hitems setting.limit before
  -- Behind it the right side does what it does alone, up to the place of what it creates.
  obtain ⟨result', after, hright, hshifted⟩ :=
    run_tree_behind hscope hcreated (setting.limit + 1) hrightValues
  obtain ⟨rfl, rfl⟩ : result' = result ∧ before.append after = alone := by
    rw [flat, hright] at halone
    exact Prod.mk.inj halone
  rw [hrun] at hwhole
  -- It has one level less there, but if that were too few the assignment would not go through.
  have hsame : (tree setting (.ofItems setting.limit (Item.ofText first ++ items))).run between =
      (tree setting (.ofItems (setting.limit + 1) (Item.ofText first ++ items))).run between :=
    run_tree_of_goes hwhole hgoes
  rw [hshifted] at hsame
  cases result' with
  | error fault =>
      rw [Action.run_bind_error hsame] at hwhole
      obtain ⟨rfl, -⟩ := Prod.mk.inj hwhole
      refine ⟨fun other h => ?_, fun h => ?_, fun e h => ?_⟩
      · cases h
        rfl
      · cases h
      · cases h
  | ok value =>
      rw [Action.run_bind_ok hsame] at hwhole
      obtain ⟨events, hcombined⟩ := run_combine_assignment hsymbol
        (target.place (setting.count before)) _ _
      rw [hcombined] at hwhole
      obtain ⟨rfl, rfl⟩ := Prod.mk.inj hwhole
      refine ⟨fun other h => ?_, fun h => ?_, fun e h => ⟨rfl, after.created, ?_⟩⟩
      · cases h
      · -- No value: then there are no items on the right, and nothing is drafted for them.
        obtain rfl := Except.ok.inj h
        obtain ⟨hnil, hunchanged⟩ := flat_eq_none halone
        obtain ⟨hnone, hinert⟩ := Draft.eq_nil_of_append_eq hunchanged
        refine ⟨(List.append_eq_nil_iff.mp hnil).2, rfl, ?_, ?_⟩
        · simp [Draft.append, Draft.rename, hcreated, hnone]
        · simp [Draft.append, Draft.rename, hassignments, hinert]
      · -- A value: it is over the variables there are, and the assignment to the target is last.
        obtain rfl := Except.ok.inj h
        obtain ⟨hdraft, -, hwithin⟩ := keeps_flat (closed_within hscope) setting.limit hrightValues
          before hbefore (Nat.le_refl _)
        have hflat : Inert (flat setting setting.limit (Item.ofText first ++ items))
            fun _ => True := inert_flat setting.limit hrightItems
        obtain ⟨hkept, -⟩ := hflat before
        rw [halone] at hdraft hwithin hkept
        have hinert : after.assignments = [] := List.append_right_eq_self.mp hkept
        refine Draft.completes_append hbefore hdraft (hwithin _ rfl e rfl) hinert hcreated
          hassignments rfl ?_
        simp [Draft.append, Draft.rename, hinert]

/-- What an assignment gives and drafts, from what its right side gives and drafts alone. -/
theorem value_assignment
    (hscope : ∀ binding ∈ setting.scope.bindings, binding.2 < setting.known.length)
    {left : Text} {target : Target} (htarget : target.Denoted setting.scope left)
    (hleft : ∀ c ∈ left, Symbol.isSymbolChar c = false) {first : Text}
    (hfirst : Occurrence.Unassigning first) {rest : List Piece}
    (hrest : ∀ fragment, Piece.text fragment ∈ rest → Occurrence.Unassigning fragment)
    {result outcome : Except Fault (Option Expr)} {alone whole : Draft}
    (halone : (value setting (Piece.ofText first ++ rest)).run {} = (result, alone))
    (hwhole : (value setting (Piece.ofText (left ++ " = ".toList ++ first) ++ rest)).run
      {} = (outcome, whole))
    (hgoes : isStopped outcome = false) :
    (∀ fault, result = .error fault → outcome = .error fault) ∧
    (result = .ok none → outcome = .ok (some (.var (target.place setting.known.length))) ∧
      whole.created = target.created ∧ whole.assignments = []) ∧
    ∀ e, result = .ok (some e) → ∃ front back,
      outcome = .ok (some (.var (target.place (setting.known.length + front.length)))) ∧
      Draft.Completes setting.known.length target e front back alone whole := by
  have hempty : Draft.Holds setting (fun n e => e.Within n) {} :=
    ⟨by simp, by simp, by simp⟩
  obtain ⟨hbefore, -, hvalues⟩ := keeps_pieces (closed_within hscope) setting.limit 0 rest {}
    hempty (Nat.zero_le _)
  have hpieces : ∀ text : Text,
      (pieces setting setting.limit (Piece.ofText text ++ rest)).run {} = _ :=
    fun text => run_pieces_ofText setting.limit text rest {}
  cases hgroups : (pieces setting setting.limit rest).run {} with
  | mk groups before =>
      simp only [hgroups] at hbefore hvalues hpieces
      -- The groups come first either way, so they draft the same and fail alike.
      cases groups with
      | error fault =>
          rw [value, Action.run_bind_error (hpieces _)] at halone hwhole
          obtain ⟨rfl, -⟩ := Prod.mk.inj halone
          obtain ⟨rfl, -⟩ := Prod.mk.inj hwhole
          refine ⟨fun other h => h, fun h => ?_, fun e h => ?_⟩
          · cases h
          · cases h
      | ok items =>
          rw [value, Action.run_bind_ok (hpieces _)] at halone hwhole
          obtain ⟨hfault, hnone, hsome⟩ := flat_assignment hscope htarget hleft hfirst
            (unassigning_pieces hrest hgroups) hbefore (hvalues items rfl) halone hwhole hgoes
          refine ⟨hfault, fun h => ?_, fun e h => ?_⟩
          · obtain ⟨rfl, houtcome, hcreated, hassignments⟩ := hnone h
            obtain rfl := pieces_eq_nil hgroups
            rw [setting.count_eq] at houtcome
            exact ⟨houtcome, hcreated, hassignments⟩
          · obtain ⟨houtcome, back, hcompletes⟩ := hsome e h
            rw [setting.count_eq] at houtcome
            exact ⟨before.created, back, houtcome, hcompletes⟩

end Statement

/-! ## Stores -/

theorem Target.hoist_place {target : Target} {n m size : Nat} (h : n ≤ m) (hle : size ≤ n)
    (hbound : ∀ id, target = .bound id → id < size) :
    hoist n m target.created.length (target.place m) = target.place n := by
  cases target with
  | bound id => exact hoist_of_lt (Nat.lt_of_lt_of_le (hbound id rfl) hle) _ _
  | declared v =>
      have hcases := hoist_cases h 1 m
      change hoist n m 1 m = n
      omega

/-- The store after a draft with a target in its midst is that after the draft alone, with the
target created at the end and then assigned to. -/
theorem Draft.Completes.renamed {store : Store} {target : Target} {e : Expr}
    {front back : List Variable} {alone whole : Draft}
    (h : Completes store.size target e front back alone whole)
    (hvalues : store.All fun _ v => ∀ e ∈ v.value, e.Within store.size)
    (htarget : ∀ v ∈ target.created, v.value = none)
    (hbound : ∀ id, target = .bound id → id < store.size) :
    (((store.commit alone).append target.created).assign (target.place (store.commit alone).size)
        e).Renamed
      (hoist (store.size + front.length) (store.commit alone).size target.created.length)
      (store.commit whole) := by
  let base := store.append front
  have hbaseSize : base.size = store.size + front.length := Store.size_append store front
  have hsize : (store.commit alone).size = base.size + back.length := by
    rw [Store.size_commit, h.created_alone, List.length_append, hbaseSize, Nat.add_assoc]
  have hbase : base.All fun _ v => ∀ e ∈ v.value, e.Within base.size := by
    have hmono : store.All fun _ v => ∀ e ∈ v.value, e.Within base.size := by
      intro id v hv e he
      exact (hvalues id v hv e he).mono (by omega)
    refine hmono.append fun v hv _ _ => ?_
    simp [h.valueless v (by simp [h.created_alone, hv])]
  let ρ := hoist base.size (base.size + back.length) target.created.length
  have hinjective : Function.Injective ρ := hoist_injective (Nat.le_add_right _ _) _
  have hbelow : ∀ id, id < base.size → ρ id = id := fun id hid => hoist_of_lt hid _ _
  have hcreated : ((base.append back).append target.created).Renamed ρ
      ((base.append target.created).append back) := by
    refine Store.renamed_hoist hbase (fun v hv => ?_) htarget
    exact h.valueless v (by simp [h.created_alone, hv])
  -- What was assigned before the target is there to be assigned to, so it has not moved.
  have hearlier : alone.assignments.map (Assignment.rename ρ) = alone.assignments := by
    have hfixed : ∀ a ∈ alone.assignments, a.rename ρ = a := by
      intro a ha
      obtain ⟨hlt, hwithin⟩ := h.earlier a ha
      rw [← hbaseSize] at hlt hwithin
      rw [Assignment.rename, hbelow _ hlt, hwithin.rename_eq hbelow]
    rw [List.map_congr_left hfixed, List.map_id']
  have halone : (store.commit alone).append target.created =
      ((base.append back).append target.created).assignAll alone.assignments := by
    have hexists : ∀ a ∈ alone.assignments, a.target < (base.append back).size := by
      intro a ha
      refine Nat.lt_of_lt_of_le (h.earlier a ha).1 ?_
      rw [Store.size_append, hbaseSize]
      omega
    rw [Store.assignAll_append hexists, Store.commit, h.created_alone, ← Store.append_append]
  have hwhole : store.commit whole =
      (((base.append target.created).append back).assignAll alone.assignments).assign
        (target.place base.size) (e.rename (shift base.size target.created.length)) := by
    rw [Store.commit, h.created, h.assignments, ← Store.append_append, ← Store.append_append,
      ← hbaseSize]
    simp [Store.assignAll, List.foldl_append, base]
  have hplace : ρ (target.place (base.size + back.length)) = target.place base.size :=
    Target.hoist_place (Nat.le_add_right _ _) (by omega) hbound
  have hvalue : e.rename ρ = e.rename (shift base.size target.created.length) := by
    refine Expr.rename_congr fun id hid => hoist_eq_shift ?_ _
    refine Nat.lt_of_lt_of_le (h.within id hid) ?_
    rw [h.created_alone, List.length_append, hbaseSize]
    omega
  have hassigned := (hcreated.assignAll hinjective alone.assignments).assign hinjective
    (target.place (base.size + back.length)) e
  rw [hearlier, hplace, hvalue] at hassigned
  rw [halone, hwhole, hsize, ← hbaseSize]
  exact hassigned

/-! ## Sessions -/

namespace Session

/-- Cuts a text at round brackets and evaluates the pieces. -/
def evaluateText (text : Text) : Run (Option Expr) := do
  let session ← .state
  let parts ← .ofExcept (Brackets.paren.cut session.options.limit text)
  evaluate parts

theorem run_evaluateText_ok {session : Session} {text : Text} {parts : List Piece}
    (h : Brackets.paren.cut session.options.limit text = .ok parts) :
    (evaluateText text).run session = (evaluate parts).run session := by
  rw [evaluateText, Action.run_bind_ok (Action.run_state session), h]
  rfl

theorem run_evaluateText_error {session : Session} {text : Text} {fault : Fault}
    (h : Brackets.paren.cut session.options.limit text = .error fault) :
    (evaluateText text).run session = (.error fault, session) := by
  rw [evaluateText, Action.run_bind_ok (Action.run_state session), h]
  rfl

/-- A plain text in front of a text without assignments outside groups: unless the limit stops it,
the two are evaluated like the second alone, with the first in front of its first fragment. -/
theorem exists_evaluateText_lead {session : Session} {lead right : Text}
    (hlead : ∀ c ∈ lead, Brackets.paren.isPlain c = true)
    (hright : ∀ parts, Brackets.paren.cut session.options.limit right = .ok parts →
      ∀ fragment, Piece.text fragment ∈ parts →
        ∀ o ∈ Occurrence.scan fragment, o.symbol.text ≠ ['='])
    (hgoes : Action.isStopped ((evaluateText (lead ++ right)).run session).1 = false) :
    ∃ first rest, Occurrence.Unassigning first ∧
      (∀ fragment, Piece.text fragment ∈ rest → Occurrence.Unassigning fragment) ∧
      (evaluateText right).run session = (evaluate (Piece.ofText first ++ rest)).run session ∧
      (evaluateText (lead ++ right)).run session =
        (evaluate (Piece.ofText (lead ++ first) ++ rest)).run session := by
  rcases Brackets.cut_lead hlead session.options.limit right with
    hstopped | ⟨first, rest, hcut, hcut'⟩
  · rw [run_evaluateText_error hstopped] at hgoes
    cases hgoes
  have hparts : ∀ fragment, Piece.text fragment ∈ Piece.ofText first ++ rest →
      Occurrence.Unassigning fragment :=
    fun fragment hmem => Occurrence.unassigning_of_scan (hright _ hcut fragment hmem)
  refine ⟨first, rest, ?_, ?_, run_evaluateText_ok hcut, run_evaluateText_ok hcut'⟩
  · apply Occurrence.unassigning_of_ofText
    exact fun fragment hmem => hparts fragment (List.mem_append_left _ hmem)
  · exact fun fragment hmem => hparts fragment (List.mem_append_right _ hmem)

/-- What a session does with an assignment to a target, compared with what it does with the right
side alone.  The store is then that after the right side, with the target created if it is
declared, and with its value set, up to the order in which new variables were created. -/
structure Assigns (session : Session) (target : Target)
    (alone whole : Except Fault (Option Expr) × Session) : Prop where
  fault : ∀ fault, alone.1 = .error fault → whole.1 = .error fault
  untouched : alone.1 = .ok none →
    whole.1 = .ok (some (.var (target.place session.store.size))) ∧
    whole.2.store = session.store.append target.created
  assigned : ∀ e, alone.1 = .ok (some e) → ∃ ρ, Function.Injective ρ ∧
    (∀ id, id < session.store.size → ρ id = id) ∧
    whole.1 = .ok (some (.var (ρ (target.place alone.2.store.size)))) ∧
    ((alone.2.store.append target.created).assign (target.place alone.2.store.size) e).Renamed ρ
      whole.2.store

/-- Unless the limit stops it, an assignment gives its target and sets it to what its right side
resolves to alone, also if that one refers to the target or assigns to it in a group. -/
theorem evaluate_assignment {session : Session} (hscope : session.Allocated)
    (hvalues : session.store.All fun _ v => ∀ e ∈ v.value, e.Within session.store.size)
    {left right : Text} {target : Target} (htarget : target.Denoted session.scope left)
    (hleft : ∀ c ∈ left, Symbol.isSymbolChar c = false ∧ Brackets.paren.isPlain c = true)
    (hright : ∀ parts, Brackets.paren.cut session.options.limit right = .ok parts →
      ∀ fragment, Piece.text fragment ∈ parts →
        ∀ o ∈ Occurrence.scan fragment, o.symbol.text ≠ ['='])
    (hgoes : Action.isStopped ((evaluateText (left ++ " = ".toList ++ right)).run session).1 =
      false) :
    session.Assigns target ((evaluateText right).run session)
      ((evaluateText (left ++ " = ".toList ++ right)).run session) := by
  have hfree : ∀ c ∈ left, Symbol.isSymbolChar c = false := fun c hc => (hleft c hc).1
  have hlead : ∀ c ∈ left ++ " = ".toList, Brackets.paren.isPlain c = true := by
    intro c hc
    rcases List.mem_append.mp hc with hc | hc
    · exact (hleft c hc).2
    · have hequals : ∀ c ∈ " = ".toList, Brackets.paren.isPlain c = true := by decide +kernel
      exact hequals c hc
  have hknown : session.setting.known.length = session.store.size := by simp [setting]
  have hbindings : ∀ binding ∈ session.setting.scope.bindings,
      binding.2 < session.setting.known.length := by
    rw [hknown]
    exact hscope
  -- The assignment is the right side with more text in its first fragment.
  obtain ⟨first, rest, hfirst, hrest, halone, hwhole⟩ := exists_evaluateText_lead hlead hright hgoes
  obtain ⟨result, drafted, hresult⟩ : ∃ result drafted,
      (Statement.value session.setting (Piece.ofText first ++ rest)).run {} =
        (result, drafted) := ⟨_, _, rfl⟩
  obtain ⟨outcome, drafted', houtcome⟩ : ∃ outcome drafted,
      (Statement.value session.setting
        (Piece.ofText (left ++ " = ".toList ++ first) ++ rest)).run {} =
        (outcome, drafted) := ⟨_, _, rfl⟩
  rw [run_evaluate, hresult] at halone
  rw [run_evaluate, houtcome] at hwhole
  rw [hwhole] at hgoes
  obtain ⟨hfault, hnone, hsome⟩ := Statement.value_assignment hbindings htarget hfree hfirst hrest
    hresult houtcome hgoes
  rw [halone, hwhole]
  refine ⟨hfault, fun h => ?_, fun e h => ?_⟩
  · obtain ⟨hvar, hcreated, hassignments⟩ := hnone h
    rw [hknown] at hvar
    refine ⟨hvar, ?_⟩
    simp [commit, Store.commit, hcreated, hassignments, Store.assignAll]
  · -- Alone, the right side creates `front` and `back`.  A declared target comes between the two,
    -- and the renaming takes it there from the end of the store.
    obtain ⟨front, back, hvar, hcompletes⟩ := hsome e h
    rw [hknown] at hvar hcompletes
    have hle : session.store.size + front.length ≤ (session.store.commit drafted).size := by
      rw [Store.size_commit, hcompletes.created_alone, List.length_append]
      omega
    have hplace := Target.hoist_place hle (Nat.le_add_right _ _) (htarget.lt_size hscope)
    refine ⟨_, hoist_injective hle target.created.length, fun id hid => ?_, ?_,
      hcompletes.renamed hvalues htarget.value_eq_none (htarget.lt_size hscope)⟩
    · exact hoist_of_lt (Nat.lt_of_lt_of_le hid (Nat.le_add_right _ _)) _ _
    · rw [hvar]
      exact congrArg (fun id => Except.ok (some (Expr.var id))) hplace.symm

/-- The right side assigns to `x`, on which its value depends, and declares one variable in a
group and one outside.  An assignment to `x` overwrites what the group has set; a declaration of
`v` comes between the two others, and moves the one outside by a place in the value of `v`. -/
theorem evaluate_assignment_nested :
    let x : Variable := .single .float (some ['x'])
    let v : Variable := .vector .float 3 (some ['v'])
    let session : Session :=
      { scope := ⟨[(['x'], 0)]⟩, store := ⟨#[{ x with value := some (.var 0) }]⟩ }
    let right : Text := "(x = -x) + (int a) * float b".toList
    let r (b : VariableId) : Expr := .binary .multiply (.binary .add (.var 0) (.var 1)) (.var b)
    let run (text : Text) := (evaluateText text).run session
    (run right).1 = .ok (some (r 2)) ∧
    (run right).2.store.get? 0 = some { x with value := some (.unary .negate (.var 0)) } ∧
    session.Assigns (.bound 0) (run right) (run ("x".toList ++ " = ".toList ++ right)) ∧
    (run ("x".toList ++ " = ".toList ++ right)).1 = .ok (some (.var 0)) ∧
    (run ("x".toList ++ " = ".toList ++ right)).2.store.get? 0 =
      some { x with value := some (r 2) } ∧
    session.Assigns (.declared v) (run right) (run ("vec3 v".toList ++ " = ".toList ++ right)) ∧
    (run ("vec3 v".toList ++ " = ".toList ++ right)).1 = .ok (some (.var 2)) ∧
    (run ("vec3 v".toList ++ " = ".toList ++ right)).2.store.get? 2 =
      some { v with value := some (r 3) } := by
  intro x v session right r run
  have hscope : session.Allocated := by
    intro binding hbinding
    rw [List.mem_singleton.mp hbinding]
    exact Nat.one_pos
  have hvalues : session.store.All fun _ v => ∀ e ∈ v.value, e.Within session.store.size := by
    intro id v hv e he
    cases id with
    | zero =>
        obtain rfl : { x with value := some (.var 0) } = v := by
          simpa [session, Store.get?] using hv
        obtain rfl : .var 0 = e := by simpa using he
        simp [Expr.Within, Expr.vars, session, Store.size]
    | succ id => simp [session, Store.get?] at hv
  have hright : ∀ parts, Brackets.paren.cut session.options.limit right = .ok parts →
      ∀ fragment, Piece.text fragment ∈ parts →
        ∀ o ∈ Occurrence.scan fragment, o.symbol.text ≠ ['='] := by
    intro parts hparts fragment hmem
    have htexts : (Brackets.paren.cut session.options.limit right).map
        (·.filterMap Piece.text?) = .ok ["+".toList, "* float b".toList] := by
      decide +kernel
    have hfree : ∀ fragment ∈ ["+".toList, "* float b".toList],
        ∀ o ∈ Occurrence.scan fragment, o.symbol.text ≠ ['='] := by
      decide +kernel
    rw [hparts] at htexts
    refine hfree fragment ?_
    rw [← Except.ok.inj htexts]
    exact List.mem_filterMap.mpr ⟨_, hmem, rfl⟩
  have hbound : (Target.bound 0).Denoted session.scope "x".toList :=
    .bound (by decide +kernel) (by decide +kernel) (by decide +kernel)
  have hdeclared : (Target.declared v).Denoted session.scope "vec3 v".toList :=
    .declared (by decide +kernel)
  have halone : (run right).1 = .ok (some (r 2)) ∧
      (run right).2.store.get? 0 = some { x with value := some (.unary .negate (.var 0)) } := by
    decide +kernel
  have hsets : (run ("x".toList ++ " = ".toList ++ right)).1 = .ok (some (.var 0)) ∧
      (run ("x".toList ++ " = ".toList ++ right)).2.store.get? 0 =
        some { x with value := some (r 2) } := by
    decide +kernel
  have hdeclares : (run ("vec3 v".toList ++ " = ".toList ++ right)).1 = .ok (some (.var 2)) ∧
      (run ("vec3 v".toList ++ " = ".toList ++ right)).2.store.get? 2 =
        some { v with value := some (r 3) } := by
    decide +kernel
  have hgoes : ∀ {text : Text} {id : VariableId}, (run text).1 = .ok (some (.var id)) →
      Action.isStopped (run text).1 = false := by
    intro text id h
    rw [h]
    rfl
  exact ⟨halone.1, halone.2,
    evaluate_assignment hscope hvalues hbound (by decide +kernel) hright (hgoes hsets.1), hsets.1,
    hsets.2,
    evaluate_assignment hscope hvalues hdeclared (by decide +kernel) hright (hgoes hdeclares.1),
    hdeclares⟩

end Session

end Shading
