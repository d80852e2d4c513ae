import Shading.Session

/-!
# Committing a draft

A draft adds its variables behind those that exist and then sets values.  So after a
commit the variables that existed have their identities, and nothing but values has
changed.  `All.commit` is the rule for carrying a property of variables, which may depend
on their identity, over a commit.
-/

namespace Shading

namespace Store

@[simp] theorem size_append (store : Store) (created : List Variable) :
    (store.append created).size = store.size + created.length := by
  simp [append, size]

@[simp] theorem size_assignAll (store : Store) (assignments : List Assignment) :
    (store.assignAll assignments).size = store.size := by
  unfold assignAll
  induction assignments generalizing store with
  | nil => rfl
  | cons a rest ih => rw [List.foldl_cons, ih, size_assign]

@[simp] theorem commit_nil (store : Store) (events : List Event) :
    store.commit { events } = store := by
  simp [commit, append, assignAll]

@[simp] theorem size_commit (store : Store) (draft : Draft) :
    (store.commit draft).size = store.size + draft.created.length := by
  simp [commit]

theorem get?_eq_none {store : Store} {id : VariableId} (h : store.size ≤ id) :
    store.get? id = none := by
  simpa [get?, size] using h

theorem lt_size_of_get? {store : Store} {id : VariableId} {v : Variable}
    (h : store.get? id = some v) :
    id < store.size := by
  rcases Nat.lt_or_ge id store.size with hlt | hge
  · exact hlt
  · rw [get?_eq_none hge] at h
    cases h

theorem get?_append (store : Store) (created : List Variable) (id : VariableId) :
    (store.append created).get? id =
      if id < store.size then store.get? id else created[id - store.size]? := by
  simp only [append, get?, size, Array.getElem?_append, List.getElem?_toArray]
  rfl

theorem get?_assign (store : Store) (target id : VariableId) (e : Expr) :
    (store.assign target e).get? id =
      (store.get? id).map fun v => if target = id then { v with value := some e } else v := by
  simp only [assign, get?, Array.getElem?_modify]
  split
  · rfl
  · simp

/-! ## Labels and values -/

@[simp] theorem labels_append (store : Store) (created : List Variable) :
    (store.append created).labels = store.labels ++ created.map Variable.label := by
  simp [append, labels]

theorem getElem?_labels (store : Store) (id : VariableId) :
    store.labels[id]? = (store.get? id).map Variable.label := by
  simp [labels, get?]

@[simp] theorem labels_assign (store : Store) (target : VariableId) (e : Expr) :
    (store.assign target e).labels = store.labels := by
  refine List.ext_getElem? fun id => ?_
  rw [getElem?_labels, getElem?_labels, get?_assign, Option.map_map]
  congr 1
  funext v
  by_cases heq : target = id
  · simp [heq]
  · simp [heq]

@[simp] theorem labels_commit (store : Store) (draft : Draft) :
    (store.commit draft).labels = store.labels ++ draft.created.map Variable.label := by
  have hall : ∀ (store : Store) (assignments : List Assignment),
      (store.assignAll assignments).labels = store.labels := by
    intro store assignments
    unfold assignAll
    induction assignments generalizing store with
    | nil => rfl
    | cons a rest ih => rw [List.foldl_cons, ih, labels_assign]
  rw [commit, hall, labels_append]

end Store

/-- The value last assigned to a variable. -/
def Assignment.last? (id : VariableId) : List Assignment → Option Expr
  | [] => none
  | a :: rest =>
      match last? id rest with
      | some e => some e
      | none => if a.target = id then some a.value else none

/-- The value that a draft leaves a variable with, if it assigns to it. -/
def Draft.written? (draft : Draft) (id : VariableId) : Option Expr :=
  Assignment.last? id draft.assignments

/-- A variable after its value was set, or not. -/
def Variable.write (v : Variable) : Option Expr → Variable
  | some e => { v with value := some e }
  | none => v

@[simp] theorem Variable.write_none (v : Variable) : v.write none = v := rfl

@[simp] theorem Variable.write_some (v : Variable) (e : Expr) :
    v.write (some e) = { v with value := some e } := rfl

namespace Store

theorem get?_assignAll (store : Store) (assignments : List Assignment) (id : VariableId) :
    (store.assignAll assignments).get? id =
      (store.get? id).map fun v => v.write (Assignment.last? id assignments) := by
  unfold assignAll
  induction assignments generalizing store with
  | nil => simp [Assignment.last?]
  | cons a rest ih =>
      rw [List.foldl_cons, ih, get?_assign, Option.map_map]
      congr 1
      funext v
      rw [Assignment.last?]
      cases Assignment.last? id rest with
      | some e =>
          by_cases heq : a.target = id
          · simp [heq]
          · simp [heq]
      | none =>
          by_cases heq : a.target = id
          · simp [heq]
          · simp [heq]

/-- A variable that existed has its last value afterwards. -/
theorem get?_commit {store : Store} {id : VariableId} (h : id < store.size) (draft : Draft) :
    (store.commit draft).get? id = (store.get? id).map fun v => v.write (draft.written? id) := by
  rw [commit, get?_assignAll, get?_append, if_pos h]
  rfl

/-! ## Properties of variables -/

/-- A property of all variables, by identity. -/
def All (Q : VariableId → Variable → Prop) (store : Store) : Prop :=
  ∀ id v, store.get? id = some v → Q id v

variable {Q : VariableId → Variable → Prop} {store : Store}

theorem All.append (h : store.All Q) {created : List Variable}
    (hcreated : ∀ v ∈ created, ∀ id, store.size ≤ id → Q id v) : (store.append created).All Q := by
  intro id v hv
  rw [get?_append] at hv
  split at hv
  · exact h id v hv
  next hge => exact hcreated v (List.mem_of_getElem? hv) id (Nat.le_of_not_lt hge)

theorem All.assign (h : store.All Q) {target : VariableId} {e : Expr}
    (hassign : ∀ v, Q target v → Q target { v with value := some e }) :
    (store.assign target e).All Q := by
  intro id v hv
  rw [get?_assign] at hv
  obtain ⟨w, hw, rfl⟩ := Option.map_eq_some_iff.mp hv
  split
  next heq =>
    subst heq
    exact hassign w (h target w hw)
  · exact h id w hw

/-- A property that newly created variables have and that every assignment keeps. -/
theorem All.commit (h : store.All Q) {draft : Draft}
    (hcreated : ∀ v ∈ draft.created, ∀ id, store.size ≤ id → Q id v)
    (hassign : ∀ a ∈ draft.assignments, ∀ v, Q a.target v →
      Q a.target { v with value := some a.value }) :
    (store.commit draft).All Q := by
  have hall : ∀ {store : Store} {assignments : List Assignment}, store.All Q →
      (∀ a ∈ assignments, ∀ v, Q a.target v → Q a.target { v with value := some a.value }) →
      (store.assignAll assignments).All Q := by
    intro store assignments hstore hsteps
    induction assignments generalizing store with
    | nil => exact hstore
    | cons a rest ih =>
        exact ih (hstore.assign (hsteps a (List.mem_cons_self ..)))
          fun b hb => hsteps b (List.mem_cons_of_mem _ hb)
  exact hall (h.append hcreated) hassign

end Store

/-! ## Sessions -/

namespace Session

theorem run_evaluate (parts : List Piece) (session : Session) :
    (evaluate parts).run session =
      (((Statement.value session.setting parts).run {}).1,
        session.commit ((Statement.value session.setting parts).run {}).2) := rfl

@[simp] theorem store_enterScope (result : Expr) (session : Session) :
    (enterScope result session).store = session.store := by
  unfold enterScope
  split
  · split <;> rfl
  · rfl

end Session

end Shading
