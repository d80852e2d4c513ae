import Shading.Proofs.Frame
import Shading.Proofs.Independence

/-!
# Stores up to the order of their variables

A variable's identity is its place in the store, so two ways of creating the same variables
in another order lead to different stores.  `Store.Renamed` relates them: one is the other
with its variables moved, and with the identities in their values changed accordingly.

Assignments go along with a renaming (`Renamed.assign`, `Renamed.assignAll`), and `hoist`
is the renaming between two orders of creation: it brings a block of variables in front of
another one, and leaves alone what was there before both.

* `Expr.Within`: the variables of an expression are among the first so many.
* `renamed_hoist`: two lists of variables, created in either order.
-/

namespace Shading

/-! ## Expressions -/

namespace Expr

variable {ρ σ : VariableId → VariableId} {n m : Nat} {e : Expr}

/-- Every variable of the expression is among the first `size`. -/
def Within (size : Nat) (e : Expr) : Prop :=
  ∀ id ∈ e.vars, id < size

theorem Within.mono (h : e.Within n) (hle : n ≤ m) : e.Within m :=
  fun id hid => Nat.lt_of_lt_of_le (h id hid) hle

/-- A renaming matters only at the variables of an expression. -/
theorem rename_congr (h : ∀ id ∈ e.vars, ρ id = σ id) : e.rename ρ = e.rename σ := by
  induction e with
  | unary operation input ih => rw [rename, rename, ih h]
  | binary operation left right ihleft ihright =>
      rw [rename, rename, ihleft fun id hid => h id (List.mem_append_left _ hid),
        ihright fun id hid => h id (List.mem_append_right _ hid)]
  | var id => rw [rename, rename, h id (List.mem_singleton_self id)]
  | literal value => rfl
  | name text => rfl

theorem rename_id (e : Expr) : e.rename id = e := by
  induction e with
  | unary operation input ih => rw [rename, ih]
  | binary operation left right ihleft ihright => rw [rename, ihleft, ihright]
  | var id => rfl
  | literal value => rfl
  | name text => rfl

theorem Within.rename_eq (h : e.Within n) (hρ : ∀ id, id < n → ρ id = id) : e.rename ρ = e :=
  (rename_congr fun id hid => hρ id (h id hid)).trans e.rename_id

end Expr

/-- Resolving a statement refers to no variables but those that exist by then. -/
theorem closed_within {setting : Setting}
    (hscope : ∀ binding ∈ setting.scope.bindings, binding.2 < setting.known.length) :
    Closed setting fun n e => e.Within n where
  mono hle h := h.mono hle
  bound := by
    intro n word id hn hfind other hother
    rw [List.mem_singleton.mp hother]
    exact Nat.lt_of_lt_of_le (hscope _ (Scope.mem_bindings_of_find? hfind)) hn
  fresh := by
    intro n id _ hlt other hother
    rw [List.mem_singleton.mp hother]
    exact hlt
  literal _ id hid := by simp [Expr.vars] at hid
  name id hid := by simp [Expr.vars] at hid
  unary _ h := h
  binary := by
    intro n operation a b _ ha hb id hid
    rcases List.mem_append.mp hid with hid | hid
    · exact ha id hid
    · exact hb id hid

theorem Variable.rename_eq {ρ : VariableId → VariableId} {n : Nat} {v : Variable}
    (h : ∀ e ∈ v.value, e.Within n) (hρ : ∀ id, id < n → ρ id = id) : v.rename ρ = v := by
  cases hvalue : v.value with
  | none => cases v; simp_all [rename]
  | some e =>
      have he : e.rename ρ = e := (h e (by simp [hvalue])).rename_eq hρ
      cases v
      simp_all [rename]

/-! ## Stores -/

namespace Store

variable {ρ : VariableId → VariableId} {store other : Store}

/-- The second store is the first with its variables renamed. -/
structure Renamed (ρ : VariableId → VariableId) (store other : Store) : Prop where
  size : other.size = store.size
  get : ∀ id, other.get? (ρ id) = (store.get? id).map (Variable.rename ρ)

theorem ext_get? (h : ∀ id, store.get? id = other.get? id) : store = other := by
  cases store
  cases other
  exact congrArg Store.mk (Array.ext_getElem? h)

theorem Renamed.assign (h : store.Renamed ρ other) (hρ : Function.Injective ρ)
    (target : VariableId) (e : Expr) :
    (store.assign target e).Renamed ρ (other.assign (ρ target) (e.rename ρ)) := by
  refine ⟨by simp [h.size], fun id => ?_⟩
  rw [get?_assign, get?_assign, h.get, Option.map_map, Option.map_map]
  congr 1
  funext v
  by_cases heq : target = id
  · subst heq
    simp [Variable.rename]
  · have hne : ρ target ≠ ρ id := fun hsame => heq (hρ hsame)
    simp [heq, hne]

theorem Renamed.assignAll (h : store.Renamed ρ other) (hρ : Function.Injective ρ)
    (assignments : List Assignment) :
    (store.assignAll assignments).Renamed ρ
      (other.assignAll (assignments.map (Assignment.rename ρ))) := by
  induction assignments generalizing store other with
  | nil => exact h
  | cons a rest ih => exact ih (h.assign hρ a.target a.value)

theorem append_append (store : Store) (first second : List Variable) :
    (store.append first).append second = store.append (first ++ second) := by
  simp [append]

/-- Assigning to variables that exist and creating further ones may change places. -/
theorem assignAll_append {assignments : List Assignment}
    (h : ∀ a ∈ assignments, a.target < store.size) (created : List Variable) :
    (store.append created).assignAll assignments =
      (store.assignAll assignments).append created := by
  refine ext_get? fun id => ?_
  rw [get?_assignAll, get?_append, get?_append, size_assignAll, get?_assignAll]
  split
  · rfl
  next hge =>
    have hnone : Assignment.last? id assignments = none :=
      Assignment.last?_eq_none fun a ha => Nat.ne_of_lt (Nat.lt_of_lt_of_le (h a ha)
        (Nat.le_of_not_lt hge))
    rw [hnone]
    simp

end Store

/-! ## Two orders of creation -/

/-- Brings the `k` variables from `m` on in front of those from `n` on. -/
def hoist (n m k id : Nat) : Nat :=
  if id < n then id
  else if id < m then id + k
  else if id < m + k then id - (m - n)
  else id

theorem hoist_of_lt {n id : Nat} (h : id < n) (m k : Nat) : hoist n m k id = id :=
  if_pos h

theorem hoist_cases {n m : Nat} (h : n ≤ m) (k id : Nat) :
    (id < n ∧ hoist n m k id = id) ∨ (n ≤ id ∧ id < m ∧ hoist n m k id = id + k) ∨
      (m ≤ id ∧ id < m + k ∧ hoist n m k id = n + (id - m)) ∨
      (m + k ≤ id ∧ hoist n m k id = id) := by
  unfold hoist
  split
  next hlow => exact .inl ⟨hlow, rfl⟩
  next hlow =>
    split
    next hmiddle => exact .inr (.inl ⟨Nat.le_of_not_lt hlow, hmiddle, rfl⟩)
    next hmiddle =>
      split
      next hhigh => exact .inr (.inr (.inl ⟨Nat.le_of_not_lt hmiddle, hhigh, by omega⟩))
      next hhigh => exact .inr (.inr (.inr ⟨Nat.le_of_not_lt hhigh, rfl⟩))

theorem hoist_injective {n m : Nat} (h : n ≤ m) (k : Nat) : Function.Injective (hoist n m k) := by
  intro a b hab
  have ha := hoist_cases h k a
  have hb := hoist_cases h k b
  omega

/-- Where the block does not stand, bringing it forward makes room for it. -/
theorem hoist_eq_shift {n m id : Nat} (h : id < m) (k : Nat) : hoist n m k id = shift n k id := by
  unfold hoist shift
  simp only [h, if_true]

/-- Two lists of variables without values, created in either order. -/
theorem Store.renamed_hoist {store : Store}
    (hvalues : store.All fun _ v => ∀ e ∈ v.value, e.Within store.size)
    {first second : List Variable} (hfirst : ∀ v ∈ first, v.value = none)
    (hsecond : ∀ v ∈ second, v.value = none) :
    ((store.append first).append second).Renamed
      (hoist store.size (store.size + first.length) second.length)
      ((store.append second).append first) := by
  let ρ := hoist store.size (store.size + first.length) second.length
  have hbelow : ∀ id, id < store.size → ρ id = id := fun id hid => hoist_of_lt hid _ _
  have hnone : ∀ v : Variable, v.value = none → v.rename ρ = v :=
    fun v hv => Variable.rename_eq (by simp [hv]) hbelow
  -- No value has a variable that moves, so it is enough to find each variable again.
  have hfixed : ((store.append first).append second).All fun _ v => v.rename ρ = v := by
    have hstore : store.All fun _ v => v.rename ρ = v :=
      fun id v hv => Variable.rename_eq (hvalues id v hv) hbelow
    have hboth := hstore.append fun v hv _ _ => hnone v (hfirst v hv)
    exact hboth.append fun v hv _ _ => hnone v (hsecond v hv)
  refine ⟨by simp only [size_append]; omega, fun id => ?_⟩
  have hsame : (((store.append first).append second).get? id).map (Variable.rename ρ) =
      ((store.append first).append second).get? id := by
    cases hget : ((store.append first).append second).get? id with
    | none => rfl
    | some v => exact congrArg some (hfixed id v hget)
  have hnew : ∀ (created : List Variable) (place : Nat), store.size ≤ place →
      (store.append created).get? place = created[place - store.size]? := by
    intro created place hle
    rw [get?_append, if_neg (Nat.not_lt.mpr hle)]
  rw [hsame, append_append, append_append]
  rcases hoist_cases (Nat.le_add_right store.size first.length) second.length id with
    ⟨hlow, hρ⟩ | ⟨hlow, hmiddle, hρ⟩ | ⟨hmiddle, hhigh, hρ⟩ | ⟨hhigh, hρ⟩
  · rw [hρ, get?_append, get?_append, if_pos hlow, if_pos hlow]
  · rw [hρ, hnew _ (id + second.length) (by omega), hnew _ id hlow,
      List.getElem?_append_right (by omega), List.getElem?_append_left (by omega)]
    congr 1
    omega
  · rw [hρ, hnew _ (store.size + _) (by omega), hnew _ id (by omega),
      List.getElem?_append_left (by omega), List.getElem?_append_right (by omega)]
    congr 1
    omega
  · have hle : store.size ≤ id := by omega
    rw [hρ, hnew _ id hle, hnew _ id hle, List.getElem?_eq_none, List.getElem?_eq_none]
    · simp only [List.length_append]
      omega
    · simp only [List.length_append]
      omega

end Shading
