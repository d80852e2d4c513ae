import Shading.Variable.Basic

/-!
# The store and the scope

The store holds every variable of a session; a variable's identity is its position,
so two references are to one variable exactly if they are equal.  The scope binds keys
to identities, and several keys may be bound to one variable.
-/

namespace Shading

/-! ## The store -/

/-- All variables, each at the position that is its identity. -/
structure Store where
  entries : Array Variable := #[]
  deriving DecidableEq, Repr

namespace Store

/-- The number of variables. -/
def size (store : Store) : Nat :=
  store.entries.size

/-- The variable of an identity. -/
def get? (store : Store) (id : VariableId) : Option Variable :=
  store.entries[id]?

/-- Adds a variable; its identity is the size of the store before. -/
def push (store : Store) (v : Variable) : Store :=
  ⟨store.entries.push v⟩

/-- Sets the value of a variable. -/
def assign (store : Store) (id : VariableId) (value : Expr) : Store :=
  ⟨store.entries.modify id fun v => { v with value := some value }⟩

/-- The labels of all variables, by identity. -/
def labels (store : Store) : List Variable.Label :=
  store.entries.toList.map Variable.label

@[simp] theorem size_assign (store : Store) (id : VariableId) (value : Expr) :
    (store.assign id value).size = store.size := by
  simp [assign, size]

@[simp] theorem length_labels (store : Store) : store.labels.length = store.size := by
  simp [labels, size]

end Store

/-! ## The scope -/

/-- The bindings of keys to variables; the first binding of a key counts. -/
structure Scope where
  bindings : List (Text × VariableId) := []
  deriving DecidableEq, Repr

namespace Scope

/-- The variable bound to a key. -/
def find? (scope : Scope) (key : Text) : Option VariableId :=
  scope.bindings.lookup key

/-- Binds a key to a variable, in place of its binding so far. -/
def insert (scope : Scope) (key : Text) (id : VariableId) : Scope :=
  ⟨(key, id) :: scope.bindings.filter fun binding => binding.1 != key⟩

/-- The bindings in ascending order of their keys. -/
def sorted (scope : Scope) : List (Text × VariableId) :=
  scope.bindings.mergeSort fun a b => Text.precedes a.1 b.1

@[simp] theorem find?_insert_self (scope : Scope) (key : Text) (id : VariableId) :
    (scope.insert key id).find? key = some id := by
  simp [insert, find?]

theorem mem_bindings_of_find? {scope : Scope} {key : Text} {id : VariableId}
    (h : scope.find? key = some id) : (key, id) ∈ scope.bindings := by
  obtain ⟨front, back, hbindings, -⟩ := List.lookup_eq_some_iff.mp h
  simp [hbindings]

end Scope

end Shading
