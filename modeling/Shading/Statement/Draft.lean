import Shading.Store.Basic
import Shading.Action
import Shading.Event

/-!
# Drafts

Resolving a statement does not touch the store.  It drafts what is to happen: variables
to be created, assignments to be made, in order, and events to be reported.  All it
learns of the variables that exist is the scope and their labels, so no value can have an
influence on it.  Committing the draft then changes the store.
-/

namespace Shading

/-- An assignment of a value to a variable. -/
structure Assignment where
  target : VariableId
  value : Expr
  deriving DecidableEq, Repr

/-- What resolving a statement wants done, each list in order. -/
structure Draft where
  created : List Variable := []
  assignments : List Assignment := []
  events : List Event := []
  deriving DecidableEq, Repr

/-- What a statement is resolved against: the variables in scope, the labels of all variables
that exist, and how deep groups and splits may nest. -/
structure Setting where
  scope : Scope
  known : List Variable.Label
  limit : Nat
  deriving Repr

namespace Setting

/-- The labels of the variables that exist and of those in a draft, by identity. -/
def labels (setting : Setting) (draft : Draft) : List Variable.Label :=
  setting.known ++ draft.created.map Variable.label

/-- The label of a variable. -/
def look (setting : Setting) (draft : Draft) (id : VariableId) : Option Variable.Label :=
  (setting.labels draft)[id]?

end Setting

/-- A step of resolving a statement. -/
abbrev Drafting (α : Type) : Type := Action Draft α

namespace Drafting

/-- Reports an event. -/
def report (event : Event) : Drafting Unit :=
  .update fun draft => { draft with events := draft.events ++ [event] }

/-- Creates a variable; its identity follows those of all variables before it. -/
def create (setting : Setting) (v : Variable) : Drafting VariableId := fun draft =>
  (.ok (setting.labels draft).length, { draft with created := draft.created ++ [v] })

/-- Assigns a value to a variable. -/
def assign (target : VariableId) (value : Expr) : Drafting Unit :=
  .update fun draft => { draft with assignments := draft.assignments ++ [⟨target, value⟩] }

end Drafting

namespace Store

/-- Adds the variables of a list in order. -/
def append (store : Store) (created : List Variable) : Store :=
  ⟨store.entries ++ created.toArray⟩

/-- Makes assignments in order. -/
def assignAll (store : Store) (assignments : List Assignment) : Store :=
  assignments.foldl (fun store a => store.assign a.target a.value) store

/-- The store after a draft: its variables are created, then its assignments are made. -/
def commit (store : Store) (draft : Draft) : Store :=
  (store.append draft.created).assignAll draft.assignments

end Store

end Shading
