import Shading.Proofs.Declaration

/-!
# Declared variables

What every variable that a declaration creates has in common: a proper name, permission
to be read and written, and members exactly if it is a vector, which then has two to four
of them, all alike.

* `Declares.isDeclared`: the words of a declaration spell nothing else.
-/

namespace Shading

/-! ## Words -/

/-- A word is not empty and has no blanks. -/
theorem Text.spec_of_mem_words {text word : Text} (h : word ∈ Text.words text) :
    word ≠ [] ∧ ∀ c ∈ word, Text.isBlank c = false := by
  obtain ⟨hpiece, hne⟩ := List.mem_filter.mp h
  exact ⟨by simpa using hne, Text.eq_false_of_mem_splitOnP hpiece⟩

/-! ## Variables -/

namespace Variable

/-- A member of a vector: without a name, members and a value, and of one scalar type. -/
structure IsMember (element : ValueType) (v : Variable) : Prop where
  type : v.type = element
  name : v.name = none
  members : v.members = none
  value : v.value = none

/-- A variable as a declaration creates it. -/
structure IsDeclared (v : Variable) : Prop where
  name : ∃ name, v.name = some name ∧ name ≠ [] ∧ ∀ c ∈ name, Text.isBlank c = false
  permission : v.permission = .readWrite
  isVector : v.members.isSome = true ↔ v.type = .vector
  members : ∀ members, v.members = some members → 2 ≤ members.length ∧ members.length ≤ 4 ∧
    ∃ element, element ≠ .vector ∧ ∀ member ∈ members, member.IsMember element

/-- What is assigned to a variable does not matter here. -/
theorem IsDeclared.set_value {v : Variable} (h : v.IsDeclared) (value : Option Expr) :
    { v with value }.IsDeclared :=
  ⟨h.name, h.permission, h.isVector, h.members⟩

end Variable

/-! ## Declarations -/

namespace Declaration

/-- A shape that a type keyword can name: one scalar, or two to four of one scalar type. -/
inductive IsShape : Shape → Prop
  | single {type : ValueType} (h : type ≠ .vector) : IsShape (.single type)
  | vector {element : ValueType} (h : element ≠ .vector) {arity : Nat} (hle : 2 ≤ arity)
      (hge : arity ≤ 4) : IsShape (.vector (List.replicate arity element))

theorem ofVectorLetter_ne_vector (letter : Char) : ValueType.ofVectorLetter letter ≠ .vector := by
  unfold ValueType.ofVectorLetter
  split <;> simp

theorem TypeWord.isShape {word : Text} {shape : Shape} (h : TypeWord word shape) :
    IsShape shape := by
  cases h with
  | scalar h =>
      have hall : ∀ entry ∈ scalarKeywords, entry.2 ≠ .vector := by decide
      exact .single (hall _ h)
  | vector hvec hletter hword hfront hdigit =>
      have hall : ∀ entry ∈ arityDigits, 2 ≤ entry.2 ∧ entry.2 ≤ 4 := by decide
      obtain ⟨hle, hge⟩ := hall _ hdigit
      exact .vector (ofVectorLetter_ne_vector _) hle hge

/-- A named variable of such a shape. -/
theorem IsShape.isDeclared {shape : Shape} (h : IsShape shape) {name : Text} (hne : name ≠ [])
    (hblank : ∀ c ∈ name, Text.isBlank c = false) (qualifier : Qualifier) :
    Variable.IsDeclared { name := some name, shape, qualifier } := by
  cases h with
  | single h =>
      refine ⟨⟨name, rfl, hne, hblank⟩, rfl, ?_, ?_⟩
      · simp [Variable.members, Variable.type, h]
      · simp [Variable.members]
  | @vector element h arity hle hge =>
      refine ⟨⟨name, rfl, hne, hblank⟩, rfl, ?_, ?_⟩
      · simp [Variable.members, Variable.type]
      · intro members hmembers
        obtain rfl : List.replicate arity (Variable.single element none) = members := by
          simpa [Variable.members] using hmembers
        refine ⟨by simpa using hle, by simpa using hge, element, h, ?_⟩
        intro member hmember
        rw [List.eq_of_mem_replicate hmember]
        exact ⟨rfl, rfl, rfl, rfl⟩

/-- What words that are not empty and have no blanks declare. -/
theorem Declares.isDeclared {words : List Text}
    (hwords : ∀ word ∈ words, word ≠ [] ∧ ∀ c ∈ word, Text.isBlank c = false) {v : Variable}
    (h : Declares TypeWord words v) : v.IsDeclared ∧ v.value = none := by
  cases h with
  | intro hfront hmiddle htype name =>
      obtain ⟨hne, hblank⟩ := hwords name (by simp)
      exact ⟨htype.isShape.isDeclared hne hblank _, rfl⟩

end Declaration

/-- An operand that is a variable still to be created is a declaration. -/
theorem Operand.isDeclared_of_read {scope : Scope} {text : Text} {v : Variable}
    (h : read scope text = .fresh v) : v.IsDeclared ∧ v.value = none := by
  unfold read at h
  dsimp only at h
  split at h
  next =>
    split at h
    next w hread =>
      obtain rfl : w = v := by simpa using h
      exact (Declaration.read?_eq_some_iff.mp hread).isDeclared fun word hword =>
        Text.spec_of_mem_words hword
    · simp at h
  · simp at h

end Shading
