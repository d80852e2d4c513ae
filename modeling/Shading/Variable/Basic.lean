import Shading.Expr.Basic

/-!
# Variables

A variable is a typed binding with an optional name, a qualifier, an access
permission and the expression last assigned to it.  A vector has one anonymous
member for each component; other variables have none.
-/

namespace Shading

/-! ## Types and qualifiers -/

/-- The type of a variable. -/
inductive ValueType where
  | bool
  | int
  | uint
  | float
  | double
  | vector
  deriving DecidableEq, Repr

namespace ValueType

/-- The scalar type that a keyword names. -/
def ofKeyword? (word : Text) : Option ValueType :=
  if word = "bool".toList then some .bool
  else if word = "int".toList then some .int
  else if word = "uint".toList then some .uint
  else if word = "float".toList then some .float
  else if word = "double".toList then some .double
  else none

/-- The element type that the first letter of a vector keyword selects: `bvec`, `ivec`,
`uvec` and `dvec`; every other keyword has floats. -/
def ofVectorLetter : Char → ValueType
  | 'b' => .bool
  | 'i' => .int
  | 'u' => .uint
  | 'd' => .double
  | _ => .float

/-- The name under which inspection text shows a type. -/
def name : ValueType → String
  | .bool => "Bool"
  | .int => "Int"
  | .uint => "UInt"
  | .float => "Float"
  | .double => "Double"
  | .vector => "Vector"

end ValueType

/-- Where a variable's value comes from; a variable declared without a qualifier is local. -/
inductive Qualifier where
  | varying
  | uniform
  | perVertex
  | unqualified
  deriving DecidableEq, Repr

namespace Qualifier

/-- The qualifier that a keyword names. -/
def ofKeyword? (word : Text) : Option Qualifier :=
  if word = "varying".toList then some .varying
  else if word = "uniform".toList then some .uniform
  else if word = "attribute".toList then some .perVertex
  else none

/-- The name under which inspection text shows a qualifier. -/
def name : Qualifier → String
  | .varying => "Varying"
  | .uniform => "Uniform"
  | .perVertex => "Attribute"
  | .unqualified => "Local"

end Qualifier

/-- What may be done to a variable.  It is recorded and nothing enforces it. -/
inductive Permission where
  | read
  | write
  | readWrite
  deriving DecidableEq, Repr

/-- The name under which inspection text shows a permission. -/
def Permission.name : Permission → String
  | .read => "Read"
  | .write => "Write"
  | .readWrite => "ReadWrite"

/-- The form of a variable: one value of a type, or a vector with the types of its members. -/
inductive Shape where
  | single (type : ValueType)
  | vector (elements : List ValueType)
  deriving DecidableEq, Repr

/-! ## Variables -/

/-- A variable. -/
structure Variable where
  name : Option Text
  shape : Shape
  qualifier : Qualifier := .unqualified
  permission : Permission := .readWrite
  value : Option Expr := none
  deriving DecidableEq, Repr

namespace Variable

/-- A variable of one value. -/
def single (type : ValueType) (name : Option Text) : Variable :=
  { name, shape := .single type }

/-- A vector of `arity` members of one type. -/
def vector (element : ValueType) (arity : Nat) (name : Option Text) : Variable :=
  { name, shape := .vector (List.replicate arity element) }

/-- The type of a variable. -/
def type (v : Variable) : ValueType :=
  match v.shape with
  | .single type => type
  | .vector _ => .vector

/-- The members of a vector: anonymous variables without a value. -/
def members (v : Variable) : Option (List Variable) :=
  match v.shape with
  | .single _ => none
  | .vector elements => some (elements.map fun element => single element none)

/-- The number of components: the member count of a vector, one for other variables. -/
def arity (v : Variable) : Nat :=
  match v.shape with
  | .single _ => 1
  | .vector elements => elements.length

/-- Equality of variables, field by field, values compared as expressions. -/
def equal (v w : Variable) : Bool :=
  v.name == w.name && v.shape == w.shape && v.qualifier == w.qualifier &&
    v.permission == w.permission &&
    match v.value, w.value with
    | some a, some b => a.equal b
    | none, none => true
    | _, _ => false

/-- The part of a variable that never changes and that messages show. -/
structure Label where
  name : Option Text
  type : ValueType
  deriving DecidableEq, Repr

/-- The label of a variable. -/
def label (v : Variable) : Label :=
  ⟨v.name, v.type⟩

@[simp] theorem label_set_value (v : Variable) (value : Option Expr) :
    { v with value }.label = v.label := rfl

end Variable

end Shading
