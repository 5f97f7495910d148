import ProtoSchema.Schema.Name

/-!
# Types of fields

A field holds one of fifteen scalars or a value of a type that the schema names. Integral types,
`bool` and `string` may be keys of a map; floating point numbers and `bytes` may not.
-/

namespace ProtoSchema

/-- A built-in type. -/
inductive Scalar
  | double
  | float
  | int32
  | int64
  | uint32
  | uint64
  | sint32
  | sint64
  | fixed32
  | fixed64
  | sfixed32
  | sfixed64
  | bool
  | string
  | bytes
deriving DecidableEq, Repr

namespace Scalar

/-- Every built-in type. -/
def all : List Scalar :=
  [double, float, int32, int64, uint32, uint64, sint32, sint64, fixed32, fixed64, sfixed32,
   sfixed64, bool, string, bytes]

/-- How a built-in type is written. -/
def text : Scalar → String
  | double => "double"
  | float => "float"
  | int32 => "int32"
  | int64 => "int64"
  | uint32 => "uint32"
  | uint64 => "uint64"
  | sint32 => "sint32"
  | sint64 => "sint64"
  | fixed32 => "fixed32"
  | fixed64 => "fixed64"
  | sfixed32 => "sfixed32"
  | sfixed64 => "sfixed64"
  | bool => "bool"
  | string => "string"
  | bytes => "bytes"

/-- The built-in type that a word names. -/
def ofText? (text : String) : Option Scalar := all.find? (·.text == text)

/-- Whether a built-in type may be the key of a map. -/
def isMapKey : Scalar → Bool
  | double | float | bytes => false
  | _ => true

/-- The key type of a map that a word names. -/
def mapKeyOfText? (text : String) : Option Scalar := (ofText? text).filter isMapKey

theorem ofText?_text (scalar : Scalar) : ofText? scalar.text = some scalar := by
  cases scalar <;> decide

theorem text_of_ofText? {text : String} {scalar : Scalar} (h : ofText? text = some scalar) :
    scalar.text = text := by
  simpa using List.find?_some h

end Scalar

/-- The type of a field: built in, or declared somewhere under a name. -/
inductive FieldType
  | scalar (type : Scalar)
  | user (name : Name)
deriving DecidableEq, Repr

namespace FieldType

/-- The type that a word names: a built-in one if there is one of that name. -/
def ofText (text : String) : FieldType :=
  match Scalar.ofText? text with
  | some type => scalar type
  | none => user ⟨text⟩

/-- How a type is written. -/
def text : FieldType → String
  | scalar type => type.text
  | user name => name.text

/-- Whether two types are the same, names of types being compared as names. -/
def same : FieldType → FieldType → Bool
  | scalar a, scalar b => a == b
  | user a, user b => a.same b
  | _, _ => false

end FieldType

end ProtoSchema
