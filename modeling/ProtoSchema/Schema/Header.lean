import ProtoSchema.Schema.Name

/-!
# What a file says about itself

The version of the language, the files it imports and the options it sets.
-/

namespace ProtoSchema

/-- The version of the language that a file is written in. -/
inductive Version
  | proto2
  | proto3
deriving DecidableEq, Repr

namespace Version

/-- How a version is written. -/
def text : Version → String
  | proto2 => "proto2"
  | proto3 => "proto3"

/-- The version that a text names. -/
def ofText? (text : String) : Option Version := [proto2, proto3].find? (·.text == text)

end Version

/-- How an import is qualified. -/
inductive ImportModifier
  | weak
  | reexported
deriving DecidableEq, Repr

namespace ImportModifier

/-- How a modifier is written. -/
def text : ImportModifier → String
  | weak => "weak"
  | reexported => "public"

/-- The modifier that a word names. -/
def ofText? (text : String) : Option ImportModifier :=
  [weak, reexported].find? (·.text == text)

end ImportModifier

/-- An imported file. -/
structure Import where
  modifier : Option ImportModifier
  path : String
deriving DecidableEq, Repr

/-- An option set to a value, a literal without its quotes and escapes. -/
structure Setting where
  name : Name
  value : String
deriving DecidableEq, Repr

/-- Whether two options agree: their names as names, their values exactly. -/
def Setting.same (a b : Setting) : Bool := a.name.same b.name && a.value == b.value

end ProtoSchema
