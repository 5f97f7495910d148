import ProtoSchema.Schema.Header
import ProtoSchema.Schema.Scalar

/-!
# Fields, maps and oneofs

The numbered members of a message. A map is a repeated field with keys, and a oneof groups fields of
which at most one is set.
-/

namespace ProtoSchema

/-- A field of a message or a oneof. -/
structure Field where
  name : Name
  number : Nat
  type : FieldType
  repeated : Bool
  optional : Bool
  settings : List Setting
deriving DecidableEq, Repr

/-- A field that maps keys to values. -/
structure MapField where
  name : Name
  number : Nat
  key : Scalar
  value : FieldType
  settings : List Setting
deriving DecidableEq, Repr

/-- Fields of which at most one is set. -/
structure Oneof where
  name : Name
  fields : List Field
  settings : List Setting
deriving DecidableEq, Repr

/-- Whether two lists of options agree in order. -/
def Setting.sameAll (a b : List Setting) : Bool := a.isEqv b Setting.same

/-- Whether two fields are the same up to the case of names. -/
def Field.same (a b : Field) : Bool :=
  a.name.same b.name && a.number == b.number && a.type.same b.type && a.repeated == b.repeated &&
    a.optional == b.optional && Setting.sameAll a.settings b.settings

/-- Whether two maps are the same up to the case of names. -/
def MapField.same (a b : MapField) : Bool :=
  a.name.same b.name && a.number == b.number && a.key == b.key && a.value.same b.value &&
    Setting.sameAll a.settings b.settings

/-- Whether two oneofs are the same up to the case of names. -/
def Oneof.same (a b : Oneof) : Bool :=
  a.name.same b.name && a.fields.isEqv b.fields Field.same && Setting.sameAll a.settings b.settings

end ProtoSchema
