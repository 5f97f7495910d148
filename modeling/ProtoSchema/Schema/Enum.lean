import ProtoSchema.Schema.Header
import ProtoSchema.Schema.Reserved

/-!
# Enums

An enum gives names to numbers. Its constants, options and reserved statements are kept apart, each
sort in the order of the text.

* `Enum.ofMembers`: an enum from its name and its members in the order of the text.
-/

namespace ProtoSchema

/-- A constant of an enum. -/
structure EnumValue where
  name : Name
  number : Int
  settings : List Setting
deriving DecidableEq, Repr

/-- A type with named values. -/
structure Enum where
  name : Name
  settings : List Setting
  values : List EnumValue
  reserved : List Reserved
deriving DecidableEq, Repr

/-- A member of an enum. -/
inductive EnumMember
  | value (value : EnumValue)
  | setting (setting : Setting)
  | reserved (reserved : Reserved)
deriving DecidableEq, Repr

/-- An enum from its name and its members in the order of the text. -/
def Enum.ofMembers (name : Name) (members : List EnumMember) : Enum where
  name
  settings := members.filterMap fun | .setting setting => some setting | _ => none
  values := members.filterMap fun | .value value => some value | _ => none
  reserved := members.filterMap fun | .reserved reserved => some reserved | _ => none

/-- Whether two constants are the same up to the case of names. -/
def EnumValue.same (a b : EnumValue) : Bool :=
  a.name.same b.name && a.number == b.number && a.settings.isEqv b.settings Setting.same

/-- Whether two enums are the same up to the case of names. -/
def Enum.same (a b : Enum) : Bool :=
  a.name.same b.name && a.settings.isEqv b.settings Setting.same &&
    a.values.isEqv b.values EnumValue.same && a.reserved.isEqv b.reserved Reserved.same

end ProtoSchema
