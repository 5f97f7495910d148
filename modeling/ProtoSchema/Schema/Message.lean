import ProtoSchema.Schema.Enum
import ProtoSchema.Schema.Field

/-!
# Messages

A message holds its members sorted by what they are, each sort in the order of the text, and may
hold messages itself.

* `MessageMember`: a member of a message.
* `Message.ofMembers`: a message from its name and its members in the order of the text.
* `Message.find?`: a field by name, inside oneofs too.
-/

namespace ProtoSchema

/-- A message and all that is declared in it. -/
structure Message where
  name : Name
  fields : List Field
  oneofs : List Oneof
  settings : List Setting
  maps : List MapField
  enums : List Enum
  messages : List Message
  reserved : List Reserved
deriving Repr

mutual

/-- Decides whether two messages are equal, letter by letter. -/
def Message.decideEq : (a b : Message) → Decidable (a = b)
  | ⟨name, fields, oneofs, settings, maps, enums, messages, reserved⟩,
    ⟨name', fields', oneofs', settings', maps', enums', messages', reserved'⟩ =>
    have := Message.decideEqAll messages messages'
    decidable_of_iff
      (name = name' ∧ fields = fields' ∧ oneofs = oneofs' ∧ settings = settings' ∧ maps = maps' ∧
        enums = enums' ∧ messages = messages' ∧ reserved = reserved')
      (by simp)

/-- Decides whether two lists of messages are equal. -/
def Message.decideEqAll : (as bs : List Message) → Decidable (as = bs)
  | [], [] => isTrue rfl
  | [], _ :: _ => isFalse nofun
  | _ :: _, [] => isFalse nofun
  | a :: as, b :: bs =>
    have := Message.decideEq a b
    have := Message.decideEqAll as bs
    decidable_of_iff (a = b ∧ as = bs) (by simp)

end

instance : DecidableEq Message := Message.decideEq

/-- A member of a message. -/
inductive MessageMember
  | field (field : Field)
  | oneof (oneof : Oneof)
  | setting (setting : Setting)
  | map (map : MapField)
  | enum (enum : Enum)
  | message (message : Message)
  | reserved (reserved : Reserved)
deriving DecidableEq, Repr

namespace Message

/-- A message from its name and its members in the order of the text. -/
def ofMembers (name : Name) (members : List MessageMember) : Message where
  name
  fields := members.filterMap fun | .field field => some field | _ => none
  oneofs := members.filterMap fun | .oneof oneof => some oneof | _ => none
  settings := members.filterMap fun | .setting setting => some setting | _ => none
  maps := members.filterMap fun | .map map => some map | _ => none
  enums := members.filterMap fun | .enum enum => some enum | _ => none
  messages := members.filterMap fun | .message message => some message | _ => none
  reserved := members.filterMap fun | .reserved reserved => some reserved | _ => none

/-- The first field of a name, those of the message before those of its oneofs. -/
def find? (message : Message) (name : String) : Option Field :=
  (message.fields ++ message.oneofs.flatMap Oneof.fields).find? (·.name.isText name)

/-- The first message of a name directly inside a message. -/
def nested? (message : Message) (name : String) : Option Message :=
  message.messages.find? (·.name.isText name)

mutual

/-- Whether two messages are the same up to the case of names. -/
def same : Message → Message → Bool
  | ⟨name, fields, oneofs, settings, maps, enums, messages, reserved⟩,
    ⟨name', fields', oneofs', settings', maps', enums', messages', reserved'⟩ =>
    name.same name' && fields.isEqv fields' Field.same && oneofs.isEqv oneofs' Oneof.same &&
      Setting.sameAll settings settings' && maps.isEqv maps' MapField.same &&
      enums.isEqv enums' Enum.same && sameAll messages messages' &&
      reserved.isEqv reserved' Reserved.same

/-- Whether two lists of messages agree in order. -/
def sameAll : List Message → List Message → Bool
  | [], [] => true
  | message :: rest, message' :: rest' => same message message' && sameAll rest rest'
  | _, _ => false

end

end Message

end ProtoSchema
