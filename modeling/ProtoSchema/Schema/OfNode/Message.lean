import ProtoSchema.Schema.Message
import ProtoSchema.Schema.OfNode.Enum
import ProtoSchema.Schema.OfNode.Field

/-!
# Messages from trees

The members of a message are read in the order of the text, and a message inside a message is read
like any other.
-/

namespace ProtoSchema

mutual

/-- The message that a node describes. -/
def Message.ofNode : Node → Described Message
  | ⟨kind, value, children⟩ => do
    let name ← Node.name ⟨kind, value, children⟩
    let members ← MessageMember.ofNodes children
    return .ofMembers name members

/-- The members of a message that nodes describe. -/
def MessageMember.ofNodes : List Node → Described (List MessageMember)
  | [] => .ok []
  | node :: rest => do
    let found ← match node.kind with
      | .identifier | .comment => .ok none
      | .field => do pure (some (MessageMember.field (← Field.ofNode node)))
      | .map => do pure (some (MessageMember.map (← MapField.ofNode node)))
      | .oneof => do pure (some (MessageMember.oneof (← Oneof.ofNode node)))
      | .message => do pure (some (MessageMember.message (← Message.ofNode node)))
      | .enum => do pure (some (MessageMember.enum (← Enum.ofNode node)))
      | .option => do pure (some (MessageMember.setting (← Setting.ofNode node)))
      | .reserved => do pure (some (MessageMember.reserved (← Reserved.ofNode node)))
      | found => .error (.unexpectedChild .message found)
    let others ← MessageMember.ofNodes rest
    return found.toList ++ others

end

end ProtoSchema
