import ProtoSchema.Schema.File
import ProtoSchema.Schema.OfNode.Message
import ProtoSchema.Schema.OfNode.Service

/-!
# Files from trees

* `File.ofNode`: the file that a root describes.
-/

namespace ProtoSchema

/-- The statement of a file that a node describes. -/
def FileMember.ofNode (node : Node) : Described (Option FileMember) :=
  match node.kind with
  | .comment => .ok none
  | .version => do return some (.version (← Version.ofNode node))
  | .package => do return some (.package (← node.name))
  | .importFile => do return some (.imported (← Import.ofNode node))
  | .option => do return some (.setting (← Setting.ofNode node))
  | .message => do return some (.message (← Message.ofNode node))
  | .enum => do return some (.enum (← Enum.ofNode node))
  | .service => do return some (.service (← Service.ofNode node))
  | found => .error (.unexpectedChild .root found)

/-- The file that a root describes. -/
def File.ofNode (root : Node) : Described File :=
  if root.isRoot then do
    let members ← Node.collect FileMember.ofNode root.children
    return .ofMembers members
  else .error (.notRoot root.kind)

end ProtoSchema
