import ProtoSchema.Schema.OfNode.Header
import ProtoSchema.Schema.Service

/-!
# Services from trees

A method needs a name, a request and a response; its options are those among its children.
-/

namespace ProtoSchema

/-- What a method takes or gives, from the child of a kind. -/
def Payload.ofNode (node : Node) (kind : Node.Kind) : Described Payload := do
  let child ← node.require kind
  return ⟨⟨child.value⟩, child.has .stream⟩

/-- The method that a node describes. -/
def Method.ofNode (node : Node) : Described Method := do
  let name ← node.name
  let input ← Payload.ofNode node .methodInput
  let output ← Payload.ofNode node .methodOutput
  let settings ← Setting.allOf node
  return { name, input, output, settings }

/-- The member of a service that a node describes. -/
def ServiceMember.ofNode (node : Node) : Described (Option ServiceMember) :=
  match node.kind with
  | .identifier | .comment => .ok none
  | .method => do return some (.method (← Method.ofNode node))
  | .option => do return some (.setting (← Setting.ofNode node))
  | found => .error (.unexpectedChild .service found)

/-- The service that a node describes. -/
def Service.ofNode (node : Node) : Described Service := do
  let name ← node.name
  let members ← Node.collect ServiceMember.ofNode node.children
  return .ofMembers name members

end ProtoSchema
