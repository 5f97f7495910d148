import ProtoSchema.Schema.Field
import ProtoSchema.Schema.OfNode.Header

/-!
# Fields, maps and oneofs from trees

A field has either a built-in type or a reference, and the built-in one is looked for first. The key
of a map is checked last but for its options.
-/

namespace ProtoSchema

/-- The type of the field that a node describes. -/
def FieldType.ofNode (node : Node) : Described FieldType :=
  match node.find? .scalarType with
  | some type => do
    let value ← type.readValue (Scalar.ofText? type.value)
    return .scalar value
  | none => do
    let type ← node.require .userType
    return .user ⟨type.value⟩

/-- The field that a node describes. -/
def Field.ofNode (node : Node) : Described Field := do
  let type ← FieldType.ofNode node
  let name ← node.name
  let numberNode ← node.require .fieldNumber
  let number ← numberNode.fieldNumber
  let settings ← Setting.allOf node
  return { name, number, type, settings,
           repeated := node.has .repeated, optional := node.has .optional }

/-- The map that a node describes. -/
def MapField.ofNode (node : Node) : Described MapField := do
  let keyNode ← node.require .mapKey
  let valueNode ← node.require .mapValue
  let name ← node.name
  let numberNode ← node.require .fieldNumber
  let number ← numberNode.fieldNumber
  let key ← keyNode.readValue (Scalar.mapKeyOfText? keyNode.value)
  let settings ← Setting.allOf node
  return { name, number, key, value := .ofText valueNode.value, settings }

/-- The oneof that a node describes. -/
def Oneof.ofNode (node : Node) : Described Oneof := do
  let name ← node.name
  let fields ← (node.filter .field).mapM Field.ofNode
  let settings ← Setting.allOf node
  return { name, fields, settings }

end ProtoSchema
