import ProtoSchema.Schema.Header
import ProtoSchema.Schema.OfNode.Basic

/-!
# Versions, imports and options from trees

The parts that stand in the head of a file, and the options that any declaration may have.

* `Setting.allOf`: the options among the children of a node.
-/

namespace ProtoSchema

/-- The option that a node describes. -/
def Setting.ofNode (node : Node) : Described Setting := do
  let name ← node.name
  let value ← node.require .optionValue
  return ⟨name, value.value⟩

/-- The options among the children of a node. -/
def Setting.allOf (node : Node) : Described (List Setting) :=
  (node.filter .option).mapM Setting.ofNode

/-- The version that a node describes. -/
def Version.ofNode (node : Node) : Described Version := do
  let text ← node.require .stringLiteral
  text.readValue (Version.ofText? text.value)

/-- The modifier of an import, if it has one. -/
def ImportModifier.ofNode (node : Node) : Described (Option ImportModifier) :=
  match node.find? .importModifier with
  | none => .ok none
  | some modifier => do
    let value ← modifier.readValue (ImportModifier.ofText? modifier.value)
    return some value

/-- The import that a node describes. -/
def Import.ofNode (node : Node) : Described Import := do
  let modifier ← ImportModifier.ofNode node
  let path ← node.require .stringLiteral
  return ⟨modifier, path.value⟩

end ProtoSchema
