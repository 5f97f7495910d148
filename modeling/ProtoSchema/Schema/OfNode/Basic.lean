import ProtoSchema.Lexeme.Integer
import ProtoSchema.Node.Basic
import ProtoSchema.Schema.Name
import ProtoSchema.Schema.NumberDomain

/-!
# What a tree describes

A tree describes part of a schema if each node has the children that its kind needs, in whatever
order, with texts that mean something. The first fault in the order of the text is reported.

* `TreeError`: why a tree describes nothing.
* `Node.require`, `Node.readValue`: a child that must be there, a text that must mean something.
* `Node.collect`: what nodes describe one after the other.
-/

namespace ProtoSchema

/-- Why a tree describes nothing. -/
inductive TreeError
  | notRoot (found : Node.Kind)
  | missingChild (parent : Node.Kind) (value : String) (expected : Node.Kind)
  | invalidValue (kind : Node.Kind) (value : String)
  | unexpectedChild (parent found : Node.Kind)
deriving DecidableEq, Repr

namespace TreeError

/-- How a fault of a tree reads. -/
def message : TreeError → String
  | notRoot found => s!"descriptor can only be built from a Root node, found {found.label}"
  | missingChild parent value expected =>
    s!"{parent.label} node '{value}' has no {expected.label} child"
  | invalidValue kind value => s!"invalid value '{value}' in {kind.label} node"
  | unexpectedChild parent found => s!"unexpected {found.label} node inside {parent.label}"

end TreeError

/-- A value described by a tree, or the fault that the tree has. -/
abbrev Described := Except TreeError

namespace Node

/-- The first child of a kind, which must be there. -/
def require (node : Node) (kind : Kind) : Described Node :=
  match node.find? kind with
  | some child => .ok child
  | none => .error (.missingChild node.kind node.value kind)

/-- A value read from the text of a node. -/
def readValue {α : Type} (node : Node) (value? : Option α) : Described α :=
  match value? with
  | some value => .ok value
  | none => .error (.invalidValue node.kind node.value)

/-- The name that a node carries. -/
def name (node : Node) : Described Name := do
  let identifier ← node.require .identifier
  return ⟨identifier.value⟩

/-- The integer that a node holds. -/
def integer (node : Node) : Described Int := node.readValue (Lexeme.integer? node.value)

/-- The integer that a node holds, if it is an unsigned 32-bit number. -/
def fieldNumber (node : Node) : Described Nat :=
  node.readValue ((Lexeme.integer? node.value).bind fun value =>
    if 0 ≤ value ∧ value ≤ 4294967295 then some value.toNat else none)

/-- The integer that a node holds, if it is a signed 32-bit number. -/
def enumNumber (node : Node) : Described Int :=
  node.readValue ((Lexeme.integer? node.value).filter NumberDomain.enumValue.contains)

/-- What the nodes describe one after the other; some describe nothing. -/
def collect {α : Type} (read : Node → Described (Option α)) : List Node → Described (List α)
  | [] => .ok []
  | node :: rest => do
    let found ← read node
    let others ← collect read rest
    return found.toList ++ others

end Node

end ProtoSchema
