/-!
# Nodes of a parse tree

A node has a kind, a text and children in order. Nodes do not know their parents; whoever walks the
tree keeps track of the depth.

* `Node.Kind.label`: the name of a kind, as trees and errors show it.
* `Node.find?`, `Node.filter`: children by kind.
* `Node.count`: the number of nodes of a tree.
-/

namespace ProtoSchema

/-- What a node stands for. -/
inductive Node.Kind
  | root
  | comment
  | commentText
  | identifier
  | version
  | package
  | importFile
  | importModifier
  | option
  | optionValue
  | enum
  | enumConstant
  | message
  | field
  | fieldNumber
  | scalarType
  | userType
  | repeated
  | optional
  | map
  | mapKey
  | mapValue
  | oneof
  | reserved
  | range
  | rangeEnd
  | service
  | method
  | methodInput
  | methodOutput
  | stream
  | stringLiteral
deriving DecidableEq, Repr

namespace Node.Kind

/-- The name of a kind. -/
def label : Kind → String
  | root => "Root"
  | comment => "Comment"
  | commentText => "CommentText"
  | identifier => "Identifier"
  | version => "Syntax"
  | package => "Package"
  | importFile => "Import"
  | importModifier => "ImportModifier"
  | option => "Option"
  | optionValue => "OptionValue"
  | enum => "Enum"
  | enumConstant => "EnumConstant"
  | message => "Message"
  | field => "Field"
  | fieldNumber => "FieldNumber"
  | scalarType => "Type"
  | userType => "UserType"
  | repeated => "Repeated"
  | optional => "Optional"
  | map => "Map"
  | mapKey => "MapKey"
  | mapValue => "MapValue"
  | oneof => "OneOf"
  | reserved => "Reserved"
  | range => "Range"
  | rangeEnd => "RangeEnd"
  | service => "Service"
  | method => "ServiceMethod"
  | methodInput => "MethodInput"
  | methodOutput => "MethodOutput"
  | stream => "Stream"
  | stringLiteral => "StringLiteral"

/-- Every kind. -/
def all : List Kind :=
  [root, comment, commentText, identifier, version, package, importFile, importModifier, option,
   optionValue, enum, enumConstant, message, field, fieldNumber, scalarType, userType, repeated,
   optional, map, mapKey, mapValue, oneof, reserved, range, rangeEnd, service, method, methodInput,
   methodOutput, stream, stringLiteral]

/-- The kind of a name. -/
def ofLabel? (label : String) : Option Kind := all.find? (·.label == label)

theorem ofLabel?_label (kind : Kind) : ofLabel? kind.label = some kind := by
  cases kind <;> decide

end Node.Kind

/-- A node with its text and its children in order. -/
structure Node where
  kind : Node.Kind
  value : String
  children : List Node
deriving Repr

namespace Node

/-- A node without children. -/
def leaf (kind : Kind) (value : String) : Node := ⟨kind, value, []⟩

/-- A root without children. -/
def emptyRoot : Node := leaf .root ""

/-- Whether a node is a root. -/
def isRoot (node : Node) : Bool := node.kind == .root

/-- The node with more children after those it has. -/
def append (node : Node) (children : List Node) : Node :=
  { node with children := node.children ++ children }

/-- The node with one more child at the end. -/
def push (node child : Node) : Node := node.append [child]

/-- The first child of a kind. -/
def find? (node : Node) (kind : Kind) : Option Node := node.children.find? (·.kind == kind)

/-- The children of a kind, in order. -/
def filter (node : Node) (kind : Kind) : List Node := node.children.filter (·.kind == kind)

/-- Whether there is a child of a kind. -/
def has (node : Node) (kind : Kind) : Bool := (node.find? kind).isSome

mutual

/-- Decides whether two trees are equal, node by node and letter by letter. -/
def decideEq : (a b : Node) → Decidable (a = b)
  | ⟨kind, value, children⟩, ⟨kind', value', children'⟩ =>
    have := decideEqAll children children'
    decidable_of_iff (kind = kind' ∧ value = value' ∧ children = children') (by simp)

/-- Decides whether two lists of trees are equal. -/
def decideEqAll : (as bs : List Node) → Decidable (as = bs)
  | [], [] => isTrue rfl
  | [], _ :: _ => isFalse nofun
  | _ :: _, [] => isFalse nofun
  | a :: as, b :: bs =>
    have := decideEq a b
    have := decideEqAll as bs
    decidable_of_iff (a = b ∧ as = bs) (by simp)

end

instance : DecidableEq Node := decideEq

mutual

/-- The number of nodes in a tree. -/
def count : Node → Nat
  | ⟨_, _, children⟩ => countAll children + 1

/-- The number of nodes in several trees. -/
def countAll : List Node → Nat
  | [] => 0
  | node :: rest => node.count + countAll rest

end

theorem count_eq (node : Node) : node.count = countAll node.children + 1 := by
  cases node
  rw [count]

theorem countAll_append (nodes others : List Node) :
    countAll (nodes ++ others) = countAll nodes + countAll others := by
  induction nodes with
  | nil => simp [countAll]
  | cons node rest ih => rw [List.cons_append, countAll, countAll, ih, Nat.add_assoc]

end Node

end ProtoSchema
