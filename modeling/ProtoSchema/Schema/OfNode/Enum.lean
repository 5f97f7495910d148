import ProtoSchema.Schema.Enum
import ProtoSchema.Schema.OfNode.Header

/-!
# Enums and reserved statements from trees

A range of reserved numbers without an end is a single number, and a node with a reserved name
reserves names only.
-/

namespace ProtoSchema

/-- The end of a range of reserved numbers; without one the range is its start. -/
def RangeEnd.ofNode (node : Node) (start : Int) : Described RangeEnd :=
  match node.find? .rangeEnd with
  | none => .ok (.number start)
  | some stop =>
    if stop.value = "max" then .ok .max
    else do
      let value ← stop.integer
      return .number value

/-- The range of reserved numbers that a node describes. -/
def ReservedRange.ofNode (node : Node) : Described ReservedRange := do
  let start ← node.integer
  let stop ← RangeEnd.ofNode node start
  return ⟨start, stop⟩

/-- What a node reserves: names as soon as there is one, else ranges. -/
def Reserved.ofNode (node : Node) : Described Reserved :=
  if node.has .stringLiteral then
    .ok (.names ((node.filter .stringLiteral).map fun child => ⟨child.value⟩))
  else do
    let ranges ← (node.filter .range).mapM ReservedRange.ofNode
    return .ranges ranges

/-- The enum constant that a node describes. -/
def EnumValue.ofNode (node : Node) : Described EnumValue := do
  let name ← node.name
  let numberNode ← node.require .fieldNumber
  let number ← numberNode.enumNumber
  let settings ← Setting.allOf node
  return { name, number, settings }

/-- The member of an enum that a node describes. -/
def EnumMember.ofNode (node : Node) : Described (Option EnumMember) :=
  match node.kind with
  | .identifier | .comment => .ok none
  | .enumConstant => do return some (.value (← EnumValue.ofNode node))
  | .option => do return some (.setting (← Setting.ofNode node))
  | .reserved => do return some (.reserved (← Reserved.ofNode node))
  | found => .error (.unexpectedChild .enum found)

/-- The enum that a node describes. -/
def Enum.ofNode (node : Node) : Described Enum := do
  let name ← node.name
  let members ← Node.collect EnumMember.ofNode node.children
  return .ofMembers name members

end ProtoSchema
