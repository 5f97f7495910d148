import ProtoSchema.Statement.Setting

/-!
# Fields, maps and enum constants

The members that carry a number: a field with its type, a map with the types of its keys and values,
and a constant of an enum. Options in brackets may follow the number.
-/

namespace ProtoSchema.Parse

/-- Reads `name = number`, options and a semicolon after the type of a field. -/
def fieldTail : Parse (List Node) := do
  let name ← expect .fieldName
  let _ ← expect (.mark .equals)
  let number ← expect .fieldNumber
  let options ← optionList
  let _ ← expect (.mark .semicolon)
  return .leaf .identifier name.lexeme :: .leaf .fieldNumber number.lexeme :: options

/-- The kind of node that holds the type of a field. -/
def typeKind (lexeme : String) : Node.Kind :=
  if (Scalar.ofText? lexeme).isSome then .scalarType else .userType

/-- The kind of node that holds the label of a field. -/
def labelKind? (lexeme : String) : Option Node.Kind :=
  [("repeated", .repeated), ("optional", .optional)].lookup lexeme

/-- Reads the label of a field where there may be one. -/
def fieldLabel (labelled : Bool) : Parse (List Node) := do
  let label ← accept? fun token => labelled && (labelKind? token.lexeme).isSome
  return label.toList.filterMap fun token =>
    (labelKind? token.lexeme).map (Node.leaf · token.lexeme)

/-- Reads `type name = number;` with a label in front if labels are allowed. -/
def field (labelled : Bool) : Parse Node := do
  let label ← fieldLabel labelled
  let type ← expect .fieldType
  let tail ← fieldTail
  return ⟨.field, "", label ++ .leaf (typeKind type.lexeme) type.lexeme :: tail⟩

/-- Reads `map<key, value> name = number;`. -/
def map : Parse Node := do
  let keyword ← expect (.word "map")
  let _ ← expect (.mark .openAngle)
  let key ← expect .mapKeyType
  let _ ← expect (.mark .comma)
  let value ← expect .mapValueType
  let _ ← expect (.mark .closeAngle)
  let tail ← fieldTail
  return ⟨.map, keyword.lexeme, .leaf .mapKey key.lexeme :: .leaf .mapValue value.lexeme :: tail⟩

/-- Reads `NAME = value;` in an enum. -/
def constant : Parse Node := do
  let name ← expect .constantName
  let _ ← expect (.mark .equals)
  let number ← expect .enumValue
  let value := number.integerValue
  require (NumberDomain.enumValue.contains value) (.valueOutOfRange value) number
  let options ← optionList
  let _ ← expect (.mark .semicolon)
  return ⟨.enumConstant, "",
    .leaf .identifier name.lexeme :: .leaf .fieldNumber number.lexeme :: options⟩

instance : Consumes fieldTail := by unfold fieldTail; infer_instance

instance (labelled : Bool) : Lawful (fieldLabel labelled) := by unfold fieldLabel; infer_instance

instance (labelled : Bool) : Consumes (field labelled) := by unfold field; infer_instance

instance : Consumes map := by unfold map; infer_instance

instance : Consumes constant := by unfold constant; infer_instance

end ProtoSchema.Parse
