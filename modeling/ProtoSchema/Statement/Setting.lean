import ProtoSchema.Node.Basic
import ProtoSchema.Statement.Parse

/-!
# Options

An option gives a name a value. It is a statement of its own, or one of a list in brackets after a
field or an enum constant. Inside brackets a line may break around each part of an option.
-/

namespace ProtoSchema.Parse

/-- Reads the rest of an option name that started with a parenthesis: a reference to an extension,
the other parenthesis, and an optional path inside the extension. -/
def extensionName : Parse String := do
  let extension ← expect .extensionName
  let _ ← expect (.mark .closeParen)
  let member ← accept? fun token => Lexeme.isMemberPath token.lexeme
  return "(" ++ extension.lexeme ++ ")" ++ (member.map Token.lexeme).getD ""

/-- Reads the name of an option. -/
def optionName : Parse String := do
  let paren ← accept? (·.isMark .openParen)
  if paren.isSome then extensionName
  else
    let name ← expect .optionName
    return name.lexeme

/-- Reads the value of an option: a literal gives the text it denotes, all else stays as written. -/
def optionValue : Parse String := do
  let token ← expect .optionValue
  return (Lexeme.literal? token.lexeme).getD token.lexeme

/-- Passes line breaks where they are allowed. -/
def layout (multiline : Bool) : Parse Unit :=
  if multiline then skipBreaks else pure ()

/-- Reads `name = value`. -/
def assignment (multiline : Bool) : Parse Node := do
  layout multiline
  let name ← optionName
  layout multiline
  let _ ← expect (.mark .equals)
  layout multiline
  let value ← optionValue
  return ⟨.option, "option", [.leaf .identifier name, .leaf .optionValue value]⟩

/-- Reads `option name = value;`. -/
def option : Parse Node := do
  let _ ← expect (.word "option")
  let node ← assignment false
  let _ ← expect (.mark .semicolon)
  return node

/-- Reads one option of a list and the line breaks after it. -/
def listedOption : Parse Node := do
  let node ← assignment true
  skipBreaks
  return node

instance : Lawful extensionName := by unfold extensionName; infer_instance

instance : Lawful optionName := by unfold optionName; infer_instance

instance : Lawful optionValue := by unfold optionValue; infer_instance

instance (multiline : Bool) : Lawful (layout multiline) := by unfold layout; infer_instance

instance (multiline : Bool) : Lawful (assignment multiline) := by
  unfold assignment; infer_instance

instance : Consumes option := by unfold option; infer_instance

instance : Lawful listedOption := by unfold listedOption; infer_instance

/-- Reads a list of options in brackets, or nothing if there is no bracket. -/
def optionList : Parse (List Node) := do
  let bracket ← accept? (·.isMark .openBracket)
  if bracket.isSome then separated listedOption .closeBracket else return []

instance : Lawful optionList := by unfold optionList; infer_instance

end ProtoSchema.Parse
