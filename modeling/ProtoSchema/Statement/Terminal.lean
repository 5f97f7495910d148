import ProtoSchema.Lexeme.Integer
import ProtoSchema.Lexeme.Quoted
import ProtoSchema.Schema.Scalar
import ProtoSchema.Statement.Scope
import ProtoSchema.Token.Basic

/-!
# What may stand at one place of a statement

A terminal is a class of tokens: a fixed word, a mark, or a word of some form in some role.
Statements are written in terms of terminals, and a diagnostic names the one that was missing.

* `Terminal.admits`: whether a token belongs to the class.
* `Terminal.description`: how a diagnostic names the class.
-/

namespace ProtoSchema

namespace Token

/-- The text that a quoted literal denotes, and no text for any other token. -/
def literalText (token : Token) : String := (Lexeme.literal? token.lexeme).getD ""

/-- The value of an integer, and zero for any other token. -/
def integerValue (token : Token) : Int := (Lexeme.integer? token.lexeme).getD 0

/-- Whether a token is a quoted literal. -/
def isQuoted (token : Token) : Bool := Lexeme.isQuoted token.lexeme

/-- Whether a token is of the kind of numbers. -/
def isNumber (token : Token) : Bool := token.kind == .number

end Token

/-- A class of tokens that a statement needs at one place. -/
inductive Terminal
  /-- A fixed word. -/
  | word (lexeme : String)
  /-- A mark. -/
  | mark (sign : Punctuation)
  /-- One of two marks. -/
  | eitherMark (first second : Punctuation)
  /-- The name of a block, an identifier. -/
  | blockName (keyword : String)
  /-- The name of a field, an identifier. -/
  | fieldName
  /-- The name of an enum constant, an identifier. -/
  | constantName
  /-- The name of a method, an identifier. -/
  | methodName
  /-- The name of a package, a path. -/
  | packageName
  /-- The name of an option, a path. -/
  | optionName
  /-- The name of an extension, a reference. -/
  | extensionName
  /-- The type of a request or a response, a reference. -/
  | messageType
  /-- The type of a field. -/
  | fieldType
  /-- The type of the values of a map. -/
  | mapValueType
  /-- The type of the keys of a map. -/
  | mapKeyType
  /-- The version of the language, a quoted literal. -/
  | versionText
  /-- The path of an imported file, a quoted literal. -/
  | importPath
  /-- A reserved name, a quoted literal. -/
  | reservedName
  /-- The value of an enum constant, an integer. -/
  | enumValue
  /-- A reserved number or the start of a range, an integer. -/
  | reservedNumber
  /-- The end of a range, an integer or the word for the greatest number. -/
  | rangeEnd
  /-- The number of a field, an integer of its domain. -/
  | fieldNumber
  /-- The value of an option: a quoted literal, a number or a path. -/
  | optionValue
  /-- The first entry of a reserved statement: a quoted literal or a number. -/
  | reservation
  /-- The first word of a member of a oneof. -/
  | oneofMember
deriving DecidableEq, Repr

namespace Terminal

/-- How a diagnostic names a class of tokens. -/
def description : Terminal → String
  | word lexeme => s!"'{lexeme}'"
  | mark sign => s!"'{sign.text}'"
  | eitherMark first second => s!"'{first.text}' or '{second.text}'"
  | blockName keyword => s!"{keyword} name"
  | fieldName => "field name"
  | constantName => "enum constant name"
  | methodName => "rpc name"
  | packageName => "package name"
  | optionName => "option name"
  | extensionName => "extension name"
  | messageType => "message type"
  | fieldType => "field type"
  | mapValueType => "map value type"
  | mapKeyType => "map key type (integral, bool or string)"
  | versionText => "quoted syntax identifier"
  | importPath => "quoted import path"
  | reservedName => "quoted field name"
  | enumValue => "enum value"
  | reservedNumber | fieldNumber => "field number"
  | rangeEnd => "range end"
  | optionValue => "option value"
  | reservation => "reserved names or field numbers"
  | oneofMember => "oneof field"

/-- Whether a token belongs to a class. -/
def admits (terminal : Terminal) (token : Token) : Bool :=
  match terminal with
  | word lexeme => token.lexeme == lexeme
  | mark sign => token.isMark sign
  | eitherMark first second => token.isMark first || token.isMark second
  | blockName _ | fieldName | constantName | methodName =>
    token.isWord && Lexeme.isIdentifier token.lexeme
  | packageName | optionName => token.isWord && Lexeme.isPath token.lexeme
  | extensionName | messageType => token.isWord && Lexeme.isReference token.lexeme
  | fieldType | mapValueType => token.isWord && Lexeme.isTypeName token.lexeme
  | mapKeyType => (Scalar.mapKeyOfText? token.lexeme).isSome
  | versionText | importPath | reservedName => token.isQuoted
  | enumValue | reservedNumber => (Lexeme.integer? token.lexeme).isSome
  | rangeEnd => token.lexeme == "max" || (Lexeme.integer? token.lexeme).isSome
  | fieldNumber => (Lexeme.integer? token.lexeme).any NumberDomain.fieldNumber.contains
  | optionValue =>
    token.isQuoted || token.isNumber || token.isWord && Lexeme.isPath token.lexeme
  | reservation => token.isQuoted || token.isNumber
  | oneofMember => (Scope.oneof.statement? token.lexeme).isSome

end Terminal

end ProtoSchema
