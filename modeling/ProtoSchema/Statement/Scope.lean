import ProtoSchema.Lexeme.TypeName
import ProtoSchema.Schema.NumberDomain

/-!
# Which statement a word starts

A file and each kind of block admit statements of their own, and the first word of a statement tells
which one it is. Comments may stand everywhere.

* `Scope.openers`: the words that start a statement in a scope.
* `Scope.implicit?`: the statement that starts with a name instead.
* `Scope.statement?`: the statement that a word starts in a scope.
-/

namespace ProtoSchema

/-- A kind of statement. -/
inductive Statement
  | version
  | importFile
  | package
  | option
  | message
  | oneof
  | enum
  | service
  | method
  | field (labelled : Bool)
  | map
  | constant
  | reserved (domain : NumberDomain)
  | comment (mark : OpenComment)
deriving DecidableEq, Repr

/-- Where a statement stands. -/
inductive Scope
  | file
  | message
  | oneof
  | enum
  | service
  | method
deriving DecidableEq, Repr

namespace Scope

/-- How a scope is called. -/
def label : Scope → String
  | file => "top-level"
  | message => "message"
  | oneof => "oneof"
  | enum => "enum"
  | service => "service"
  | method => "rpc"

/-- The words that start a statement in a scope. -/
def openers : Scope → List (String × Statement)
  | file =>
    [("syntax", .version), ("import", .importFile), ("package", .package), ("option", .option),
     ("message", .message), ("enum", .enum), ("service", .service)]
  | message =>
    [("message", .message), ("enum", .enum), ("map", .map), ("reserved", .reserved .fieldNumber),
     ("oneof", .oneof), ("option", .option), ("repeated", .field true), ("optional", .field true)]
  | oneof => [("option", .option)]
  | enum => [("option", .option), ("reserved", .reserved .enumValue)]
  | service => [("rpc", .method), ("option", .option)]
  | method => [("option", .option)]

/-- The statement that starts with a name: a field with its type, a constant with its own name. A
field of a oneof has no label, so the labels start nothing there. -/
def implicit? : Scope → String → Option Statement
  | message, lexeme => if Lexeme.isTypeName lexeme then some (.field true) else none
  | oneof, lexeme =>
    if Lexeme.isTypeName lexeme && !(["repeated", "optional"].contains lexeme) then
      some (.field false)
    else none
  | enum, lexeme =>
    if !Lexeme.isKeyword lexeme && Lexeme.isIdentifier lexeme then some .constant else none
  | _, _ => none

/-- The statement that a word starts in a scope. -/
def statement? (scope : Scope) (lexeme : String) : Option Statement :=
  if Lexeme.opensLineComment lexeme then some (.comment .line)
  else if Lexeme.opensBlockComment lexeme then some (.comment .block)
  else (scope.openers.lookup lexeme).or (scope.implicit? lexeme)

end Scope

end ProtoSchema
