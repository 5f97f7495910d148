import ProtoSchema.Statement.Terminal

/-!
# Diagnostics

A diagnostic says what is wrong and at which token. Most cost a statement: its line is skipped and
reading goes on. A body or a block comment that never ends is fatal, since there is no place from
which to go on.

* `Problem`: what may be wrong; a `Violation` concerns tokens of the right form.
* `Diagnostic.message`, `Diagnostic.text`: how a diagnostic reads, without and with its token.
* `Diagnostic.same`: equality up to the ASCII case of the token's word.
-/

namespace ProtoSchema

/-- A rule that tokens of the right form may still break. -/
inductive Violation
  /-- The language has no such version. -/
  | unknownVersion (version : String)
  /-- The value of an enum constant does not fit. -/
  | valueOutOfRange (value : Int)
  /-- A reserved number does not fit its scope. -/
  | reservedOutOfRange (number : Int)
  /-- A reserved range ends before it starts. -/
  | emptyRange (first last : Int)
  /-- A reserved statement has names as well as numbers. -/
  | mixedEntries
deriving DecidableEq, Repr

/-- What is wrong with a schema at one place. -/
inductive Problem
  /-- Another token stands where the terminal is needed. -/
  | unexpected (terminal : Terminal)
  /-- The tokens end where the terminal is needed. -/
  | ranOut (terminal : Terminal)
  /-- A statement is needed and there is no token. -/
  | missingStatement
  /-- A comment is needed and its opening mark is missing. -/
  | missingComment (mark : OpenComment)
  /-- A token that starts no statement stands between the statements of a file. -/
  | strayToken
  /-- A word starts no statement of the scope. -/
  | unknownStatement (scope : Scope)
  /-- A rule is broken. -/
  | broken (rule : Violation)
  /-- The body of a block never ends. -/
  | unterminatedBody (scope : Scope)
  /-- A block comment never ends. -/
  | unterminatedComment
deriving DecidableEq, Repr

/-- How a broken rule reads. -/
def Violation.message : Violation → String
  | unknownVersion version => s!"unrecognized syntax identifier '{version}'"
  | valueOutOfRange value => s!"enum value {value} is out of range"
  | reservedOutOfRange number => s!"reserved number {number} is out of range"
  | emptyRange first last => s!"reserved range {first} to {last} is empty"
  | mixedEntries => "reserved statement cannot mix field names and numbers"

/-- Whether reading ends with a problem. -/
def Problem.isFatal : Problem → Bool
  | unterminatedBody _ | unterminatedComment => true
  | _ => false

/-- The opening mark of a comment. -/
def OpenComment.opener : OpenComment → String
  | line => "//"
  | block => "/*"

/-- A problem and the token where it shows. -/
structure Diagnostic where
  problem : Problem
  token : Token
deriving DecidableEq, Repr

namespace Diagnostic

/-- Whether reading ends with a diagnostic. -/
def isFatal (diagnostic : Diagnostic) : Bool := diagnostic.problem.isFatal

/-- What is wrong, in words. -/
def message (diagnostic : Diagnostic) : String :=
  let lexeme := diagnostic.token.lexeme
  match diagnostic.problem with
  | .unexpected terminal =>
    if diagnostic.token.isLineEnd then s!"expected {terminal.description} before end of line"
    else s!"expected {terminal.description}, found '{lexeme}'"
  | .ranOut terminal => s!"expected {terminal.description}, found end of input"
  | .missingStatement => "expected statement"
  | .missingComment mark => s!"expected '{mark.opener}'"
  | .strayToken => "invalid top-level statement"
  | .unknownStatement .file => s!"unknown top-level statement '{lexeme}'"
  | .unknownStatement scope => s!"unknown {scope.label} member '{lexeme}'"
  | .broken rule => rule.message
  | .unterminatedBody scope => s!"unterminated {scope.label} body"
  | .unterminatedComment => "unterminated block comment"

/-- What is wrong and where. -/
def text (diagnostic : Diagnostic) : String := s!"{diagnostic.message} : @ {diagnostic.token.text}"

/-- Whether two diagnostics agree in weight and message, and their tokens up to ASCII case. -/
def same (a b : Diagnostic) : Bool :=
  a.isFatal == b.isFatal && a.message == b.message && a.token.same b.token

end Diagnostic

end ProtoSchema
