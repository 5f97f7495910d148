import ProtoSchema.Statement.Comment
import ProtoSchema.Statement.Declaration
import ProtoSchema.Statement.Field
import ProtoSchema.Statement.Reserved

/-!
# Reading one statement

Most statements are read whole. A statement with a body is read up to its opening brace and leaves
an open frame: the node so far, where its members stand, and the brace that must be matched.

* `Frame`: a block whose body is being read.
* `Reading`: a whole statement or an open frame.
* `Statement.start`: reads any statement as far as it goes without a body.
-/

namespace ProtoSchema

/-- A block whose closing brace has not been read. -/
structure Frame where
  scope : Scope
  opener : Token
  node : Node
deriving DecidableEq, Repr

/-- The block with one more member. -/
def Frame.add (frame : Frame) (member : Node) : Frame :=
  { frame with node := frame.node.push member }

/-- What reading a statement gives. -/
inductive Reading
  | whole (node : Node)
  | opened (frame : Frame)
deriving DecidableEq, Repr

namespace Parse

/-- Passes any token. -/
def anyToken : Parse Token := fun tape =>
  match tape.peek? with
  | some token => .ok token tape.advance
  | none => .error ⟨.missingStatement, tape.nearest⟩ tape

/-- Reads `keyword Name` and the brace that opens the body. -/
def header (kind : Node.Kind) (scope : Scope) : Parse Reading := do
  let keyword ← anyToken
  let name ← expect (.blockName keyword.lexeme)
  let opener ← expect (.mark .openBrace)
  return .opened ⟨scope, opener, ⟨kind, keyword.lexeme, [.leaf .identifier name.lexeme]⟩⟩

/-- Passes the word that makes a payload a stream; before a closing parenthesis it is a type. -/
def streamWord : Parse (Option Token) := fun tape =>
  match tape.rest with
  | word :: next :: _ =>
    if word.lexeme == "stream" && !next.isMark .closeParen then .ok (some word) tape.advance
    else .ok none tape
  | _ => .ok none tape

/-- Reads the type of a request or a response in parentheses. -/
def payload (kind : Node.Kind) : Parse Node := do
  let _ ← expect (.mark .openParen)
  let stream ← streamWord
  let type ← expect .messageType
  let _ ← expect (.mark .closeParen)
  return ⟨kind, type.lexeme, stream.toList.map fun word => .leaf .stream word.lexeme⟩

/-- Reads `rpc Name (Request) returns (Response)`. -/
def signature : Parse Node := do
  let keyword ← expect (.word "rpc")
  let name ← expect .methodName
  let input ← payload .methodInput
  let _ ← expect (.word "returns")
  let output ← payload .methodOutput
  return ⟨.method, keyword.lexeme, [.leaf .identifier name.lexeme, input, output]⟩

/-- Reads a signature and the semicolon that ends it or the brace that opens its body. -/
def method : Parse Reading := do
  let node ← signature
  let mark ← expect (.eitherMark .semicolon .openBrace)
  return if mark.isMark .semicolon then .whole node else .opened ⟨.method, mark, node⟩

/-- Reads a statement that has no body. -/
def whole (parse : Parse Node) : Parse Reading := do
  let node ← parse
  return .whole node

instance : Consumes anyToken where
  reaches tape := by
    unfold anyToken
    split
    · exact Tape.reaches_advance tape
    · exact .refl tape
  rest_of_fatal {tape diagnostic after} h hfatal := by
    unfold anyToken at h
    split at h <;> cases h
    cases hfatal
  shorter {tape token after} h := by
    unfold anyToken at h
    cases hrest : tape.rest with
    | nil => simp [Tape.peek?, hrest] at h
    | cons first rest =>
      simp only [Tape.peek?, hrest, List.head?_cons, EStateM.Result.ok.injEq] at h
      obtain ⟨-, rfl⟩ := h
      exact Tape.advance_shorter (by simp [Tape.remaining, hrest])

instance : Lawful streamWord where
  reaches tape := by
    unfold streamWord
    split
    · split
      · exact Tape.reaches_advance tape
      · exact .refl tape
    · exact .refl tape
  rest_of_fatal {tape diagnostic after} h := by
    unfold streamWord at h
    split at h
    · split at h <;> cases h
    · cases h

instance (kind : Node.Kind) (scope : Scope) : Consumes (header kind scope) := by
  unfold header; infer_instance

instance (kind : Node.Kind) : Consumes (payload kind) := by unfold payload; infer_instance

instance : Consumes signature := by unfold signature; infer_instance

instance : Consumes method := by unfold method; infer_instance

instance (parse : Parse Node) [Consumes parse] : Consumes (whole parse) := by
  unfold whole; infer_instance

end Parse

namespace Statement

open Parse in
/-- Reads a statement, up to its opening brace if it has a body. -/
def start : Statement → Parse Reading
  | version => whole Parse.version
  | importFile => whole Parse.importFile
  | package => whole Parse.package
  | option => whole Parse.option
  | message => header .message .message
  | oneof => header .oneof .oneof
  | enum => header .enum .enum
  | service => header .service .service
  | method => Parse.method
  | field labelled => whole (Parse.field labelled)
  | map => whole Parse.map
  | constant => whole Parse.constant
  | reserved domain => whole (Parse.reserved domain)
  | comment .line => whole lineComment
  | comment .block => whole blockComment

instance (statement : Statement) : Parse.Consumes statement.start := by
  cases statement with
  | comment mark => cases mark <;> unfold start <;> infer_instance
  | _ => unfold start; infer_instance

end Statement

end ProtoSchema
