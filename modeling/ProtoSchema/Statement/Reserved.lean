import ProtoSchema.Node.Basic
import ProtoSchema.Statement.Parse

/-!
# Reserved names and numbers

A reserved statement lists either names or numbers; what stands first decides which, and an entry of
the other sort fails the statement. Numbers must suit the scope, and a range must not be empty.
-/

namespace ProtoSchema.Parse

/-- Fails if the next token satisfies a test. -/
def refuseMixed (test : Token → Bool) : Parse Unit := fun tape =>
  match tape.peek?.filter test with
  | some token => .error ⟨.broken .mixedEntries, token⟩ tape
  | none => .ok () tape

/-- Reads a reserved name. -/
def reservedName : Parse Node := do
  refuseMixed Token.isNumber
  let literal ← expect .reservedName
  return .leaf .stringLiteral literal.literalText

/-- Fails unless the number of a token suits the scope. -/
def requireIn (domain : NumberDomain) (token : Token) : Parse Unit :=
  require (domain.contains token.integerValue) (.reservedOutOfRange token.integerValue) token

/-- Checks the end of a range: the greatest number there is, or a number of the scope that is not
before the start. -/
def requireRangeEnd (domain : NumberDomain) (first stop : Token) : Parse Unit := do
  if (Lexeme.integer? stop.lexeme).isSome then
    requireIn domain stop
    require (first.integerValue ≤ stop.integerValue)
      (.emptyRange first.integerValue stop.integerValue) stop
  else return ()

/-- Reads the end of a range after the word that announces it, or nothing. -/
def rangeEnd (domain : NumberDomain) (first : Token) : Parse (List Node) := do
  let word ← accept? (·.lexeme == "to")
  if word.isSome then
    let stop ← expect .rangeEnd
    requireRangeEnd domain first stop
    return [.leaf .rangeEnd stop.lexeme]
  else return []

/-- Reads a reserved number or a range of them. -/
def reservedRange (domain : NumberDomain) : Parse Node := do
  refuseMixed Token.isQuoted
  let first ← expect .reservedNumber
  requireIn domain first
  let ends ← rangeEnd domain first
  return ⟨.range, first.lexeme, ends⟩

instance (test : Token → Bool) : Lawful (refuseMixed test) where
  reaches tape := by
    unfold refuseMixed
    split <;> exact .refl tape
  rest_of_fatal {tape diagnostic after} h hfatal := by
    unfold refuseMixed at h
    split at h <;> cases h
    cases hfatal

instance : Lawful reservedName := by unfold reservedName; infer_instance

instance (domain : NumberDomain) (token : Token) : Lawful (requireIn domain token) := by
  unfold requireIn; infer_instance

instance (domain : NumberDomain) (first stop : Token) :
    Lawful (requireRangeEnd domain first stop) := by
  unfold requireRangeEnd; infer_instance

instance (domain : NumberDomain) (first : Token) : Lawful (rangeEnd domain first) := by
  unfold rangeEnd; infer_instance

instance (domain : NumberDomain) : Lawful (reservedRange domain) := by
  unfold reservedRange; infer_instance

/-- Reads the entries of a reserved statement and its semicolon. -/
def reservations (domain : NumberDomain) : Parse (List Node) := do
  let first ← check .reservation
  if first.isQuoted then separated reservedName .semicolon
  else separated (reservedRange domain) .semicolon

instance (domain : NumberDomain) : Lawful (reservations domain) := by
  unfold reservations; infer_instance

/-- Reads `reserved` with names or with numbers of a scope. -/
def reserved (domain : NumberDomain) : Parse Node := do
  let keyword ← expect (.word "reserved")
  let entries ← reservations domain
  return ⟨.reserved, keyword.lexeme, entries⟩

instance (domain : NumberDomain) : Consumes (reserved domain) := by
  unfold reserved; infer_instance

end ProtoSchema.Parse
