import ProtoSchema.Node.Basic
import ProtoSchema.Statement.Parse
import ProtoSchema.Text.Blank

/-!
# Comments

A line comment takes the tokens up to the end of its line and leaves the line break. A block comment
takes the tokens through the first one that closes it, over any number of lines; one that is never
closed is fatal.

* `lineCommentText`: the words of a line comment with single spaces between them.
* `blockCommentText`: the words of a block comment, lines kept, between its marks.
-/

namespace ProtoSchema.Parse

/-- The text of a line comment that a token opens and others follow. -/
def lineCommentText (opener : Token) (others : List Token) : String :=
  let glued := String.ofList (opener.lexeme.toList.drop 2)
  let words := others.map Token.lexeme
  " ".intercalate (if glued = "" then words else glued :: words)

/-- The text of a block comment with one more token: a line break is kept, and a word is set off by
a space unless it starts a line. -/
def joinToken (text : List Char) (token : Token) : List Char :=
  if token.isLineEnd then text ++ ['\n']
  else if text.getLast? = some '\n' then text ++ token.lexeme.toList
  else text ++ ' ' :: token.lexeme.toList

/-- The text between the marks of a block comment, without blanks at its ends. -/
def blockCommentText (opener : Token) (others : List Token) : String :=
  let text := others.foldl joinToken opener.lexeme.toList
  String.ofList (trim ((Lexeme.blockBody? text).getD text))

/-- A comment with its opening mark and its text. -/
def commentNode (mark : OpenComment) (text : String) : Node :=
  ⟨.comment, mark.opener, [.leaf .commentText text]⟩

/-- Passes the token that opens a comment. -/
def commentOpener (mark : OpenComment) (test : String → Bool) : Parse Token := fun tape =>
  match tape.takeIf fun token => test token.lexeme with
  | (some opener, after) => .ok opener after
  | (none, _) => .error ⟨.missingComment mark, tape.nearest⟩ tape

/-- Passes the tokens that do not satisfy a test and gives them back. -/
def takeUntil (test : Token → Bool) : Parse (List Token) := fun tape =>
  .ok (tape.rest.takeWhile (!test ·)) (tape.skipWhile (!test ·))

/-- Whether a token closes a block comment. -/
def closesComment (token : Token) : Bool :=
  !token.isLineEnd && Lexeme.closesBlockComment token.lexeme

/-- Reads a line comment. -/
def lineComment : Parse Node := do
  let opener ← commentOpener .line Lexeme.opensLineComment
  let others ← takeUntil Token.isLineEnd
  return commentNode .line (lineCommentText opener others)

/-- Passes the token that closes the block comment that a token opened. -/
def commentCloser (opener : Token) : Parse Token := fun tape =>
  match tape.peek? with
  | some token => .ok token tape.advance
  | none => .error ⟨.unterminatedComment, opener⟩ tape

/-- Reads a block comment. -/
def blockComment : Parse Node := do
  let opener ← commentOpener .block Lexeme.opensBlockComment
  if Lexeme.closesBlockComment opener.lexeme then
    return commentNode .block (blockCommentText opener [])
  else
    let others ← takeUntil closesComment
    let closer ← commentCloser opener
    return commentNode .block (blockCommentText opener (others ++ [closer]))

instance (mark : OpenComment) (test : String → Bool) : Consumes (commentOpener mark test) where
  reaches tape := by
    unfold commentOpener Tape.takeIf
    cases tape.peek?.filter fun token => test token.lexeme
    · exact .refl tape
    · exact Tape.reaches_advance tape
  rest_of_fatal {tape diagnostic after} h hfatal := by
    unfold commentOpener at h
    split at h <;> cases h
    cases hfatal
  shorter {tape token after} h := by
    unfold commentOpener Tape.takeIf at h
    cases htest : tape.peek?.filter fun token => test token.lexeme with
    | none => simp [htest] at h
    | some first =>
      simp only [htest, EStateM.Result.ok.injEq] at h
      obtain ⟨-, rfl⟩ := h
      refine Tape.advance_shorter ?_
      cases hrest : tape.rest with
      | nil => simp [Tape.peek?, hrest] at htest
      | cons first rest => simp [Tape.remaining, hrest]

instance (test : Token → Bool) : Lawful (takeUntil test) where
  reaches tape := tape.reaches_skipWhile _
  rest_of_fatal h := by cases h

instance (opener : Token) : Lawful (commentCloser opener) where
  reaches tape := by
    unfold commentCloser
    split
    · exact Tape.reaches_advance tape
    · exact .refl tape
  rest_of_fatal {tape diagnostic after} h _ := by
    unfold commentCloser at h
    split at h
    · cases h
    · rename_i hpeek
      cases h
      simpa [Tape.peek?] using hpeek

instance : Consumes lineComment := by unfold lineComment; infer_instance

instance : Consumes blockComment := by unfold blockComment; infer_instance

end ProtoSchema.Parse
