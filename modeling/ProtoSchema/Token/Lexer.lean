import ProtoSchema.Lexeme.Quoted
import ProtoSchema.Text.Blank
import ProtoSchema.Token.Basic

/-!
# From characters to tokens

The lexer takes one character at a time and keeps the word it is building. A blank, a mark or a line
break ends the word. A quote that starts a word outside comments opens a literal, in which blanks
and marks are part of the word; the literal ends with its quote or its line, and what follows the
closing quote without a gap still belongs to the word.

* `Lexer.step`: the tokens that one character completes, and the lexer after it.
* `Lexer.feed`: the same for characters in a row; `Lexer.feed_append` splits the row anywhere.
* `tokenize`: all tokens of a text.
-/

namespace ProtoSchema

/-- A literal whose closing quote has not been read. -/
structure OpenLiteral where
  quote : Char
  escaped : Bool := false
deriving DecidableEq, Repr

/-- The literal after one more character, or nothing once it is closed. -/
def OpenLiteral.after (literal : OpenLiteral) (c : Char) : Option OpenLiteral :=
  if literal.escaped then some { literal with escaped := false }
  else if c = '\\' then some { literal with escaped := true }
  else if c = literal.quote then none
  else some literal

/-- A word that is being read. -/
structure PendingWord where
  start : Position
  text : String
  literal : Option OpenLiteral
deriving DecidableEq, Repr

/-- The word with one more character. -/
def PendingWord.push (word : PendingWord) (c : Char) : PendingWord :=
  { word with text := word.text.push c, literal := word.literal.bind (·.after c) }

/-- The state between two characters: the word being read and the comment that is open. -/
structure Lexer where
  word : Option PendingWord := none
  comment : Option OpenComment := none
deriving DecidableEq, Repr

namespace Lexer

/-- Whether the next character belongs to a literal. -/
def inLiteral (lexer : Lexer) : Bool := lexer.word.any (·.literal.isSome)

/-- Adds a character to the word, or starts a word with it. -/
def extend (lexer : Lexer) (c : Char) (position : Position) : Lexer :=
  match lexer.word with
  | some word => { lexer with word := some (word.push c) }
  | none =>
    let opens := Lexeme.isQuote c && lexer.comment.isNone
    let literal := if opens then some { quote := c } else none
    { lexer with word := some ⟨position, String.singleton c, literal⟩ }

/-- Ends the word, if there is one, and notes what it does to comments. -/
def flush (lexer : Lexer) : List Token × Lexer :=
  match lexer.word with
  | none => ([], lexer)
  | some word =>
    ([.ofLexeme word.start word.text], ⟨none, OpenComment.afterWord lexer.comment word.text⟩)

/-- Reads a character that stands at a place. -/
def step (lexer : Lexer) (c : Char) (position : Position) : List Token × Lexer :=
  if c = '\n' then
    let (tokens, after) := lexer.flush
    (tokens ++ [.lineBreak position], { after with comment := OpenComment.afterLine after.comment })
  else if lexer.inLiteral then ([], lexer.extend c position)
  else if isBlank c then lexer.flush
  else if isPunctuation c then
    let (tokens, after) := lexer.flush
    (tokens ++ [⟨.punctuation, position, String.singleton c⟩], after)
  else ([], lexer.extend c position)

/-- Reads characters in order: the tokens they complete, and the lexer after them. -/
def feed (lexer : Lexer) : List (Char × Position) → List Token × Lexer
  | [] => ([], lexer)
  | (c, position) :: rest =>
    let (tokens, after) := lexer.step c position
    let (others, last) := after.feed rest
    (tokens ++ others, last)

theorem feed_append (lexer : Lexer) (first second : List (Char × Position)) :
    lexer.feed (first ++ second) =
      ((lexer.feed first).1 ++ ((lexer.feed first).2.feed second).1,
       ((lexer.feed first).2.feed second).2) := by
  induction first generalizing lexer with
  | nil => rfl
  | cons character rest ih =>
    obtain ⟨c, position⟩ := character
    simp only [List.cons_append, feed, ih, List.append_assoc]

end Lexer

/-- The tokens of a text, in order; the end of the text ends the last word. -/
def tokenize (source : String) : List Token :=
  let (tokens, last) := Lexer.feed {} (Reader.ofString source).characters
  tokens ++ last.flush.1

end ProtoSchema
