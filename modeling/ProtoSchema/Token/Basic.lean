import ProtoSchema.Lexeme.Keyword
import ProtoSchema.Lexeme.Number
import ProtoSchema.Lexeme.Punctuation
import ProtoSchema.Text.Case
import ProtoSchema.Text.Reader

/-!
# Tokens

A token is a word of a schema with its kind and the place of its first character. A line break is a
token too, at the start of the line that it opens.

* `TokenKind.ofLexeme`: the kind of a word.
* `Token.text`: a token with its place, as diagnostics show it.
* `Token.same`: equality up to the ASCII case of the word.
-/

namespace ProtoSchema

/-- What sort of word a token is. -/
inductive TokenKind
  | keyword
  | text
  | number
  | punctuation
  | lineEnd
deriving DecidableEq, Repr

/-- Whether a word is a single mark. -/
def Lexeme.isMark (lexeme : String) : Bool :=
  match lexeme.toList with
  | [c] => isPunctuation c
  | _ => false

/-- The kind of a word: keywords first, then numbers, then marks, and all else is text. -/
def TokenKind.ofLexeme (lexeme : String) : TokenKind :=
  if Lexeme.isKeyword lexeme then keyword
  else if Lexeme.isNumber lexeme then number
  else if Lexeme.isMark lexeme then punctuation
  else text

/-- A word with its kind and place. -/
structure Token where
  kind : TokenKind
  position : Position
  lexeme : String
deriving DecidableEq, Repr

namespace Token

/-- A word at a place. -/
def ofLexeme (position : Position) (lexeme : String) : Token :=
  ⟨.ofLexeme lexeme, position, lexeme⟩

/-- A line break at a place. -/
def lineBreak (position : Position) : Token := ⟨.lineEnd, position, "\n"⟩

/-- Whether a token is a line break. -/
def isLineEnd (token : Token) : Bool := token.kind == .lineEnd

/-- Whether a token is of a kind that names belong to. -/
def isWord (token : Token) : Bool := token.kind == .keyword || token.kind == .text

/-- Whether a token is written as a mark. -/
def isMark (token : Token) (mark : Punctuation) : Bool := token.lexeme == mark.text

/-- A token with its place; a line break shows as an escape. -/
def text (token : Token) : String :=
  let lexeme := if token.isLineEnd then "\\n" else token.lexeme
  s!"{lexeme} L{token.position.line}:C{token.position.column}"

/-- Whether two tokens agree in kind, place and, up to ASCII case, word. -/
def same (a b : Token) : Bool :=
  a.kind == b.kind && a.position == b.position && sameText a.lexeme b.lexeme

end Token

end ProtoSchema
