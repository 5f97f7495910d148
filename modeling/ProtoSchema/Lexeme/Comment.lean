/-!
# Comment marks

A line comment starts with a word that begins with two slashes. A block comment starts with a word
that begins with a slash and an asterisk, and runs to a word that ends in an asterisk and a slash.
The word made of a slash, an asterisk and a slash opens a comment and never closes one.

* `blockBody?`: the text between the two marks of a block comment.
* `OpenComment.afterWord`: which comment is open after a word, given which one was open before it.
-/

namespace ProtoSchema.Lexeme

/-- Whether a word starts a line comment. -/
def opensLineComment (lexeme : String) : Bool := ['/', '/'].isPrefixOf lexeme.toList

/-- Whether a word starts a block comment. -/
def opensBlockComment (lexeme : String) : Bool := ['/', '*'].isPrefixOf lexeme.toList

/-- Whether a word ends a block comment. -/
def closesBlockComment (lexeme : String) : Bool :=
  ['*', '/'].isSuffixOf lexeme.toList && lexeme.toList != ['/', '*', '/']

/-- The text between the opening and the closing mark of a block comment. -/
def blockBody? (text : List Char) : Option (List Char) :=
  (['/', '*'].isPrefixOf? text).bind fun rest => ['*', '/'].isSuffixOf? rest

end ProtoSchema.Lexeme

namespace ProtoSchema

/-- A comment that has been opened: it ends with its line or with a closing word. -/
inductive OpenComment
  | line
  | block
deriving DecidableEq, Repr

namespace OpenComment

/-- The comment that is open after a word. -/
def afterWord (comment : Option OpenComment) (lexeme : String) : Option OpenComment :=
  match comment with
  | none =>
    if Lexeme.opensLineComment lexeme then some line
    else if Lexeme.opensBlockComment lexeme && !Lexeme.closesBlockComment lexeme then some block
    else none
  | some line => some line
  | some block => if Lexeme.closesBlockComment lexeme then none else some block

/-- The comment that is open after a line break. -/
def afterLine : Option OpenComment → Option OpenComment
  | some block => some block
  | _ => none

end OpenComment

end ProtoSchema
