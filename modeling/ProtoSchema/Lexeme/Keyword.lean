import ProtoSchema.Lexeme.Comment

/-!
# Keywords

The words that the language keeps for its statements, and the words that start a statement with a
block or on a line.
-/

namespace ProtoSchema.Lexeme

/-- The words that never name a type. -/
def keywords : List String :=
  ["syntax", "import", "package", "option", "enum", "message", "oneof", "map"]

/-- Whether a word is a keyword. -/
def isKeyword (lexeme : String) : Bool := keywords.contains lexeme

/-- Whether a word starts a statement that runs to a closing mark. -/
def startsBlock (lexeme : String) : Bool :=
  ["enum", "message", "service"].contains lexeme || opensBlockComment lexeme

/-- Whether a word starts a statement that stands on a line. -/
def startsLine (lexeme : String) : Bool :=
  ["syntax", "import", "package", "option"].contains lexeme || opensLineComment lexeme

end ProtoSchema.Lexeme
