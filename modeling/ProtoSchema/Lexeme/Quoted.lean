/-!
# Quoted literals

A quoted literal starts and ends with the same quote. Between them a backslash and the character
after it may stand for another character.

* `unquote?`: the text between the quotes.
* `unescape`: the text that escapes stand for; an escape without a meaning stays as written.
* `literal?`: what a quoted literal denotes.
-/

namespace ProtoSchema.Lexeme

/-- Whether a character is a quote. -/
def isQuote (c : Char) : Bool := c == '\x22' || c == '\x27'

/-- The characters between two equal quotes at the ends. -/
def unquoteChars? : List Char → Option (List Char)
  | [] => none
  | quote :: rest => if isQuote quote then [quote].isSuffixOf? rest else none

/-- What the character after a backslash stands for. -/
def escapeValue? : Char → Option Char
  | 'n' => some '\n'
  | 't' => some '\t'
  | 'r' => some '\r'
  | '0' => some '\x00'
  | '\\' => some '\\'
  | '\x22' => some '\x22'
  | '\x27' => some '\x27'
  | _ => none

/-- The characters that escapes stand for. -/
def unescapeChars : List Char → List Char
  | '\\' :: c :: rest =>
    match escapeValue? c with
    | some value => value :: unescapeChars rest
    | none => '\\' :: c :: unescapeChars rest
  | c :: rest => c :: unescapeChars rest
  | [] => []

/-- The text between the quotes of a quoted literal. -/
def unquote? (lexeme : String) : Option String :=
  (unquoteChars? lexeme.toList).map String.ofList

/-- Whether a word is a quoted literal. -/
def isQuoted (lexeme : String) : Bool := (unquote? lexeme).isSome

/-- The text with its escapes replaced by what they stand for. -/
def unescape (text : String) : String := String.ofList (unescapeChars text.toList)

/-- The text that a quoted literal denotes. -/
def literal? (lexeme : String) : Option String := (unquote? lexeme).map unescape

end ProtoSchema.Lexeme
