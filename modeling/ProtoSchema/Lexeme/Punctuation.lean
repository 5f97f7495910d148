/-!
# Punctuation

Eleven characters always stand as words of their own, whatever they touch.

* `Punctuation.char`, `Punctuation.text`: how each mark is written.
* `isPunctuation`: whether a character is one of them.
-/

namespace ProtoSchema

/-- A mark that is a word of its own. -/
inductive Punctuation
  | semicolon
  | openBrace
  | closeBrace
  | equals
  | comma
  | openAngle
  | closeAngle
  | openBracket
  | closeBracket
  | openParen
  | closeParen
deriving DecidableEq, Repr

namespace Punctuation

/-- Every mark. -/
def all : List Punctuation :=
  [semicolon, openBrace, closeBrace, equals, comma, openAngle, closeAngle, openBracket,
   closeBracket, openParen, closeParen]

/-- The character of a mark. -/
def char : Punctuation → Char
  | semicolon => ';'
  | openBrace => '\x7b'
  | closeBrace => '\x7d'
  | equals => '='
  | comma => ','
  | openAngle => '<'
  | closeAngle => '>'
  | openBracket => '['
  | closeBracket => ']'
  | openParen => '('
  | closeParen => ')'

/-- The mark as a word. -/
def text : Punctuation → String
  | semicolon => ";"
  | openBrace => "\x7b"
  | closeBrace => "\x7d"
  | equals => "="
  | comma => ","
  | openAngle => "<"
  | closeAngle => ">"
  | openBracket => "["
  | closeBracket => "]"
  | openParen => "("
  | closeParen => ")"

theorem mem_all (mark : Punctuation) : mark ∈ all := by
  cases mark <;> decide

theorem text_eq (mark : Punctuation) : mark.text = String.singleton mark.char := by
  cases mark <;> rfl

end Punctuation

/-- Whether a character is a mark. -/
def isPunctuation (c : Char) : Bool :=
  Punctuation.all.any fun mark => mark.char == c

theorem isPunctuation_iff (c : Char) :
    isPunctuation c = true ↔ ∃ mark : Punctuation, mark.char = c := by
  simp [isPunctuation, Punctuation.mem_all]

end ProtoSchema
