/-!
# The shape of numbers

A word is a number if it is written as one, whatever its value: an optional sign, then a
hexadecimal numeral, a decimal numeral with an optional fraction and exponent, or `inf`; or `nan`
without a sign. An octal numeral is a run of digits and needs no rule of its own.
-/

namespace ProtoSchema.Lexeme

/-- Whether a character is a sign. -/
def isSign (c : Char) : Bool := c == '+' || c == '-'

/-- The characters without one leading sign. -/
def unsigned : List Char → List Char
  | [] => []
  | c :: rest => if isSign c then rest else c :: rest

/-- Whether a character is a hexadecimal digit. -/
def isHexDigit (c : Char) : Bool :=
  c.isDigit || ('a' ≤ c && c ≤ 'f') || ('A' ≤ c && c ≤ 'F')

/-- A run of at least one decimal digit. -/
def isDigits (text : List Char) : Bool := !text.isEmpty && text.all Char.isDigit

/-- A hexadecimal numeral: `0x` or `0X` and at least one digit. -/
def isHexNumeral : List Char → Bool
  | '0' :: 'x' :: digits => !digits.isEmpty && digits.all isHexDigit
  | '0' :: 'X' :: digits => !digits.isEmpty && digits.all isHexDigit
  | _ => false

/-- Nothing, or an exponent: `e` or `E`, an optional sign and digits. -/
def isExponent : List Char → Bool
  | [] => true
  | c :: rest => (c == 'e' || c == 'E') && isDigits (unsigned rest)

/-- Digits with an optional point among or around them, then an optional exponent; a point alone is
no numeral. -/
def isDecimalNumeral (text : List Char) : Bool :=
  let whole := text.takeWhile Char.isDigit
  match text.dropWhile Char.isDigit with
  | '.' :: rest =>
    (!whole.isEmpty || !(rest.takeWhile Char.isDigit).isEmpty) &&
      isExponent (rest.dropWhile Char.isDigit)
  | rest => !whole.isEmpty && isExponent rest

/-- Whether a word is a number. -/
def isNumber (lexeme : String) : Bool :=
  let text := lexeme.toList
  let body := unsigned text
  isHexNumeral body || isDecimalNumeral body || body == ['i', 'n', 'f'] || text == ['n', 'a', 'n']

end ProtoSchema.Lexeme
