import ProtoSchema.Lexeme.Number

/-!
# The value of integers

An integer is an optional sign and a magnitude: `0x` or `0X` with hexadecimal digits, `0` with octal
digits, or decimal digits. The digits after `0x` or after a leading `0` may carry a sign of their
own, so `0x-1f` is read as well. Values are signed 64-bit words: a magnitude outside their range is
refused, and the sign in front negates it within the word.

* `integer?`: the value of a word, if it is an integer.
-/

namespace ProtoSchema.Lexeme

/-- The least signed 64-bit word. -/
def minWord : Int := -9223372036854775808

/-- The greatest signed 64-bit word. -/
def maxWord : Int := 9223372036854775807

/-- The value of a digit, a letter standing for ten and above in either case. -/
def digitValue (c : Char) : Nat :=
  if c.isDigit then c.toNat - 48
  else if 'a' ≤ c && c ≤ 'z' then c.toNat - 87
  else if 'A' ≤ c && c ≤ 'Z' then c.toNat - 55
  else 36

/-- The value of a run of digits read after `value`. -/
def digitsValue (base value : Nat) : List Char → Nat
  | [] => value
  | c :: rest => digitsValue base (value * base + digitValue c) rest

/-- The number that at least one digit of the base denotes. -/
def natural? (base : Nat) (digits : List Char) : Option Nat :=
  if !digits.isEmpty && digits.all (digitValue · < base) then some (digitsValue base 0 digits)
  else none

/-- A value within the range of a word. -/
def inWord? (value : Int) : Option Int :=
  if minWord ≤ value ∧ value ≤ maxWord then some value else none

/-- Digits of the base with an optional sign, as a word. -/
def word? (base : Nat) : List Char → Option Int
  | '-' :: digits => (natural? base digits).bind fun n => inWord? (-n)
  | '+' :: digits => (natural? base digits).bind fun n => inWord? n
  | digits => (natural? base digits).bind fun n => inWord? n

/-- The magnitude that stands after the sign of an integer. -/
def magnitude? : List Char → Option Int
  | '0' :: 'x' :: digits => word? 16 digits
  | '0' :: 'X' :: digits => word? 16 digits
  | '0' :: c :: digits => word? 8 (c :: digits)
  | digits => if isDigits digits then word? 10 digits else none

/-- The negative of a word, within the word. -/
def negateWord (value : Int) : Int := (-value).bmod 18446744073709551616

/-- The value of an integer, or nothing if the word is not one. -/
def integer? (lexeme : String) : Option Int :=
  match lexeme.toList with
  | '-' :: rest => (magnitude? rest).map negateWord
  | '+' :: rest => magnitude? rest
  | text => magnitude? text

end ProtoSchema.Lexeme
