/-!
# Blank characters

A blank separates words and carries no meaning of its own. The set is the Unicode property
`White_Space`: twenty-five characters, six of them in ASCII.

* `isBlank`: membership in the set.
* `trim`: a character list without the blanks at its ends.
-/

namespace ProtoSchema

/-- The first and last code point of each run of blank characters, in order. -/
def blankRuns : List (Nat × Nat) :=
  [(0x09, 0x0D), (0x20, 0x20), (0x85, 0x85), (0xA0, 0xA0), (0x1680, 0x1680), (0x2000, 0x200A),
   (0x2028, 0x2029), (0x202F, 0x202F), (0x205F, 0x205F), (0x3000, 0x3000)]

/-- Whether a character is blank. -/
def isBlank (c : Char) : Bool :=
  blankRuns.any fun run => run.1 ≤ c.toNat && c.toNat ≤ run.2

/-- Drops the blanks at both ends. -/
def trim (text : List Char) : List Char :=
  ((text.dropWhile isBlank).reverse.dropWhile isBlank).reverse

end ProtoSchema
