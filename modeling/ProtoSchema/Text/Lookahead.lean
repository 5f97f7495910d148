import ProtoSchema.Text.Reader

/-!
# Reading with a character of look-ahead

Whether a text is at its end shows only when its next character is asked for, and whether a carriage
return stands alone only when the character behind it is. A character that was looked at and not
wanted is kept and handed out first. The end of the text is kept in the same way.

* `Lookahead.peek`, `Lookahead.take`, `Lookahead.takeIf`: the characters of a text, one of which may
  have been looked at.
* `PeekingReader.next`, `PeekingReader.atEnd`: what can be asked of a reader; both change it.
* `PeekingReader.run`: the answers to questions in a row.
* `PeekingReader.plain`: the reader that it stands for.
-/

namespace ProtoSchema

/-- The characters of a text, of which the first may have been looked at: it, or the end of the text
that was found in its place, is then in `peeked`. -/
structure Lookahead where
  peeked : Option (Option Char) := none
  rest : List Char
  ended : peeked = some none → rest = [] := by nofun
deriving DecidableEq, Repr

namespace Lookahead

/-- Takes the next character. -/
def take (chars : Lookahead) : Option Char × Lookahead :=
  match chars.peeked with
  | some found => (found, { rest := chars.rest })
  | none => (chars.rest.head?, { rest := chars.rest.tail })

/-- Looks at the next character and keeps it. -/
def peek (chars : Lookahead) : Option Char × Lookahead :=
  match chars.peeked with
  | some found => (found, chars)
  | none =>
    let kept := { peeked := some chars.rest.head?, rest := chars.rest.tail, ended := by simp_all }
    (chars.rest.head?, kept)

/-- Takes the next character if it satisfies a test. -/
def takeIf (chars : Lookahead) (test : Char → Bool) : Option Char × Lookahead :=
  match chars.peek.1.filter test with
  | some c => (some c, chars.peek.2.take.2)
  | none => (none, chars.peek.2)

/-- The characters that have not been taken. -/
def unread (chars : Lookahead) : List Char := chars.peeked.join.toList ++ chars.rest

end Lookahead

/-- The characters still to be taken and the place of the last one read. -/
structure PeekingReader where
  chars : Lookahead
  position : Position := .start
deriving DecidableEq, Repr

namespace PeekingReader

/-- A reader before the first character of a text. -/
def ofString (text : String) : PeekingReader := { chars := { rest := text.toList } }

/-- The reader without look-ahead that has the same characters before it. -/
def plain (reader : PeekingReader) : Reader := ⟨reader.chars.unread, reader.position⟩

/-- Reads one character, or reports the place where the text has ended. -/
def next (reader : PeekingReader) : Except Position Char × PeekingReader :=
  match reader.chars.take with
  | (none, chars) => (.error reader.position, { reader with chars })
  | (some '\r', chars) =>
    (.ok '\n', ⟨(chars.takeIf (· == '\n')).2, reader.position.after '\n'⟩)
  | (some c, chars) => (.ok c, ⟨chars, reader.position.after c⟩)

/-- Whether nothing is left to read. -/
def atEnd (reader : PeekingReader) : Bool × PeekingReader :=
  (reader.chars.peek.1.isNone, { reader with chars := reader.chars.peek.2 })

/-- What can be asked of a reader. -/
inductive Call
  | next
  | atEnd
deriving DecidableEq, Repr

/-- What a reader answers: a character, the place where the text has ended, or whether it has. -/
inductive Answer
  | character (c : Char)
  | ended (position : Position)
  | atEnd (isEnd : Bool)
deriving DecidableEq, Repr

/-- The character of an answer. -/
def Answer.character? : Answer → Option Char
  | character c => some c
  | _ => none

/-- The answer to a question and the reader after it. -/
def call (reader : PeekingReader) : Call → Answer × PeekingReader
  | .next =>
    match reader.next with
    | (.ok c, after) => (.character c, after)
    | (.error position, after) => (.ended position, after)
  | .atEnd => (.atEnd reader.atEnd.1, reader.atEnd.2)

/-- The answers to questions in order, each with the place of the reader after it, and the reader
after all of them. -/
def run (reader : PeekingReader) : List Call → List (Answer × Position) × PeekingReader
  | [] => ([], reader)
  | first :: rest =>
    let (answer, after) := reader.call first
    let (answers, last) := after.run rest
    ((answer, after.position) :: answers, last)

end PeekingReader

end ProtoSchema
