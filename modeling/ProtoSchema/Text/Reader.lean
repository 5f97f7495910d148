/-!
# Reading text character by character

A reader walks through a text and keeps the place of the character it read last. A line break may be
written as a line feed, a carriage return, or a carriage return followed by a line feed; the reader
gives a single line feed for each of them.

* `Reader.next?`: one step; a reader at the end stays as it is.
* `Reader.characters`: every character that is left, with the place where it stands.
* `unifyBreaks`: the same rule for line breaks as a function on the whole text.
-/

namespace ProtoSchema

/-- A place in a text: lines count from one, columns count the characters read on the line. -/
structure Position where
  line : Nat
  column : Nat
deriving DecidableEq, Repr

namespace Position

/-- The place before the first character. -/
def start : Position := ⟨1, 0⟩

/-- The place after reading a character. -/
def after (position : Position) (c : Char) : Position :=
  if c = '\n' then ⟨position.line + 1, 0⟩ else ⟨position.line, position.column + 1⟩

end Position

/-- The characters still to be read and the place of the last one read. -/
structure Reader where
  rest : List Char
  position : Position := .start
deriving DecidableEq, Repr

namespace Reader

/-- A reader before the first character of a text. -/
def ofString (text : String) : Reader := { rest := text.toList }

/-- Reads one character, or nothing at the end of the text. -/
def next? (reader : Reader) : Option (Char × Reader) :=
  match reader.rest with
  | [] => none
  | '\r' :: '\n' :: rest => some ('\n', ⟨rest, reader.position.after '\n'⟩)
  | '\r' :: rest => some ('\n', ⟨rest, reader.position.after '\n'⟩)
  | c :: rest => some (c, ⟨rest, reader.position.after c⟩)

/-- Whether nothing is left to read. -/
def atEnd (reader : Reader) : Bool := reader.rest.isEmpty

/-- What is reported when a character is asked for past the end of the text. -/
def endMessage (reader : Reader) : String :=
  s!"end of input reached at line {reader.position.line}, column {reader.position.column}"

theorem length_rest_of_next? {reader after : Reader} {c : Char}
    (h : reader.next? = some (c, after)) : after.rest.length < reader.rest.length := by
  unfold next? at h
  split at h <;> simp only [reduceCtorEq, Option.some.injEq, Prod.mk.injEq] at h
  all_goals
    obtain ⟨-, rfl⟩ := h
    simp only [*, List.length_cons]
    omega

/-- Every character left, each with its place. -/
def characters (reader : Reader) : List (Char × Position) :=
  match _h : reader.next? with
  | none => []
  | some (c, after) => (c, after.position) :: after.characters
termination_by reader.rest.length
decreasing_by exact length_rest_of_next? ‹_›

end Reader

/-- The text with every line break written as a line feed. -/
def unifyBreaks : List Char → List Char
  | [] => []
  | '\r' :: '\n' :: rest => '\n' :: unifyBreaks rest
  | '\r' :: rest => '\n' :: unifyBreaks rest
  | c :: rest => c :: unifyBreaks rest

end ProtoSchema
