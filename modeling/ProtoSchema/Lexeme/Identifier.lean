/-!
# Identifiers

An identifier is a letter or underscore followed by letters, digits and underscores, all of them
ASCII. A path is one or more identifiers joined by dots. A reference to a type is a path that may
start with one more dot.
-/

namespace ProtoSchema.Lexeme

/-- Whether a character may start an identifier. -/
def isNameStart (c : Char) : Bool := c.isAlpha || c == '_'

/-- Whether a character may go on an identifier. -/
def isNamePart (c : Char) : Bool := c.isAlphanum || c == '_'

/-- Whether the characters form an identifier. -/
def isName : List Char → Bool
  | [] => false
  | c :: rest => isNameStart c && rest.all isNamePart

/-- The pieces between the dots, at least one. -/
def pieces : List Char → List (List Char)
  | [] => [[]]
  | c :: rest =>
    if c = '.' then [] :: pieces rest
    else match pieces rest with
      | [] => [[c]]
      | piece :: others => (c :: piece) :: others

/-- Whether the characters form a path. -/
def isDotted (text : List Char) : Bool := (pieces text).all isName

/-- Whether a word is an identifier. -/
def isIdentifier (lexeme : String) : Bool := isName lexeme.toList

/-- Whether a word is a path of identifiers. -/
def isPath (lexeme : String) : Bool := isDotted lexeme.toList

/-- Whether a word is a dot followed by a path. -/
def isMemberPath (lexeme : String) : Bool :=
  match lexeme.toList with
  | '.' :: rest => isDotted rest
  | _ => false

/-- Whether a word refers to a type. -/
def isReference (lexeme : String) : Bool := isPath lexeme || isMemberPath lexeme

end ProtoSchema.Lexeme
