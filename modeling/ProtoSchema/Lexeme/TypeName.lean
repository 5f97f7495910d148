import ProtoSchema.Lexeme.Identifier
import ProtoSchema.Lexeme.Keyword

/-!
# Names of field types

A field type is written as a reference to a type that is no keyword. The built-in types are
identifiers and count as references too.
-/

namespace ProtoSchema.Lexeme

/-- Whether a word may be the type of a field. -/
def isTypeName (lexeme : String) : Bool := !isKeyword lexeme && isReference lexeme

end ProtoSchema.Lexeme
