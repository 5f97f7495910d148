import ProtoSchema.Text.Case

/-!
# Names

A name keeps its spelling, and two names are the same if they differ in ASCII case at most.
-/

namespace ProtoSchema

/-- A name as it is written in a schema. -/
structure Name where
  text : String
deriving DecidableEq, Repr

namespace Name

/-- Whether a name is spelled like a text up to ASCII case. -/
def isText (name : Name) (text : String) : Bool := sameText name.text text

/-- Whether two names are the same up to ASCII case. -/
def same (a b : Name) : Bool := a.isText b.text

/-- The length of the name in UTF-8. -/
def byteLength (name : Name) : Nat := name.text.utf8ByteSize

theorem same_iff (a b : Name) : a.same b = true ↔ foldCase a.text = foldCase b.text :=
  sameText_iff a.text b.text

end Name

end ProtoSchema
