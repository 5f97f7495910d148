import ProtoSchema.Schema.Name

/-!
# Reserved names and numbers

A reserved statement keeps names or numbers from being used. Numbers come in inclusive ranges; a
single number is a range that ends where it starts, and a range may be open at its upper end.
-/

namespace ProtoSchema

/-- The upper end of a range. -/
inductive RangeEnd
  | number (value : Int)
  | max
deriving DecidableEq, Repr

/-- An inclusive range of numbers. -/
structure ReservedRange where
  start : Int
  stop : RangeEnd
deriving DecidableEq, Repr

/-- Whether a number lies in a range. -/
def ReservedRange.contains (range : ReservedRange) (number : Int) : Bool :=
  match range.stop with
  | .number last => range.start ≤ number && number ≤ last
  | .max => range.start ≤ number

/-- What one statement reserves. -/
inductive Reserved
  | names (names : List Name)
  | ranges (ranges : List ReservedRange)
deriving DecidableEq, Repr

/-- Whether two statements reserve the same, names compared as names. -/
def Reserved.same : Reserved → Reserved → Bool
  | names a, names b => a.isEqv b Name.same
  | ranges a, ranges b => a == b
  | _, _ => false

end ProtoSchema
