/-!
# Numbers that a declaration may use

Fields are numbered from one to the largest number that fits 29 bits; the values of an enum are
signed 32-bit numbers.
-/

namespace ProtoSchema

/-- What a number is used for. -/
inductive NumberDomain
  | fieldNumber
  | enumValue
deriving DecidableEq, Repr

namespace NumberDomain

/-- The least number of a domain. -/
def low : NumberDomain → Int
  | fieldNumber => 1
  | enumValue => -2147483648

/-- The greatest number of a domain. -/
def high : NumberDomain → Int
  | fieldNumber => 536870911
  | enumValue => 2147483647

/-- Whether a number belongs to a domain. -/
def contains (domain : NumberDomain) (number : Int) : Bool :=
  domain.low ≤ number && number ≤ domain.high

theorem contains_iff (domain : NumberDomain) (number : Int) :
    domain.contains number = true ↔ domain.low ≤ number ∧ number ≤ domain.high := by
  simp [contains]

end NumberDomain

end ProtoSchema
