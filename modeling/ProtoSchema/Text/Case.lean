/-!
# Text compared without regard to ASCII case

Names in a schema are compared letter by letter, an ASCII capital counting as its small letter and
every other character as itself.

* `foldCase`: the text with its ASCII letters lowered.
* `sameText_iff`: two texts are the same up to case exactly when their folded texts are equal.
-/

namespace ProtoSchema

/-- Lowers the ASCII letters of a text and keeps every other character. -/
def foldCase (text : String) : String :=
  String.ofList (text.toList.map Char.toLower)

/-- Whether two character lists agree place by place up to ASCII case. -/
def sameChars : List Char → List Char → Bool
  | [], [] => true
  | a :: as, b :: bs => a.toLower == b.toLower && sameChars as bs
  | _, _ => false

/-- Whether two texts agree up to ASCII case. -/
def sameText (a b : String) : Bool :=
  sameChars a.toList b.toList

theorem sameChars_iff (as bs : List Char) :
    sameChars as bs = true ↔ as.map Char.toLower = bs.map Char.toLower := by
  induction as generalizing bs with
  | nil => cases bs <;> simp [sameChars]
  | cons a as ih => cases bs <;> simp [sameChars, ih]

/-- Equality up to case is equality of the folded texts. -/
theorem sameText_iff (a b : String) : sameText a b = true ↔ foldCase a = foldCase b := by
  rw [sameText, sameChars_iff, foldCase, foldCase]
  exact ⟨fun h => by rw [h], fun h => by simpa using congrArg String.toList h⟩

end ProtoSchema
