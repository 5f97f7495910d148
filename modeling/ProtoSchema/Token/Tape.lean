import ProtoSchema.Token.Basic

/-!
# A place among tokens

A tape holds the tokens already passed and those to come. Reading moves tokens from the second part
to the first, so the tape as a whole never changes.

* `Tape.skipLine`: what recovery from an error does, passing the rest of the line and its end.
* `Tape.Reaches`: a second tape is the first one after passing some tokens.
* `Tape.skipLine_shorter`: skipping a line passes at least one token if there is one.
-/

namespace ProtoSchema

/-- Tokens passed, the latest first, and tokens to come. -/
structure Tape where
  seen : List Token := []
  rest : List Token
deriving DecidableEq, Repr

namespace Tape

/-- A tape before its first token. -/
def ofTokens (tokens : List Token) : Tape := { rest := tokens }

/-- All tokens of a tape in order. -/
def tokens (tape : Tape) : List Token := tape.seen.reverse ++ tape.rest

/-- How many tokens have been passed. -/
def position (tape : Tape) : Nat := tape.seen.length

/-- How many tokens are to come. -/
def remaining (tape : Tape) : Nat := tape.rest.length

/-- Whether no token is to come. -/
def isEmpty (tape : Tape) : Bool := tape.rest.isEmpty

/-- The next token. -/
def peek? (tape : Tape) : Option Token := tape.rest.head?

/-- The token that comes after `n` others. -/
def ahead? (tape : Tape) (n : Nat) : Option Token := tape.rest[n]?

/-- The next token that is no line break. -/
def peekPastBreaks? (tape : Tape) : Option Token := tape.rest.find? (!·.isLineEnd)

/-- Passes the next token, if there is one. -/
def advance (tape : Tape) : Tape :=
  match tape.rest with
  | [] => tape
  | token :: rest => ⟨token :: tape.seen, rest⟩

/-- Passes the next token if it satisfies a test. -/
def takeIf (tape : Tape) (test : Token → Bool) : Option Token × Tape :=
  match tape.peek?.filter test with
  | none => (none, tape)
  | some token => (some token, tape.advance)

/-- Passes tokens as long as they satisfy a test. -/
def skipWhile (tape : Tape) (test : Token → Bool) : Tape :=
  ⟨(tape.rest.takeWhile test).reverse ++ tape.seen, tape.rest.dropWhile test⟩

/-- Passes line breaks. -/
def skipBreaks (tape : Tape) : Tape := tape.skipWhile Token.isLineEnd

/-- Passes the tokens up to the next line break and the break itself. -/
def skipLine (tape : Tape) : Tape := (tape.skipWhile (!·.isLineEnd)).advance

/-- How many tokens `skipLine` passes. -/
def lineLength (tape : Tape) : Nat := tape.remaining - tape.skipLine.remaining

/-- The same tokens with the first `n` passed, or all of them if there are fewer. -/
def moveTo (tape : Tape) (n : Nat) : Tape :=
  ⟨(tape.tokens.take n).reverse, tape.tokens.drop n⟩

/-- The token that a diagnostic points at: the next one, else the last one, and a line break at the
start of the text if there is none at all. -/
def nearest (tape : Tape) : Token :=
  (tape.peek?.or tape.seen.head?).getD (.lineBreak .start)

/-- A tape is reached from another by passing tokens. -/
def Reaches (tape after : Tape) : Prop :=
  ∃ passed, tape.rest = passed ++ after.rest ∧ after.seen = passed.reverse ++ tape.seen

namespace Reaches

variable {tape after later : Tape}

theorem refl (tape : Tape) : tape.Reaches tape := ⟨[], rfl, rfl⟩

theorem trans (h : tape.Reaches after) (h' : after.Reaches later) : tape.Reaches later := by
  obtain ⟨passed, hrest, hseen⟩ := h
  obtain ⟨passed', hrest', hseen'⟩ := h'
  exact ⟨passed ++ passed', by simp [hrest, hrest'], by simp [hseen, hseen']⟩

theorem remaining_le (h : tape.Reaches after) : after.remaining ≤ tape.remaining := by
  obtain ⟨passed, hrest, -⟩ := h
  simp [remaining, hrest]

theorem tokens_eq (h : tape.Reaches after) : after.tokens = tape.tokens := by
  obtain ⟨passed, hrest, hseen⟩ := h
  simp [tokens, hrest, hseen]

end Reaches

theorem reaches_advance (tape : Tape) : tape.Reaches tape.advance := by
  unfold advance
  split
  · exact .refl tape
  · rename_i token rest h
    exact ⟨[token], by simp [h], by simp⟩

theorem reaches_skipWhile (tape : Tape) (test : Token → Bool) :
    tape.Reaches (tape.skipWhile test) :=
  ⟨tape.rest.takeWhile test, List.takeWhile_append_dropWhile.symm, rfl⟩

theorem reaches_skipBreaks (tape : Tape) : tape.Reaches tape.skipBreaks :=
  tape.reaches_skipWhile _

theorem reaches_skipLine (tape : Tape) : tape.Reaches tape.skipLine :=
  (tape.reaches_skipWhile _).trans (reaches_advance _)

theorem remaining_pos_of_peek? {tape : Tape} {token : Token} (h : tape.peek? = some token) :
    0 < tape.remaining := by
  cases hrest : tape.rest with
  | nil => simp [peek?, hrest] at h
  | cons first rest => simp [remaining, hrest]

theorem advance_shorter {tape : Tape} (h : 0 < tape.remaining) :
    tape.advance.remaining < tape.remaining := by
  unfold remaining at h
  unfold advance remaining
  split <;> rename_i heq <;> rw [heq] at h ⊢ <;> simp at h ⊢

/-- Skipping a line makes progress. A tape at or after a nonempty one has, after the line is
skipped, fewer tokens to come than the nonempty one. -/
theorem skipLine_shorter {tape after : Tape} (h : 0 < tape.remaining)
    (hreach : tape.Reaches after) : after.skipLine.remaining < tape.remaining := by
  have hle := hreach.remaining_le
  have hskip := (after.reaches_skipWhile (!·.isLineEnd)).remaining_le
  have hadv := (reaches_advance (after.skipWhile (!·.isLineEnd))).remaining_le
  unfold skipLine
  rcases Nat.eq_zero_or_pos (after.skipWhile (!·.isLineEnd)).remaining with h0 | h0
  · omega
  · have := advance_shorter h0
    omega

end Tape

end ProtoSchema
