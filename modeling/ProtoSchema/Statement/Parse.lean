import ProtoSchema.Diagnostic
import ProtoSchema.Token.Tape

/-!
# Reading statements from a tape

A parse runs on a tape and ends with a value or a diagnostic, and with the tape where it stopped.
A parse that fails has still passed the tokens before the fault.

* `Parse.expect`: passes a token of a terminal, or fails in front of it.
* `Parse.separated`: items with commas between them, up to a closing mark.
* `Parse.Lawful`: a parse only passes tokens, and a fatal diagnostic comes only at their end; it
  holds of every parse here and is inferred.
* `Parse.Consumes`: a parse that ends with a value has passed a token.
-/

namespace ProtoSchema

/-- Reading from a tape, with a value or a diagnostic at the end. -/
abbrev Parse := EStateM Diagnostic Tape

namespace Parse

variable {α β : Type}

/-- The tape where a parse stopped. -/
def endTape : EStateM.Result Diagnostic Tape α → Tape
  | .ok _ tape => tape
  | .error _ tape => tape

/-- A parse ends at a tape reached from the one it started at, and fails for good only where no
token is left. -/
class Lawful (parse : Parse α) : Prop where
  reaches : ∀ tape : Tape, tape.Reaches (endTape (parse tape))
  rest_of_fatal : ∀ {tape : Tape} {diagnostic : Diagnostic} {after : Tape},
    parse tape = .error diagnostic after → diagnostic.isFatal = true → after.rest = []

/-- A parse that ends with a value has passed at least one token. -/
class Consumes (parse : Parse α) : Prop extends Lawful parse where
  shorter : ∀ {tape : Tape} {value : α} {after : Tape},
    parse tape = .ok value after → after.remaining < tape.remaining

theorem Lawful.reaches_of_ok {parse : Parse α} [Lawful parse] {tape after : Tape} {value : α}
    (h : parse tape = .ok value after) : tape.Reaches after := by
  have hreach : tape.Reaches (endTape (parse tape)) := Lawful.reaches tape
  rwa [h] at hreach

theorem Lawful.reaches_of_error {parse : Parse α} [Lawful parse] {tape after : Tape}
    {diagnostic : Diagnostic} (h : parse tape = .error diagnostic after) : tape.Reaches after := by
  have hreach : tape.Reaches (endTape (parse tape)) := Lawful.reaches tape
  rwa [h] at hreach

theorem bind_apply (parse : Parse α) (next : α → Parse β) (tape : Tape) :
    (parse >>= next) tape =
      match parse tape with
      | .ok value after => next value after
      | .error diagnostic after => .error diagnostic after := by
  simp only [bind, EStateM.bind]
  cases parse tape <;> rfl

instance (value : α) : Lawful (pure value : Parse α) where
  reaches tape := .refl tape
  rest_of_fatal h := by cases h

instance {parse : Parse α} {next : α → Parse β} [Lawful parse] [∀ value, Lawful (next value)] :
    Lawful (parse >>= next) where
  reaches tape := by
    rw [bind_apply]
    split
    · rename_i value after h
      exact (Lawful.reaches_of_ok h).trans (Lawful.reaches after)
    · rename_i h
      exact Lawful.reaches_of_error h
  rest_of_fatal {tape diagnostic after} h := by
    rw [bind_apply] at h
    split at h
    · exact Lawful.rest_of_fatal h
    · rename_i hparse
      cases h
      exact Lawful.rest_of_fatal hparse

instance {parse : Parse α} {next : α → Parse β} [Consumes parse] [∀ value, Lawful (next value)] :
    Consumes (parse >>= next) where
  shorter {tape value after} h := by
    rw [bind_apply] at h
    split at h
    · rename_i middle hmiddle
      exact Nat.lt_of_le_of_lt (Lawful.reaches_of_ok h).remaining_le (Consumes.shorter hmiddle)
    · cases h

instance {parse : Parse α} {next : α → Parse β} [Lawful parse] [∀ value, Consumes (next value)] :
    Consumes (parse >>= next) where
  shorter {tape value after} h := by
    rw [bind_apply] at h
    split at h
    · rename_i middle hmiddle
      exact Nat.lt_of_lt_of_le (Consumes.shorter h) (Lawful.reaches_of_ok hmiddle).remaining_le
    · cases h

instance (test : Bool) {yes no : Parse α} [Lawful yes] [Lawful no] :
    Lawful (if test then yes else no) := by
  cases test <;> assumption

/-- Fails unless a rule is kept. -/
def require (kept : Bool) (rule : Violation) (token : Token) : Parse Unit := fun tape =>
  if kept then .ok () tape else .error ⟨.broken rule, token⟩ tape

instance (kept : Bool) (rule : Violation) (token : Token) : Lawful (require kept rule token) where
  reaches tape := by
    unfold require
    split <;> exact .refl tape
  rest_of_fatal {tape diagnostic after} h hfatal := by
    unfold require at h
    split at h <;> cases h
    cases hfatal

/-- The next token, which must belong to a terminal; it is not passed. -/
def check (terminal : Terminal) : Parse Token := fun tape =>
  match tape.rest with
  | [] => .error ⟨.ranOut terminal, tape.nearest⟩ tape
  | token :: _ =>
    if terminal.admits token then .ok token tape else .error ⟨.unexpected terminal, token⟩ tape

instance (terminal : Terminal) : Lawful (check terminal) where
  reaches tape := by
    unfold check
    split
    · exact .refl tape
    · split <;> exact .refl tape
  rest_of_fatal {tape diagnostic after} h hfatal := by
    unfold check at h
    split at h
    · cases h
      cases hfatal
    · split at h <;> cases h
      cases hfatal

/-- Passes the next token, which must belong to a terminal. -/
def expect (terminal : Terminal) : Parse Token := fun tape =>
  match check terminal tape with
  | .ok token tape => .ok token tape.advance
  | .error diagnostic tape => .error diagnostic tape

theorem expect_eq_ok {terminal : Terminal} {tape after : Tape} {token : Token}
    (h : expect terminal tape = .ok token after) :
    terminal.admits token = true ∧ ∃ rest, tape.rest = token :: rest ∧ after = tape.advance := by
  unfold expect check at h
  cases hrest : tape.rest with
  | nil => simp [hrest] at h
  | cons first rest =>
    cases hadmits : terminal.admits first <;> simp [hrest, hadmits] at h
    exact ⟨h.1 ▸ hadmits, rest, by rw [h.1], h.2.symm⟩

instance (terminal : Terminal) : Consumes (expect terminal) where
  reaches tape := by
    unfold expect
    split
    · rename_i h
      exact (Lawful.reaches_of_ok h).trans (Tape.reaches_advance _)
    · rename_i h
      exact Lawful.reaches_of_error h
  rest_of_fatal {tape diagnostic after} h := by
    unfold expect at h
    split at h
    · cases h
    · rename_i hcheck
      cases h
      exact Lawful.rest_of_fatal hcheck
  shorter {tape token after} h := by
    obtain ⟨-, rest, hrest, rfl⟩ := expect_eq_ok h
    exact Tape.advance_shorter (by simp [Tape.remaining, hrest])

/-- Passes the next token if it satisfies a test. -/
def accept? (test : Token → Bool) : Parse (Option Token) := fun tape =>
  let (token, after) := tape.takeIf test
  .ok token after

instance (test : Token → Bool) : Lawful (accept? test) where
  reaches tape := by
    simp only [accept?, Tape.takeIf, endTape]
    split
    · exact .refl tape
    · exact Tape.reaches_advance tape
  rest_of_fatal h := by cases h

/-- Passes line breaks. -/
def skipBreaks : Parse Unit := fun tape => .ok () tape.skipBreaks

instance : Lawful skipBreaks where
  reaches tape := tape.reaches_skipBreaks
  rest_of_fatal h := by cases h

/-- At least one item, with commas between them, and a closing mark after the last. -/
def separated (item : Parse α) [Lawful item] (close : Punctuation) : Parse (List α) := fun tape =>
  match _hitem : item tape with
  | .error diagnostic after => .error diagnostic after
  | .ok value middle =>
    match _hmark : expect (.eitherMark .comma close) middle with
    | .error diagnostic after => .error diagnostic after
    | .ok mark after =>
      if mark.isMark close then .ok [value] after
      else match separated item close after with
        | .error diagnostic later => .error diagnostic later
        | .ok values later => .ok (value :: values) later
termination_by tape => tape.remaining
decreasing_by
  exact Nat.lt_of_lt_of_le (Consumes.shorter _hmark) (Lawful.reaches_of_ok _hitem).remaining_le

theorem reaches_separated {item : Parse α} [Lawful item] {close : Punctuation} (tape : Tape) :
    tape.Reaches (endTape (separated item close tape)) := by
  fun_induction separated item close tape with
  | case1 tape diagnostic after hitem => exact Lawful.reaches_of_error hitem
  | case2 tape value middle hitem diagnostic after hmark =>
    exact (Lawful.reaches_of_ok hitem).trans (Lawful.reaches_of_error hmark)
  | case3 tape value middle hitem mark after hmark hclose =>
    exact (Lawful.reaches_of_ok hitem).trans (Lawful.reaches_of_ok hmark)
  | case4 tape value middle hitem mark after hmark hclose diagnostic later hmore ih =>
    rw [hmore] at ih
    exact ((Lawful.reaches_of_ok hitem).trans (Lawful.reaches_of_ok hmark)).trans ih
  | case5 tape value middle hitem mark after hmark hclose values later hmore ih =>
    rw [hmore] at ih
    exact ((Lawful.reaches_of_ok hitem).trans (Lawful.reaches_of_ok hmark)).trans ih

theorem rest_of_fatal_separated {item : Parse α} [Lawful item] {close : Punctuation}
    {tape after : Tape} {diagnostic : Diagnostic}
    (h : separated item close tape = .error diagnostic after) (hfatal : diagnostic.isFatal = true) :
    after.rest = [] := by
  fun_induction separated item close tape with
  | case1 tape diagnostic after hitem =>
    cases h
    exact Lawful.rest_of_fatal hitem hfatal
  | case2 tape value middle hitem diagnostic after hmark =>
    cases h
    exact Lawful.rest_of_fatal hmark hfatal
  | case3 => cases h
  | case4 tape value middle hitem mark after hmark hclose diagnostic later hmore ih =>
    cases h
    exact ih hmore
  | case5 => cases h

instance {item : Parse α} [Lawful item] {close : Punctuation} : Lawful (separated item close) :=
  ⟨reaches_separated, rest_of_fatal_separated⟩

end Parse

end ProtoSchema
