import ProtoSchema.Statement.Block

/-!
# Reading bodies

A body is read member by member with the blocks that are open kept on a stack. A member that fails
costs its line; the closing brace of a block makes its node a member of the block below. Running out
of tokens is fatal, and so is a block comment that never ends.

* `Frame.run`: reads to the end of the outermost open block.
* `Frame.reaches_run`: reading only passes tokens.
* `Statement.read`: reads a statement with its whole body.
-/

namespace ProtoSchema

/-- What a statement leads to: a node, the diagnostics met on the way, and the tape after it. -/
structure Outcome where
  node : Option Node
  errors : List Diagnostic
  tape : Tape
deriving DecidableEq, Repr

namespace Outcome

/-- Whether reading must end here. -/
def isFatal (outcome : Outcome) : Bool := outcome.errors.any Diagnostic.isFatal

end Outcome

/-- The tape from which reading goes on after a failed statement. -/
def Diagnostic.resume (diagnostic : Diagnostic) (tape : Tape) : Tape :=
  if diagnostic.isFatal then tape else tape.skipLine

/-- What is wrong with a word that starts no statement of a scope. -/
def Scope.refusal : Scope → Problem
  | oneof => .unexpected .oneofMember
  | scope => .unknownStatement scope

/-- The tape after the closing brace of a body: a semicolon may follow the body of a method. -/
def Scope.afterBody (scope : Scope) (tape : Tape) : Tape :=
  if scope = method then (tape.takeIf (·.isMark .semicolon)).2 else tape

namespace Frame

theorem reaches_afterBody (scope : Scope) (tape : Tape) :
    tape.Reaches (scope.afterBody tape) := by
  unfold Scope.afterBody Tape.takeIf
  split
  · split
    · exact .refl tape
    · exact Tape.reaches_advance tape
  · exact .refl tape

/-- Reads members of the topmost open block and then of those below it, until the last is closed. -/
def run (top : Frame) (below : List Frame) (errors : List Diagnostic) (tape : Tape) : Outcome :=
  match _htoken : tape.skipBreaks.peek? with
  | none => ⟨none, errors ++ [⟨.unterminatedBody top.scope, top.opener⟩], tape.skipBreaks⟩
  | some token =>
    if token.isMark .closeBrace then
      let after := top.scope.afterBody tape.skipBreaks.advance
      match below with
      | [] => ⟨some top.node, errors, after⟩
      | next :: others => run (next.add top.node) others errors after
    else match top.scope.statement? token.lexeme with
      | none =>
        run top below (errors ++ [⟨top.scope.refusal, token⟩]) tape.skipBreaks.skipLine
      | some statement =>
        match _hstart : statement.start tape.skipBreaks with
        | .ok (.whole node) after => run (top.add node) below errors after
        | .ok (.opened frame) after => run frame (top :: below) errors after
        | .error diagnostic after =>
          if diagnostic.isFatal then ⟨none, errors ++ [diagnostic], after⟩
          else run top below (errors ++ [diagnostic]) after.skipLine
termination_by tape.remaining
decreasing_by
  all_goals
    have hskip := tape.reaches_skipBreaks.remaining_le
    have hpos := Tape.remaining_pos_of_peek? _htoken
  · have hafter := (reaches_afterBody top.scope tape.skipBreaks.advance).remaining_le
    have hadvance := Tape.advance_shorter hpos
    omega
  · have hline := Tape.skipLine_shorter hpos (.refl _)
    omega
  · have hstart := Parse.Consumes.shorter _hstart
    omega
  · have hstart := Parse.Consumes.shorter _hstart
    omega
  · have hline := Tape.skipLine_shorter hpos (Parse.Lawful.reaches_of_error _hstart)
    omega

/-- Reading a body only passes tokens. -/
theorem reaches_run (top : Frame) (below : List Frame) (errors : List Diagnostic) (tape : Tape) :
    tape.Reaches (run top below errors tape).tape := by
  fun_induction run top below errors tape with
  | case1 => exact Tape.reaches_skipBreaks _
  | case2 =>
    exact (Tape.reaches_skipBreaks _).trans
      ((Tape.reaches_advance _).trans (reaches_afterBody _ _))
  | case3 _ _ _ _ _ _ _ _ _ ih =>
    exact (Tape.reaches_skipBreaks _).trans
      (((Tape.reaches_advance _).trans (reaches_afterBody _ _)).trans ih)
  | case4 _ _ _ _ _ _ _ _ ih =>
    exact (Tape.reaches_skipBreaks _).trans ((Tape.reaches_skipLine _).trans ih)
  | case5 _ _ _ _ _ _ _ _ _ _ _ hstart ih =>
    exact (Tape.reaches_skipBreaks _).trans ((Parse.Lawful.reaches_of_ok hstart).trans ih)
  | case6 _ _ _ _ _ _ _ _ _ _ _ hstart ih =>
    exact (Tape.reaches_skipBreaks _).trans ((Parse.Lawful.reaches_of_ok hstart).trans ih)
  | case7 _ _ _ _ _ _ _ _ _ _ _ hstart =>
    exact (Tape.reaches_skipBreaks _).trans (Parse.Lawful.reaches_of_error hstart)
  | case8 _ _ _ _ _ _ _ _ _ _ _ hstart _ ih =>
    exact (Tape.reaches_skipBreaks _).trans
      ((Parse.Lawful.reaches_of_error hstart).trans ((Tape.reaches_skipLine _).trans ih))

end Frame

namespace Statement

/-- Reads a statement with its whole body; after a failure the rest of the line is passed. -/
def read (statement : Statement) (tape : Tape) : Outcome :=
  match statement.start tape with
  | .ok (.whole node) after => ⟨some node, [], after⟩
  | .ok (.opened frame) after => frame.run [] [] after
  | .error diagnostic after => ⟨none, [diagnostic], diagnostic.resume after⟩

/-- A statement makes progress wherever there is a token. -/
theorem read_shorter (statement : Statement) {tape : Tape} (h : 0 < tape.remaining) :
    (statement.read tape).tape.remaining < tape.remaining := by
  unfold read
  split
  · rename_i hstart
    exact Parse.Consumes.shorter hstart
  · rename_i frame after hstart
    exact Nat.lt_of_le_of_lt (frame.reaches_run [] [] after).remaining_le
      (Parse.Consumes.shorter hstart)
  · rename_i diagnostic after hstart
    cases hfatal : diagnostic.isFatal with
    | false =>
      simpa [Diagnostic.resume, hfatal] using
        Tape.skipLine_shorter h (Parse.Lawful.reaches_of_error hstart)
    | true => simpa [Diagnostic.resume, hfatal, Tape.remaining,
        Parse.Lawful.rest_of_fatal hstart hfatal] using h

end Statement

end ProtoSchema
