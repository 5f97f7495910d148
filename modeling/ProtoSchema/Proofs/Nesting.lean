import ProtoSchema.Proofs.Blocks

/-!
# A stack of open blocks is nested reading

Bodies are read with the open blocks on a stack. Seen from one block, the stack plays no part: each
member, with whatever body it has, is read as a statement of its own, and the block goes on after
it.

* `Frame.run_eq_resume`: the block on top is read alone, and those below go on after it.
* `Frame.settled_run`: reading a body gives its node, or ends fatally where no token is left.
* `Frame.run_eq_member`: one step of reading a body, a whole member at a time.
-/

namespace ProtoSchema

variable {top : Frame} {below : List Frame} {errors : List Diagnostic} {tape after : Tape}
  {token : Token} {statement : Statement} {reading : Reading} {diagnostic : Diagnostic}

/-! ### Progress -/

namespace Tape

theorem skipBreaks_remaining_le (tape : Tape) : tape.skipBreaks.remaining ≤ tape.remaining :=
  tape.reaches_skipBreaks.remaining_le

/-- Refusing a member makes progress. -/
theorem skipLine_lt (h : tape.skipBreaks.peek? = some token) :
    tape.skipBreaks.skipLine.remaining < tape.remaining := by
  have hline := skipLine_shorter (remaining_pos_of_peek? h) (.refl _)
  have hskip := tape.skipBreaks_remaining_le
  omega

/-- Starting a member makes progress. -/
theorem start_lt (h : statement.start tape.skipBreaks = .ok reading after) :
    after.remaining < tape.remaining := by
  have hstart := Parse.Consumes.shorter h
  have hskip := tape.skipBreaks_remaining_le
  omega

/-- A member that fails costs its line. -/
theorem error_lt (hpeek : tape.skipBreaks.peek? = some token)
    (h : statement.start tape.skipBreaks = .error diagnostic after) :
    after.skipLine.remaining < tape.remaining := by
  have hline := skipLine_shorter (remaining_pos_of_peek? hpeek) (Parse.Lawful.reaches_of_error h)
  have hskip := tape.skipBreaks_remaining_le
  omega

theorem rest_of_peek?_eq_none (h : tape.peek? = none) : tape.rest = [] := by
  simpa [peek?] using h

end Tape

/-! ### The stack below a block -/

/-- What follows an outcome of the block on top: the block below it goes on with one more member, if
there is a block below and if there is a member. -/
def Outcome.resume (outcome : Outcome) (below : List Frame) (errors : List Diagnostic) : Outcome :=
  match outcome.node, below with
  | none, _ => ⟨none, errors ++ outcome.errors, outcome.tape⟩
  | some node, [] => ⟨some node, errors ++ outcome.errors, outcome.tape⟩
  | some node, next :: others => (next.add node).run others (errors ++ outcome.errors) outcome.tape

theorem Outcome.resume_nil (outcome : Outcome) (errors : List Diagnostic) :
    outcome.resume [] errors = ⟨outcome.node, errors ++ outcome.errors, outcome.tape⟩ := by
  unfold resume
  split <;> simp_all

theorem Outcome.resume_resume (outcome : Outcome) (below : List Frame)
    (errors others : List Diagnostic) :
    (outcome.resume [] others).resume below errors = outcome.resume below (errors ++ others) := by
  rw [resume_nil]
  unfold resume
  cases outcome.node with
  | none => simp
  | some node => cases below <;> simp

namespace Frame

/-- Diagnostics met before a block and the blocks below it are put around what the block gives. -/
theorem resume_of_run
    (h : ∀ below errors, run top below errors tape = (run top [] [] tape).resume below errors)
    (below : List Frame) (errors others : List Diagnostic) :
    run top below (errors ++ others) tape = (run top [] others tape).resume below errors := by
  rw [h below, h [] others, Outcome.resume_resume]

/-- **The block on top is read alone**, and the blocks below it go on after it. -/
theorem run_eq_resume (top : Frame) (below : List Frame) (errors : List Diagnostic) (tape : Tape) :
    run top below errors tape = (run top [] [] tape).resume below errors := by
  induction hn : tape.remaining using Nat.strongRecOn generalizing top below errors tape with
  | ind n ih =>
    subst hn
    have hnext : ∀ (top : Frame) (after : Tape), after.remaining < tape.remaining →
        ∀ below errors others, run top below (errors ++ others) after =
          (run top [] others after).resume below errors := by
      intro top after hlt
      exact resume_of_run fun below errors => ih _ hlt top below errors after rfl
    rw [run_eq top below, run_eq top []]
    cases hpeek : tape.skipBreaks.peek? with
    | none => simp [Outcome.resume]
    | some token =>
      simp only
      split
      · cases below <;> simp [Outcome.resume]
      · cases hstatement : top.scope.statement? token.lexeme with
        | none => exact hnext top _ (Tape.skipLine_lt hpeek) below errors _
        | some statement =>
          simp only
          cases hstart : statement.start tape.skipBreaks with
          | error diagnostic after =>
            simp only
            split
            · simp [Outcome.resume]
            · exact hnext top _ (Tape.error_lt hpeek hstart) below errors _
          | ok reading after =>
            have hlt := Tape.start_lt hstart
            cases reading with
            | whole node =>
              simpa [proceed] using hnext (top.add node) after hlt below errors []
            | opened frame =>
              -- the inner block is read alone on both sides
              simp only [proceed]
              rw [ih _ hlt frame (top :: below) errors after rfl, ih _ hlt frame [top] [] after rfl]
              have hreach := (reaches_run frame [] [] after).remaining_le
              have hmore := fun node => hnext (top.add node) (run frame [] [] after).tape
                (Nat.lt_of_le_of_lt hreach hlt) below errors (run frame [] [] after).errors
              unfold Outcome.resume at hmore ⊢
              cases hnode : (run frame [] [] after).node with
              | none => simp
              | some node => simpa using hmore node

end Frame

/-! ### Fatal ends -/

/-- None of the diagnostics is fatal. -/
def Minor (errors : List Diagnostic) : Prop :=
  ∀ diagnostic ∈ errors, diagnostic.isFatal = false

@[simp] theorem minor_nil : Minor [] := by
  simp [Minor]

theorem minor_append {first second : List Diagnostic} :
    Minor (first ++ second) ↔ Minor first ∧ Minor second :=
  List.forall_mem_append

theorem minor_singleton : Minor [diagnostic] ↔ diagnostic.isFatal = false := by
  simp [Minor]

theorem Outcome.isFatal_eq_false {outcome : Outcome} :
    outcome.isFatal = false ↔ Minor outcome.errors := by
  simp [isFatal, Minor]

/-- Reading a body ends in one of two ways: the body is closed and none of the diagnostics on the
way is fatal, or the tokens have run out, and the last diagnostic, and no other, is fatal. -/
inductive Outcome.Settled : Outcome → Prop
  | closed {node : Node} {errors : List Diagnostic} {tape : Tape} (herrors : Minor errors) :
      Settled ⟨some node, errors, tape⟩
  | cut {errors : List Diagnostic} {diagnostic : Diagnostic} {tape : Tape} (herrors : Minor errors)
      (hfatal : diagnostic.isFatal = true) (hrest : tape.rest = []) :
      Settled ⟨none, errors ++ [diagnostic], tape⟩

theorem Scope.minor_refusal (scope : Scope) (token : Token) : Minor [⟨scope.refusal, token⟩] := by
  rw [minor_singleton]
  cases scope <;> rfl

namespace Frame

/-- **Reading a body is settled**, if no diagnostic before it was fatal. -/
theorem settled_run (top : Frame) (below : List Frame) (errors : List Diagnostic) (tape : Tape)
    (h : Minor errors) : (run top below errors tape).Settled := by
  fun_induction run top below errors tape with
  | case1 top below errors tape htoken => exact .cut h rfl (Tape.rest_of_peek?_eq_none htoken)
  | case2 => exact .closed h
  | case3 _ _ _ _ _ _ _ _ _ ih => exact ih h
  | case4 top _ _ _ _ _ _ _ ih =>
    exact ih (minor_append.2 ⟨h, top.scope.minor_refusal _⟩)
  | case5 _ _ _ _ _ _ _ _ _ _ _ _ ih => exact ih h
  | case6 _ _ _ _ _ _ _ _ _ _ _ _ ih => exact ih h
  | case7 _ _ _ _ _ _ _ _ _ _ _ hstart hfatal =>
    exact .cut h hfatal (Parse.Lawful.rest_of_fatal hstart hfatal)
  | case8 _ _ _ _ _ _ _ _ _ _ _ _ hfatal ih =>
    exact ih (minor_append.2 ⟨h, minor_singleton.2 (by simpa using hfatal)⟩)

/-! ### Whole members -/

/-- Goes on after a member: with the next one, unless the member ended fatally. -/
def afterMember (top : Frame) (errors : List Diagnostic) (outcome : Outcome) : Outcome :=
  if outcome.isFatal then ⟨none, errors ++ outcome.errors, outcome.tape⟩
  else run (top.extend outcome.node.toList) [] (errors ++ outcome.errors) outcome.tape

theorem extend_singleton (frame : Frame) (member : Node) :
    frame.extend [member] = frame.add member :=
  rfl

/-- **One step of reading a body, a whole member at a time.** -/
theorem run_eq_member (top : Frame) (errors : List Diagnostic) (tape : Tape) :
    run top [] errors tape =
      match tape.skipBreaks.peek? with
      | none => ⟨none, errors ++ [⟨.unterminatedBody top.scope, top.opener⟩], tape.skipBreaks⟩
      | some token =>
        if token.isMark .closeBrace then
          ⟨some top.node, errors, top.scope.afterBody tape.skipBreaks.advance⟩
        else match top.scope.statement? token.lexeme with
          | none => run top [] (errors ++ [⟨top.scope.refusal, token⟩]) tape.skipBreaks.skipLine
          | some statement => top.afterMember errors (statement.read tape.skipBreaks) := by
  rw [run_eq]
  cases hpeek : tape.skipBreaks.peek? with
  | none => rfl
  | some token =>
    simp only
    split
    · rfl
    · cases hstatement : top.scope.statement? token.lexeme with
      | none => rfl
      | some statement =>
        simp only [Statement.read]
        cases hstart : statement.start tape.skipBreaks with
        | error diagnostic after =>
          simp only [afterMember, Outcome.isFatal, List.any_cons, List.any_nil, Bool.or_false,
            Diagnostic.resume]
          split
          · rfl
          · simp
        | ok reading after =>
          cases reading with
          | whole node => simp [afterMember, Outcome.isFatal, proceed, extend_singleton]
          | opened frame =>
            -- the block inside ends with a node or fatally, and the stack agrees with both
            have hsettled := settled_run frame [] [] after minor_nil
            simp only [proceed]
            rw [run_eq_resume]
            generalize run frame [] [] after = outcome at hsettled
            cases hsettled with
            | closed herrors =>
              rw [afterMember, Outcome.isFatal_eq_false.2 herrors]
              simp [Outcome.resume, extend_singleton]
            | cut herrors hfatal hrest =>
              simp [Outcome.resume, afterMember, Outcome.isFatal, hfatal]

end Frame

end ProtoSchema
