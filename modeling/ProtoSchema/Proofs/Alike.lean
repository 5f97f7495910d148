import ProtoSchema.Proofs.Coupled
import ProtoSchema.Proofs.Shift

/-!
# Statements and bodies elsewhere

What is read of a statement and of a body does not change when the same tokens stand some lines
further down and others follow them: the node is the same, and the diagnostics are the same some
lines further down.

* `Coupling.shift`: the two tapes as a coupling, so that all statements but comments are read alike.
* `Statement.alike_start`: all statements.
* `Frame.shifts_run`: bodies at any depth, by one step and those after it.
-/

namespace ProtoSchema

variable {lines : Nat} {more : List Token} {tape tape' after after' : Tape} {token : Token}

namespace Parse

/-! ### Comments -/

theorem lineCommentText_moveDown (opener : Token) (others : List Token) :
    lineCommentText (opener.moveDown lines) (others.map (Token.moveDown lines)) =
      lineCommentText opener others := by
  simp [lineCommentText, Function.comp_def]

theorem blockCommentText_moveDown (opener : Token) (others : List Token) :
    blockCommentText (opener.moveDown lines) (others.map (Token.moveDown lines)) =
      blockCommentText opener others := by
  rw [blockCommentText, blockCommentText, List.foldl_map]
  rfl

theorem alike_lineComment : Alike lines more id lineComment lineComment := by
  refine (alike_commentOpener _ _).bind fun opener => ?_
  refine Alike.bind (alike_takeUntil fun _ => rfl) fun others => ?_
  refine alike_pure ?_
  rw [lineCommentText_moveDown]
  rfl

theorem alike_blockComment : Alike lines more id blockComment blockComment := by
  refine (alike_commentOpener _ _).bind fun opener => ?_
  refine alike_ite (alike_pure ?_) ?_
  · exact congrArg (commentNode .block) (blockCommentText_moveDown opener []).symm
  · refine Alike.bind (alike_takeUntil fun _ => rfl) fun others => ?_
    refine (alike_commentCloser opener).bind fun closer => ?_
    refine alike_pure ?_
    have htext := @blockCommentText_moveDown lines opener (others ++ [closer])
    rw [List.map_append] at htext
    exact congrArg (commentNode .block) htext.symm

theorem alike_whole {parse : Parse Node} (h : Alike lines more id parse parse) :
    Alike lines more (Reading.moveDown lines) (whole parse) (whole parse) :=
  h.bind fun _ => alike_pure rfl

end Parse

open Parse

/-! ### Statements -/

/-- A tape and one with the same tokens elsewhere. -/
def Coupling.shift (lines : Nat) (more : List Token) : Coupling where
  rel := Tape.Shifts lines more
  twin token token' := token' = token.moveDown lines
  opened := Tape.Shifts lines more
  passes _ := True
  kept tape := more ≠ [] → tape.rest ≠ []
  kept_of_reaches hreach hkept hmore := hreach.ne_nil (hkept hmore)
  twin_eq htwin := ⟨_, htwin⟩
  peek {tape tape'} hshifts := by
    rw [hshifts.peek?_eq]
    cases tape.peek? with
    | none => exact .none
    | some token => exact .some rfl
  nearest hshifts := hshifts.nearest
  advance hshifts _ _ hkept := hshifts.advance hkept
  opens hshifts _ _ hkept := hshifts.advance hkept
  skipBreaks hshifts hkept := hshifts.skipBreaks hkept
  stream {tape tape' token} hshifts hpeek hword hmore := by
    -- a line does not end with the word
    have hends := hshifts.ends hmore
    refine hends.ne_nil (Frame.rest_of_peek? hpeek) ?_
    have hregular := hends.regular token (List.mem_of_mem_head? hpeek)
    exact (hregular.inner_of_isReference (by rw [hword]; decide)).lineEnd
  passes_of_inner _ _ _ := trivial

/-- Readings that are coupled so end alike. -/
theorem Parse.Agrees.of_shift {result result' : EStateM.Result Diagnostic Tape Reading}
    (h : (Coupling.shift lines more).Agrees (Coupling.shift lines more).Begun result result') :
    Agrees lines more (Reading.moveDown lines) result result' := by
  cases h with
  | ok hbegun =>
    cases hbegun with
    | whole hshifts => exact .ok hshifts
    | opened htwin hshifts =>
      cases htwin
      exact .ok hshifts
  | error hshifts htwin _ =>
    cases htwin
    exact .error hshifts

/-- **Every statement is read alike elsewhere.** -/
theorem Statement.alike_start (statement : Statement) :
    Alike lines more (Reading.moveDown lines) statement.start statement.start := by
  intro tape tape' hshifts hleft
  by_cases hcomment : ∃ mark, statement = .comment mark
  · obtain ⟨mark, rfl⟩ := hcomment
    cases mark with
    | line => exact alike_whole alike_lineComment hshifts hleft
    | block => exact alike_whole alike_blockComment hshifts hleft
  · refine .of_shift (Coupling.agrees_start statement ?_ hshifts (fun _ _ _ => trivial) hleft)
    rintro mark rfl
    exact hcomment ⟨mark, rfl⟩

/-! ### Bodies -/

/-- The rest of a line is passed on both tapes, if the line ends on the first one. -/
theorem Tape.Shifts.rest_skipLine (h : tape.Shifts lines more tape') :
    tape'.skipLine.rest = tape.skipLine.rest.map (Token.moveDown lines) ++ more := by
  have hbreak : (tape.skipWhile (!·.isLineEnd)).Shifts lines more
      (tape'.skipWhile (!·.isLineEnd)) :=
    h.skipWhile (fun _ => rfl) fun hmore => (h.ends hmore).ne_nil_of_skipWhile (h.left hmore)
  unfold Tape.skipLine
  cases hrest : (tape.skipWhile (!·.isLineEnd)).rest with
  | nil => simp [Tape.advance, hrest, hbreak.rest_eq_nil hrest, hbreak.more_eq_nil hrest]
  | cons token rest => simp [Tape.advance, hrest, hbreak.rest_cons hrest]

theorem Tape.Shifts.skipLine (h : tape.Shifts lines more tape')
    (hleft : more ≠ [] → tape.skipLine.rest ≠ []) :
    tape.skipLine.Shifts lines more tape'.skipLine := by
  refine (h.skipWhile (fun _ => rfl) fun hmore hnil => hleft hmore ?_).advance hleft
  unfold Tape.skipLine Tape.advance
  rw [hnil]
  exact hnil

theorem Tape.Shifts.afterBody (h : tape.Shifts lines more tape') (scope : Scope)
    (hleft : more ≠ [] → (scope.afterBody tape).rest ≠ []) :
    (scope.afterBody tape).Shifts lines more (scope.afterBody tape') := by
  unfold Scope.afterBody at hleft ⊢
  split
  · rename_i hscope
    rw [if_pos hscope] at hleft
    exact (h.takeIf (fun _ => rfl) hleft).2
  · exact h

/-- An outcome and the same outcome elsewhere. -/
structure Outcome.Shifts (lines : Nat) (more : List Token) (outcome outcome' : Outcome) : Prop where
  node : outcome'.node = outcome.node
  errors : outcome'.errors = outcome.errors.map (Diagnostic.moveDown lines)
  tape : outcome.tape.Shifts lines more outcome'.tape

namespace Frame

variable {top : Frame} {below : List Frame} {errors : List Diagnostic}

/-- Bodies are read alike from any place behind a tape on. -/
def ShiftsAfter (lines : Nat) (more : List Token) (tape : Tape) : Prop :=
  ∀ {after after' : Tape} (top : Frame) (below : List Frame) (errors : List Diagnostic),
    after.remaining < tape.remaining → after.Shifts lines more after' →
    (more ≠ [] → (run top below errors after).tape.rest ≠ []) →
    (run top below errors after).Shifts lines more
      (run (top.moveDown lines) (below.map (moveDown lines))
        (errors.map (Diagnostic.moveDown lines)) after')

/-- Goes on after the start of a member, or stops where it fails for good. -/
def afterStart (top : Frame) (below : List Frame) (errors : List Diagnostic) :
    EStateM.Result Diagnostic Tape Reading → Outcome
  | .ok reading after => proceed top below errors reading after
  | .error diagnostic after =>
    if diagnostic.isFatal then ⟨none, errors ++ [diagnostic], after⟩
    else run top below (errors ++ [diagnostic]) after.skipLine

theorem shifts_proceed {reading : Reading} (hnext : ShiftsAfter lines more tape)
    (hlt : after.remaining < tape.remaining) (hafter : after.Shifts lines more after')
    (hleft : more ≠ [] → (proceed top below errors reading after).tape.rest ≠ []) :
    (proceed top below errors reading after).Shifts lines more
      (proceed (top.moveDown lines) (below.map (moveDown lines))
        (errors.map (Diagnostic.moveDown lines)) (reading.moveDown lines) after') := by
  cases reading with
  | whole node => exact hnext (top.add node) below errors hlt hafter hleft
  | opened frame => exact hnext frame (top :: below) errors hlt hafter hleft

theorem reaches_afterStart (top : Frame) (below : List Frame) (errors : List Diagnostic)
    (result : EStateM.Result Diagnostic Tape Reading) :
    (endTape result).Reaches (afterStart top below errors result).tape := by
  cases result with
  | ok reading after => cases reading <;> exact reaches_run _ _ _ _
  | error diagnostic after =>
    rw [afterStart]
    split
    · exact .refl after
    · exact (Tape.reaches_skipLine after).trans (reaches_run _ _ _ _)

/-- A member is read alike, and so is what follows it. -/
theorem shifts_afterStart {statement : Statement} (hnext : ShiftsAfter lines more tape)
    (hpeek : tape.skipBreaks.peek? = some token)
    (hskip : tape.skipBreaks.Shifts lines more tape'.skipBreaks)
    (hleft : more ≠ [] →
      (afterStart top below errors (statement.start tape.skipBreaks)).tape.rest ≠ []) :
    (afterStart top below errors (statement.start tape.skipBreaks)).Shifts lines more
      (afterStart (top.moveDown lines) (below.map (moveDown lines))
        (errors.map (Diagnostic.moveDown lines)) (statement.start tape'.skipBreaks)) := by
  have hagrees := statement.alike_start hskip fun hmore =>
    (reaches_afterStart top below errors _).ne_nil (hleft hmore)
  generalize statement.start tape'.skipBreaks = result' at hagrees ⊢
  generalize hstart : statement.start tape.skipBreaks = result at hagrees hleft ⊢
  cases hagrees with
  | ok hafter => exact shifts_proceed hnext (Tape.start_lt hstart) hafter hleft
  | @error diagnostic after after' hafter =>
    rw [afterStart] at hleft ⊢
    rw [afterStart, Diagnostic.isFatal_moveDown]
    split
    · exact ⟨rfl, by simp, hafter⟩
    · rename_i hminor
      rw [if_neg hminor] at hleft
      have hrun := reaches_run top below (errors ++ [diagnostic]) after.skipLine
      have hmember := hnext top below _ (Tape.error_lt hpeek hstart)
        (hafter.skipLine fun hmore => hrun.ne_nil (hleft hmore)) hleft
      rw [List.map_append] at hmember
      exact hmember

/-! One step of reading a body, by what comes next. -/

theorem run_of_end (hpeek : tape.skipBreaks.peek? = none) :
    run top below errors tape =
      ⟨none, errors ++ [⟨.unterminatedBody top.scope, top.opener⟩], tape.skipBreaks⟩ := by
  rw [run_eq, hpeek]

theorem run_of_brace (hpeek : tape.skipBreaks.peek? = some token)
    (hmark : token.isMark .closeBrace = true) :
    run top below errors tape =
      match below with
      | [] => ⟨some top.node, errors, top.scope.afterBody tape.skipBreaks.advance⟩
      | next :: others =>
        run (next.add top.node) others errors (top.scope.afterBody tape.skipBreaks.advance) := by
  rw [run_eq, hpeek]
  exact if_pos hmark

theorem run_of_refusal (hpeek : tape.skipBreaks.peek? = some token)
    (hmark : token.isMark .closeBrace = false)
    (hstatement : top.scope.statement? token.lexeme = none) :
    run top below errors tape =
      run top below (errors ++ [⟨top.scope.refusal, token⟩]) tape.skipBreaks.skipLine := by
  rw [run_eq top below errors tape, hpeek]
  simp only [hmark, Bool.false_eq_true, if_false, hstatement]

theorem run_of_start {statement : Statement} (hpeek : tape.skipBreaks.peek? = some token)
    (hmark : token.isMark .closeBrace = false)
    (hstatement : top.scope.statement? token.lexeme = some statement) :
    run top below errors tape =
      afterStart top below errors (statement.start tape.skipBreaks) := by
  rw [run_eq, hpeek]
  simp only [hmark, Bool.false_eq_true, if_false, hstatement]
  rfl

/-- The closing brace is passed alike, and so is what follows it in the block below. -/
theorem shifts_of_brace (hnext : ShiftsAfter lines more tape)
    (hpeek : tape.skipBreaks.peek? = some token)
    (hskip : tape.skipBreaks.Shifts lines more tape'.skipBreaks)
    (hmark : token.isMark .closeBrace = true)
    (hleft : more ≠ [] → (run top below errors tape).tape.rest ≠ []) :
    (run top below errors tape).Shifts lines more
      (run (top.moveDown lines) (below.map (moveDown lines))
        (errors.map (Diagnostic.moveDown lines)) tape') := by
  have hpeek' := hskip.peek?_of_some hpeek
  have hreach := reaches_afterBody top.scope tape.skipBreaks.advance
  rw [run_of_brace hpeek hmark] at hleft ⊢
  rw [run_of_brace hpeek' hmark]
  cases below with
  | nil =>
    have hafter := hskip.advance fun hmore => hreach.ne_nil (hleft hmore)
    exact ⟨rfl, rfl, hafter.afterBody top.scope hleft⟩
  | cons next others =>
    have hrun := reaches_run (next.add top.node) others errors
      (top.scope.afterBody tape.skipBreaks.advance)
    have hafter := hskip.advance fun hmore => (hreach.trans hrun).ne_nil (hleft hmore)
    have hlt : (top.scope.afterBody tape.skipBreaks.advance).remaining < tape.remaining := by
      have hle := hreach.remaining_le
      have hadvance := Tape.advance_shorter (Tape.remaining_pos_of_peek? hpeek)
      have hbreaks := tape.skipBreaks_remaining_le
      omega
    exact hnext (next.add top.node) others errors hlt
      (hafter.afterBody top.scope fun hmore => hrun.ne_nil (hleft hmore)) hleft

theorem reaches_run_skipBreaks (top : Frame) (below : List Frame) (errors : List Diagnostic)
    (tape : Tape) : tape.skipBreaks.Reaches (run top below errors tape).tape := by
  have hskip : tape.skipBreaks.skipBreaks = tape.skipBreaks :=
    skipBreaks_of_next (next_dropWhile _ _)
  rw [run_congr hskip.symm]
  exact reaches_run _ _ _ _

/-- **A body is read alike elsewhere**, unless it comes to the end of its tape and there are others
behind it. -/
theorem shifts_run (top : Frame) (below : List Frame) (errors : List Diagnostic)
    (h : tape.Shifts lines more tape')
    (hleft : more ≠ [] → (run top below errors tape).tape.rest ≠ []) :
    (run top below errors tape).Shifts lines more
      (run (top.moveDown lines) (below.map (moveDown lines))
        (errors.map (Diagnostic.moveDown lines)) tape') := by
  induction hn : tape.remaining using Nat.strongRecOn
    generalizing top below errors tape tape' with
  | ind n ih =>
    subst hn
    have hnext : ShiftsAfter lines more tape := fun top below errors hlt hafter hleft =>
      ih _ hlt top below errors hafter hleft rfl
    have hskip := h.skipBreaks fun hmore =>
      (reaches_run_skipBreaks top below errors tape).ne_nil (hleft hmore)
    have hpeek' := hskip.peek?_eq
    cases hpeek : tape.skipBreaks.peek? with
    | none =>
      rw [hpeek] at hpeek'
      rw [run_of_end hpeek, run_of_end hpeek']
      exact ⟨rfl, by simp [Diagnostic.moveDown, moveDown], hskip⟩
    | some token =>
      rw [hpeek] at hpeek'
      cases hmark : token.isMark .closeBrace with
      | true => exact shifts_of_brace hnext hpeek hskip hmark hleft
      | false =>
        cases hstatement : top.scope.statement? token.lexeme with
        | none =>
          have hstatement' : (top.moveDown lines).scope.statement? (token.moveDown lines).lexeme =
              none := hstatement
          rw [run_of_refusal hpeek hmark hstatement] at hleft ⊢
          rw [run_of_refusal hpeek' hmark hstatement']
          have hrun := reaches_run top below (errors ++ [⟨top.scope.refusal, token⟩])
            tape.skipBreaks.skipLine
          have hmember := hnext top below _ (Tape.skipLine_lt hpeek)
            (hskip.skipLine fun hmore => hrun.ne_nil (hleft hmore)) hleft
          rw [List.map_append] at hmember
          exact hmember
        | some statement =>
          have hstatement' : (top.moveDown lines).scope.statement? (token.moveDown lines).lexeme =
              some statement := hstatement
          rw [run_of_start hpeek hmark hstatement] at hleft ⊢
          rw [run_of_start hpeek' hmark hstatement']
          exact shifts_afterStart hnext hpeek hskip hleft

end Frame

end ProtoSchema
