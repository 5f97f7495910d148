import ProtoSchema.Proofs.Alike

/-!
# Statements end before the line does

A text that ends with a line break is never read to its end by a statement of a file, unless the
statement is a block or a block comment that is never closed. Statements without a body stay on
their line, and what closes a body or a block comment is no line break.

* `Parse.Inline`: a parse that does not pass the last line break; one lemma for each statement.
* `Statement.rest_start`: every statement of a file.
* `Frame.rest_run`: bodies that are closed.
-/

namespace ProtoSchema

open Parse

variable {α β : Type} {tape : Tape} {token : Token}

/-! ### Parses within a line -/

namespace Tape.EndsLine

/-- A token is passed that is no line break, so that it was not the last one. -/
theorem advance (h : tape.EndsLine) (hpeek : tape.peek? = some token)
    (htoken : token.isLineEnd = false) : tape.advance.rest ≠ [] :=
  h.ne_nil (Frame.rest_of_peek? hpeek) htoken

theorem takeIf {test : Token → Bool} (h : tape.EndsLine) (hleft : tape.rest ≠ [])
    (htest : ∀ token, token.lexeme = "\n" → test token = false) :
    (tape.takeIf test).2.rest ≠ [] := by
  unfold Tape.takeIf
  cases hnext : tape.peek?.filter test with
  | none => exact hleft
  | some token =>
    obtain ⟨hpeek, hpass⟩ := Option.filter_eq_some_iff.1 hnext
    refine h.advance hpeek ?_
    rw [← Bool.not_eq_true]
    intro hend
    have hregular := h.regular token (List.mem_of_mem_head? hpeek)
    rw [htest token (hregular.lexeme_of_isLineEnd hend)] at hpass
    cases hpass

end Tape.EndsLine

namespace Parse

/-- A parse that leaves tokens, at least the line break that is the last of them. -/
def Inline (parse : Parse α) : Prop :=
  ∀ ⦃tape : Tape⦄, tape.EndsLine → tape.rest ≠ [] → (endTape (parse tape)).rest ≠ []

theorem inline_pure (value : α) : Inline (pure value : Parse α) := fun _ _ hleft => hleft

theorem Inline.bind {parse : Parse α} {next : α → Parse β} [Lawful parse] (h : Inline parse)
    (hnext : ∀ value, Inline (next value)) : Inline (parse >>= next) := by
  intro tape hends hleft
  have hparse := h hends hleft
  have hreach : tape.Reaches (endTape (parse tape)) := Lawful.reaches tape
  rw [bind_apply]
  cases hresult : parse tape with
  | error diagnostic after =>
    rw [hresult] at hparse
    exact hparse
  | ok value after =>
    rw [hresult] at hparse hreach
    exact hnext value (hends.reaches hreach) hparse

theorem inline_ite {test : Bool} {yes no : Parse α} (hyes : Inline yes) (hno : Inline no) :
    Inline (if test then yes else no) := by
  cases test
  · exact hno
  · exact hyes

theorem inline_require (kept : Bool) (rule : Violation) (token : Token) :
    Inline (require kept rule token) := by
  intro tape _ hleft
  unfold require
  split <;> exact hleft

/-- A token of a terminal is no line break, so that it is not the last one. -/
theorem inline_expect {terminal : Terminal} (hterminal : terminal ≠ .word "\n") :
    Inline (expect terminal) := by
  intro tape hends hleft
  cases hresult : expect terminal tape with
  | error diagnostic after =>
    have hstays : after = tape := by
      have hcheck := endTape_check terminal tape
      unfold expect at hresult
      split at hresult
      · cases hresult
      · rename_i hfails
        cases hresult
        rwa [hfails] at hcheck
    rwa [hstays]
  | ok token after =>
    obtain ⟨hadmits, rest, hrest, rfl⟩ := expect_eq_ok hresult
    have hregular := hends.regular token (by rw [hrest]; exact List.mem_cons_self)
    exact hends.advance (by rw [Tape.peek?, hrest]; rfl)
      (hregular.isLineEnd_of_admits hadmits hterminal)

theorem inline_accept? {test : Token → Bool}
    (htest : ∀ token, token.lexeme = "\n" → test token = false) : Inline (accept? test) :=
  fun _ hends hleft => hends.takeIf hleft htest

theorem inline_commentOpener (mark : OpenComment) {test : String → Bool}
    (htest : test "\n" = false) : Inline (commentOpener mark test) := by
  intro tape hends hleft
  have htaken : (tape.takeIf fun token => test token.lexeme).2.rest ≠ [] :=
    hends.takeIf hleft fun token hlexeme => by rw [hlexeme, htest]
  unfold commentOpener
  split
  · rename_i hopener
    rw [hopener] at htaken
    exact htaken
  · exact hleft

theorem inline_takeUntil_isLineEnd : Inline (takeUntil Token.isLineEnd) :=
  fun _ hends hleft => hends.ne_nil_of_skipWhile hleft

/-! ### Statements of a file -/

theorem inline_version : Inline version := by
  refine (inline_expect (by decide)).bind fun keyword => ?_
  refine (inline_expect (by decide)).bind fun _ => ?_
  refine (inline_expect (by decide)).bind fun literal => ?_
  refine (inline_require _ _ _).bind fun _ => ?_
  exact (inline_expect (by decide)).bind fun _ => inline_pure _

theorem inline_importFile : Inline importFile := by
  refine (inline_expect (by decide)).bind fun keyword => ?_
  refine (inline_accept? ?_).bind fun modifier => ?_
  · intro token hlexeme
    rw [hlexeme]
    rfl
  refine (inline_expect (by decide)).bind fun path => ?_
  exact (inline_expect (by decide)).bind fun _ => inline_pure _

theorem inline_package : Inline package := by
  refine (inline_expect (by decide)).bind fun keyword => ?_
  refine (inline_expect (by decide)).bind fun name => ?_
  exact (inline_expect (by decide)).bind fun _ => inline_pure _

theorem inline_extensionName : Inline extensionName := by
  refine (inline_expect (by decide)).bind fun extension => ?_
  refine (inline_expect (by decide)).bind fun _ => ?_
  refine (inline_accept? ?_).bind fun member => inline_pure _
  intro token hlexeme
  rw [hlexeme]
  decide

theorem inline_optionName : Inline optionName := by
  refine (inline_accept? ?_).bind fun paren => ?_
  · intro token hlexeme
    rw [Token.isMark, hlexeme]
    rfl
  exact inline_ite inline_extensionName ((inline_expect (by decide)).bind fun _ => inline_pure _)

theorem inline_assignment : Inline (assignment false) := by
  refine (inline_pure _).bind fun _ => ?_
  refine inline_optionName.bind fun name => ?_
  refine (inline_pure _).bind fun _ => ?_
  refine (inline_expect (by decide)).bind fun _ => ?_
  refine (inline_pure _).bind fun _ => ?_
  have hvalue : Inline optionValue := (inline_expect (by decide)).bind fun _ => inline_pure _
  exact hvalue.bind fun _ => inline_pure _

theorem inline_option : Inline option := by
  refine (inline_expect (by decide)).bind fun _ => ?_
  refine inline_assignment.bind fun node => ?_
  exact (inline_expect (by decide)).bind fun _ => inline_pure _

theorem inline_lineComment : Inline lineComment := by
  refine (inline_commentOpener _ (by decide)).bind fun opener => ?_
  exact inline_takeUntil_isLineEnd.bind fun _ => inline_pure _

theorem inline_whole {parse : Parse Node} [Lawful parse] (h : Inline parse) :
    Inline (whole parse) :=
  h.bind fun _ => inline_pure _

/-- The word in front of a block is no line break, and the rest of its head is on the line. -/
theorem rest_header {kind : Node.Kind} {scope : Scope} (hends : tape.EndsLine)
    (hpeek : tape.peek? = some token) (htoken : token.isLineEnd = false) :
    (endTape (header kind scope tape)).rest ≠ [] := by
  have hkeyword : anyToken tape = .ok token tape.advance := by rw [anyToken, hpeek]
  have hrest : Inline (do
      let name ← expect (.blockName token.lexeme)
      let opener ← expect (.mark .openBrace)
      return .opened ⟨scope, opener, ⟨kind, token.lexeme, [.leaf .identifier name.lexeme]⟩⟩ :
        Parse Reading) := by
    refine (inline_expect (by simp)).bind fun name => ?_
    exact (inline_expect (by decide)).bind fun _ => inline_pure _
  unfold header
  rw [bind_apply, hkeyword]
  exact hrest (hends.reaches tape.reaches_advance) (hends.advance hpeek htoken)

/-- A block comment ends with a word, or it is never closed. -/
theorem rest_blockComment (hends : tape.EndsLine) (hleft : tape.rest ≠ [])
    (hminor : ∀ {diagnostic after}, blockComment tape = .error diagnostic after →
      diagnostic.isFatal = false) : (endTape (blockComment tape)).rest ≠ [] := by
  have hopener : (endTape (commentOpener .block Lexeme.opensBlockComment tape)).rest ≠ [] :=
    inline_commentOpener _ (by decide) hends hleft
  unfold blockComment at hminor ⊢
  rw [bind_apply] at hminor ⊢
  cases hresult : commentOpener .block Lexeme.opensBlockComment tape with
  | error diagnostic after =>
    rw [hresult] at hopener
    exact hopener
  | ok opener after =>
    rw [hresult] at hopener
    have hafter := hends.reaches (Lawful.reaches_of_ok hresult)
    simp only [hresult] at hminor ⊢
    cases hcloses : Lexeme.closesBlockComment opener.lexeme with
    | true =>
      rw [if_pos rfl]
      exact hopener
    | false =>
      rw [hcloses, if_neg Bool.false_ne_true, bind_apply] at hminor
      rw [if_neg Bool.false_ne_true, bind_apply]
      simp only [takeUntil, bind_apply, commentCloser] at hminor ⊢
      cases hpeek : (after.skipWhile (!closesComment ·)).peek? with
      | none =>
        simp only [hpeek] at hminor
        cases hminor rfl
      | some closer =>
        -- the word that closes the comment is no line break
        have hcloser : closer.isLineEnd = false := by
          have hcloses := next_dropWhile (!closesComment ·) after.rest closer hpeek
          simp only [closesComment, Bool.not_eq_false', Bool.and_eq_true, Bool.not_eq_true']
            at hcloses
          exact hcloses.1
        exact (hafter.reaches (after.reaches_skipWhile _)).advance hpeek hcloser

end Parse

/-- A statement of a file does not pass the last line break, unless it ends fatally. -/
theorem Statement.rest_start {statement : Statement} (hends : tape.EndsLine)
    (hpeek : tape.peek? = some token)
    (hstatement : Scope.file.statement? token.lexeme = some statement)
    (hminor : ∀ {diagnostic after}, statement.start tape = .error diagnostic after →
      diagnostic.isFatal = false) : (endTape (statement.start tape)).rest ≠ [] := by
  have hleft := Tape.ne_nil_of_peek? hpeek
  have htoken : token.isLineEnd = false :=
    Grammar.isLineEnd_of_statement? (hends.regular token (List.mem_of_mem_head? hpeek)) hstatement
  have hmember := Scope.mem_members_of_statement? hstatement
  simp only [Scope.members, List.mem_cons, List.not_mem_nil, or_false] at hmember
  rcases hmember with rfl | rfl | rfl | rfl | rfl | rfl | rfl | rfl | rfl
  · exact inline_whole inline_lineComment hends hleft
  · exact inline_whole inline_version hends hleft
  · exact inline_whole inline_importFile hends hleft
  · exact inline_whole inline_package hends hleft
  · exact inline_whole inline_option hends hleft
  · exact rest_header hends hpeek htoken
  · exact rest_header hends hpeek htoken
  · exact rest_header hends hpeek htoken
  · have hcomment : (endTape (blockComment tape)).rest ≠ [] := by
      refine rest_blockComment hends hleft fun {diagnostic after} herror => @hminor _ after ?_
      rw [start, whole, bind_apply, herror]
    rw [start, whole, bind_apply]
    cases hresult : blockComment tape <;> rw [hresult] at hcomment <;> exact hcomment

theorem Scope.rest_afterBody (scope : Scope) (hends : tape.EndsLine) (hleft : tape.rest ≠ []) :
    (scope.afterBody tape).rest ≠ [] := by
  unfold afterBody
  split
  · refine hends.takeIf hleft fun token hlexeme => ?_
    rw [Token.isMark, hlexeme]
    rfl
  · exact hleft

/-- A body that is closed does not pass the last line break. -/
theorem Frame.rest_run (top : Frame) (below : List Frame) (errors : List Diagnostic)
    (hends : tape.EndsLine) (hnode : (run top below errors tape).node.isSome = true) :
    (run top below errors tape).tape.rest ≠ [] := by
  fun_induction run top below errors tape with
  | case1 => cases hnode
  | case2 top errors tape token htoken hmark =>
    have hskip := hends.reaches tape.reaches_skipBreaks
    have hregular := hskip.regular token (List.mem_of_mem_head? htoken)
    have hbrace := hskip.advance htoken
      (hregular.isLineEnd_of_admits (Grammar.admits_mark.trans hmark) (by decide))
    exact top.scope.rest_afterBody (hskip.reaches (Tape.reaches_advance _)) hbrace
  | case3 top errors tape token htoken hmark after next others ih =>
    refine ih (hends.reaches ?_) hnode
    exact tape.reaches_skipBreaks.trans ((Tape.reaches_advance _).trans (reaches_afterBody _ _))
  | case4 top below errors tape token htoken hmark hstatement ih =>
    exact ih (hends.reaches (tape.reaches_skipBreaks.trans (Tape.reaches_skipLine _))) hnode
  | case5 top below errors tape token htoken hmark statement hstatement node after hstart ih =>
    exact ih (hends.reaches (tape.reaches_skipBreaks.trans (Lawful.reaches_of_ok hstart))) hnode
  | case6 top below errors tape token htoken hmark statement hstatement frame after hstart ih =>
    exact ih (hends.reaches (tape.reaches_skipBreaks.trans (Lawful.reaches_of_ok hstart))) hnode
  | case7 => cases hnode
  | case8 top below errors tape token htoken hmark statement hstatement diagnostic after hstart
      hfatal ih =>
    exact ih (hends.reaches (tape.reaches_skipBreaks.trans
      ((Lawful.reaches_of_error hstart).trans (Tape.reaches_skipLine _)))) hnode

end ProtoSchema
