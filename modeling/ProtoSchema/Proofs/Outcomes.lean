import ProtoSchema.Proofs.Language
import ProtoSchema.Proofs.Nesting

/-!
# How reading a statement ends

A statement ends with a node, with the one diagnostic that refuses it, or fatally. A fatal end comes
only where the tokens have run out inside a body or a block comment, and points at the token that
opened the innermost of those that are open; nothing is read after it.

* `Parse.Recoverable`: a parse that does not fail for good; only block comments do.
* `RanOut`: the diagnostic of the innermost construct that was open when the tokens ran out.
* `Statement.ranOut_of_read`: a fatal diagnostic is that one.
* `shaped_read`: the shape of every outcome, and of the diagnostics of a file.
-/

namespace ProtoSchema

namespace Parse

variable {α β : Type}

/-- A sequence fails with its first part, or with its second part after the first. -/
theorem bind_eq_error {parse : Parse α} {next : α → Parse β} {tape after : Tape}
    {diagnostic : Diagnostic} :
    (parse >>= next) tape = .error diagnostic after ↔
      parse tape = .error diagnostic after ∨
        ∃ value middle, parse tape = .ok value middle ∧
          next value middle = .error diagnostic after := by
  rw [bind_apply]
  cases parse tape <;> simp

/-- A parse that does not fail for good. -/
class Recoverable (parse : Parse α) : Prop where
  minor : ∀ {tape after : Tape} {diagnostic : Diagnostic},
    parse tape = .error diagnostic after → diagnostic.isFatal = false

instance (value : α) : Recoverable (pure value : Parse α) where
  minor h := by cases h

instance {parse : Parse α} {next : α → Parse β} [Recoverable parse]
    [∀ value, Recoverable (next value)] : Recoverable (parse >>= next) where
  minor {tape after diagnostic} h := by
    rcases bind_eq_error.1 h with hparse | ⟨value, middle, -, hnext⟩
    · exact Recoverable.minor hparse
    · exact Recoverable.minor hnext

instance (test : Bool) {yes no : Parse α} [Recoverable yes] [Recoverable no] :
    Recoverable (if test then yes else no) := by
  cases test <;> assumption

instance (kept : Bool) (rule : Violation) (token : Token) :
    Recoverable (require kept rule token) where
  minor {tape after diagnostic} h := by
    unfold require at h
    split at h <;> cases h
    rfl

instance (terminal : Terminal) : Recoverable (check terminal) where
  minor {tape after diagnostic} h := by
    unfold check at h
    split at h
    · cases h; rfl
    · split at h <;> cases h
      rfl

instance (terminal : Terminal) : Recoverable (expect terminal) where
  minor {tape after diagnostic} h := by
    unfold expect at h
    split at h
    · cases h
    · rename_i hcheck
      cases h
      exact Recoverable.minor hcheck

instance (test : Token → Bool) : Recoverable (accept? test) where
  minor h := by cases h

instance : Recoverable skipBreaks where
  minor h := by cases h

instance (test : Token → Bool) : Recoverable (takeUntil test) where
  minor h := by cases h

instance : Recoverable anyToken where
  minor {tape after diagnostic} h := by
    unfold anyToken at h
    split at h <;> cases h
    rfl

instance : Recoverable streamWord where
  minor {tape after diagnostic} h := by
    unfold streamWord at h
    split at h
    · split at h <;> cases h
    · cases h

instance (test : Token → Bool) : Recoverable (refuseMixed test) where
  minor {tape after diagnostic} h := by
    unfold refuseMixed at h
    split at h <;> cases h
    rfl

instance (mark : OpenComment) (test : String → Bool) : Recoverable (commentOpener mark test) where
  minor {tape after diagnostic} h := by
    unfold commentOpener at h
    split at h <;> cases h
    rfl

instance {item : Parse α} [Lawful item] [Recoverable item] {close : Punctuation} :
    Recoverable (separated item close) where
  minor {tape after diagnostic} h := by
    fun_induction separated item close tape with
    | case1 tape diagnostic after hitem => cases h; exact Recoverable.minor hitem
    | case2 tape value middle hitem diagnostic after hmark => cases h; exact Recoverable.minor hmark
    | case3 => cases h
    | case4 tape value middle hitem mark after hmark hclose diagnostic later hmore ih =>
      cases h
      exact ih hmore
    | case5 => cases h

instance : Recoverable version := by unfold version; infer_instance

instance : Recoverable importFile := by unfold importFile; infer_instance

instance : Recoverable package := by unfold package; infer_instance

instance : Recoverable extensionName := by unfold extensionName; infer_instance

instance : Recoverable optionName := by unfold optionName; infer_instance

instance : Recoverable optionValue := by unfold optionValue; infer_instance

instance (multiline : Bool) : Recoverable (layout multiline) := by unfold layout; infer_instance

instance (multiline : Bool) : Recoverable (assignment multiline) := by
  unfold assignment; infer_instance

instance : Recoverable option := by unfold option; infer_instance

instance : Recoverable listedOption := by unfold listedOption; infer_instance

instance : Recoverable optionList := by unfold optionList; infer_instance

instance : Recoverable reservedName := by unfold reservedName; infer_instance

instance (domain : NumberDomain) (first stop : Token) :
    Recoverable (requireRangeEnd domain first stop) := by
  unfold requireRangeEnd requireIn; infer_instance

instance (domain : NumberDomain) : Recoverable (reservedRange domain) := by
  unfold reservedRange rangeEnd requireIn; infer_instance

instance (domain : NumberDomain) : Recoverable (reserved domain) := by
  unfold reserved reservations; infer_instance

instance : Recoverable fieldTail := by unfold fieldTail; infer_instance

instance (labelled : Bool) : Recoverable (field labelled) := by
  unfold field fieldLabel; infer_instance

instance : Recoverable map := by unfold map; infer_instance

instance : Recoverable constant := by unfold constant; infer_instance

instance (kind : Node.Kind) (scope : Scope) : Recoverable (header kind scope) := by
  unfold header; infer_instance

instance (kind : Node.Kind) : Recoverable (payload kind) := by unfold payload; infer_instance

instance : Recoverable method := by unfold method signature; infer_instance

instance : Recoverable lineComment := by unfold lineComment; infer_instance

instance (parse : Parse Node) [Recoverable parse] : Recoverable (whole parse) := by
  unfold whole; infer_instance

end Parse

namespace Statement

open Parse

variable {statement : Statement} {tape after : Tape} {diagnostic : Diagnostic}

theorem recoverable_start (h : statement ≠ .comment .block) : Recoverable statement.start := by
  cases statement with
  | comment mark =>
    cases mark with
    | line => unfold start; infer_instance
    | block => exact absurd rfl h
  | _ => unfold start; infer_instance

/-- A block comment fails for good only where nothing behind its opening token closes it. -/
theorem exists_of_fatal (h : start (.comment .block) tape = .error diagnostic after)
    (hfatal : diagnostic.isFatal = true) :
    ∃ opener others, tape.rest = opener :: others ∧
      Lexeme.opensBlockComment opener.lexeme = true ∧
      Lexeme.closesBlockComment opener.lexeme = false ∧
      (∀ token ∈ others, closesComment token = false) ∧
      diagnostic = ⟨.unterminatedComment, opener⟩ := by
  -- only the step that passes the closing token can fail for good
  rcases bind_eq_error.1 h with h | ⟨_, _, -, h⟩
  · rcases bind_eq_error.1 h with h | ⟨opener, middle, hopener, h⟩
    · rw [Recoverable.minor h] at hfatal
      cases hfatal
    · obtain ⟨words, htape, -, hyields⟩ := exists_yields hopener
      obtain ⟨rfl, hopens⟩ := yields_commentOpener.1 hyields
      cases hclosed : Lexeme.closesBlockComment opener.lexeme with
      | true =>
        rw [if_pos hclosed] at h
        cases h
      | false =>
        rw [hclosed, if_neg Bool.false_ne_true] at h
        rcases bind_eq_error.1 h with h | ⟨others, last, hothers, h⟩
        · cases h
        · rcases bind_eq_error.1 h with h | ⟨_, _, -, h⟩
          · obtain ⟨passed, hmiddle, -, hpassed⟩ := exists_yields hothers
            obtain ⟨-, hnone, -⟩ := yields_takeUntil.1 hpassed
            unfold commentCloser at h
            split at h
            · cases h
            · rename_i hpeek
              cases h
              have hrest : middle.rest = passed := by
                rw [congrArg Tape.rest hmiddle, Tape.rest_of_peek?_eq_none hpeek, List.append_nil]
              refine ⟨opener, passed, ?_, hopens, hclosed, hnone, rfl⟩
              rw [congrArg Tape.rest htape, hrest]
              rfl
          · cases h
  · cases h

end Statement

/-! ### The innermost construct -/

/-- The members of a body that are read or refused between two places, none of them fatally. -/
inductive Passes (scope : Scope) : Tape → Tape → Prop
  | here {tape : Tape} : Passes scope tape tape
  | refused {tape later : Tape} {token : Token} (hpeek : tape.skipBreaks.peek? = some token)
      (hclose : token.isMark .closeBrace = false) (hnone : scope.statement? token.lexeme = none)
      (hmore : Passes scope tape.skipBreaks.skipLine later) : Passes scope tape later
  | member {tape later : Tape} {token : Token} {statement : Statement}
      (hpeek : tape.skipBreaks.peek? = some token) (hclose : token.isMark .closeBrace = false)
      (hstatement : scope.statement? token.lexeme = some statement)
      (hminor : Minor (statement.read tape.skipBreaks).errors)
      (hmore : Passes scope (statement.read tape.skipBreaks).tape later) : Passes scope tape later

/-- **The innermost construct that is open when the tokens run out**, and the diagnostic that points
at the token that opened it. A statement is read from a place; the construct is its own body if all
members before the end are complete, the construct inside a member that is not, or a block comment
that nothing closes. -/
inductive RanOut : Statement → Tape → Diagnostic → Prop
  | body {statement : Statement} {tape after last : Tape} {frame : Frame}
      (hopened : statement.start tape = .ok (.opened frame) after)
      (hmembers : Passes frame.scope after last) (hend : last.skipBreaks.rest = []) :
      RanOut statement tape ⟨.unterminatedBody frame.scope, frame.opener⟩
  | member {statement inner : Statement} {tape after last : Tape} {frame : Frame} {token : Token}
      {diagnostic : Diagnostic} (hopened : statement.start tape = .ok (.opened frame) after)
      (hmembers : Passes frame.scope after last) (hpeek : last.skipBreaks.peek? = some token)
      (hclose : token.isMark .closeBrace = false)
      (hstatement : frame.scope.statement? token.lexeme = some inner)
      (hinner : RanOut inner last.skipBreaks diagnostic) : RanOut statement tape diagnostic
  | comment {tape : Tape} {opener : Token} {others : List Token}
      (hrest : tape.rest = opener :: others)
      (hopens : Lexeme.opensBlockComment opener.lexeme = true)
      (hopen : Lexeme.closesBlockComment opener.lexeme = false)
      (hothers : ∀ token ∈ others, Parse.closesComment token = false) :
      RanOut (.comment .block) tape ⟨.unterminatedComment, opener⟩

/-- How the tokens run out in a body: between two members, or inside one. -/
theorem Frame.exists_passes (top : Frame) {errors : List Diagnostic} {diagnostic : Diagnostic}
    (tape : Tape) (herrors : Minor errors) (hmem : diagnostic ∈ (run top [] errors tape).errors)
    (hfatal : diagnostic.isFatal = true) :
    ∃ last, Passes top.scope tape last ∧
      (last.skipBreaks.rest = [] ∧ diagnostic = ⟨.unterminatedBody top.scope, top.opener⟩ ∨
        ∃ token inner, last.skipBreaks.peek? = some token ∧ token.isMark .closeBrace = false ∧
          top.scope.statement? token.lexeme = some inner ∧
          diagnostic ∈ (inner.read last.skipBreaks).errors) := by
  induction hn : tape.remaining using Nat.strongRecOn generalizing top errors tape with
  | ind n ih =>
    subst hn
    have hnot : diagnostic ∉ errors := by
      intro h
      rw [herrors diagnostic h] at hfatal
      cases hfatal
    rw [run_eq_member] at hmem
    cases hpeek : tape.skipBreaks.peek? with
    | none =>
      simp only [hpeek, List.mem_append, hnot, List.mem_singleton, false_or] at hmem
      exact ⟨tape, .here, .inl ⟨Tape.rest_of_peek?_eq_none hpeek, hmem⟩⟩
    | some token =>
      simp only [hpeek] at hmem
      cases hclose : token.isMark .closeBrace with
      | true =>
        rw [hclose, if_pos rfl] at hmem
        exact absurd hmem hnot
      | false =>
        rw [hclose, if_neg Bool.false_ne_true] at hmem
        cases hstatement : top.scope.statement? token.lexeme with
        | none =>
          rw [hstatement] at hmem
          have hminor := minor_append.2 ⟨herrors, top.scope.minor_refusal token⟩
          obtain ⟨last, hpasses, hend⟩ := ih _ (Tape.skipLine_lt hpeek) top _ hminor hmem rfl
          exact ⟨last, .refused hpeek hclose hstatement hpasses, hend⟩
        | some statement =>
          simp only [hstatement, afterMember] at hmem
          split at hmem
          · simp only [List.mem_append, hnot, false_or] at hmem
            exact ⟨tape, .here, .inr ⟨token, statement, hpeek, hclose, hstatement, hmem⟩⟩
          · rename_i hmember
            have hread : Minor (statement.read tape.skipBreaks).errors :=
              Outcome.isFatal_eq_false.1 (by simpa using hmember)
            have hlt := statement.read_shorter (Tape.remaining_pos_of_peek? hpeek)
            have hskip := tape.skipBreaks_remaining_le
            obtain ⟨last, hpasses, hend⟩ := ih _ (by omega) (top.extend _) _
              (minor_append.2 ⟨herrors, hread⟩) hmem rfl
            exact ⟨last, .member hpeek hclose hstatement hread hpasses, hend⟩

theorem Passes.reaches {scope : Scope} {tape last : Tape} (h : Passes scope tape last) :
    tape.Reaches last := by
  induction h with
  | here => exact .refl _
  | refused _ _ _ _ ih =>
    exact (Tape.reaches_skipBreaks _).trans ((Tape.reaches_skipLine _).trans ih)
  | member _ _ _ _ _ ih =>
    exact (Tape.reaches_skipBreaks _).trans ((Tree.reaches_read _ _).trans ih)

namespace Statement

open Parse

variable {statement : Statement} {tape after : Tape} {frame : Frame} {diagnostic : Diagnostic}

/-- **A fatal diagnostic points at the innermost construct** that was open when the tokens ran
out. -/
theorem ranOut_of_read (hmem : diagnostic ∈ (statement.read tape).errors)
    (hfatal : diagnostic.isFatal = true) : RanOut statement tape diagnostic := by
  induction hn : tape.remaining using Nat.strongRecOn generalizing statement tape with
  | ind n ih =>
    subst hn
    unfold read at hmem
    cases hstart : statement.start tape with
    | error fault after =>
      rw [hstart, List.mem_singleton] at hmem
      subst hmem
      by_cases hblock : statement = .comment .block
      · subst hblock
        obtain ⟨opener, others, hrest, hopens, hopen, hothers, rfl⟩ :=
          exists_of_fatal hstart hfatal
        exact .comment hrest hopens hopen hothers
      · have hrecover := recoverable_start hblock
        rw [Recoverable.minor hstart] at hfatal
        cases hfatal
    | ok reading after =>
      cases reading with
      | whole node => simp [hstart] at hmem
      | opened frame =>
        simp only [hstart] at hmem
        obtain ⟨last, hpasses, ⟨hend, rfl⟩ | ⟨token, inner, hpeek, hclose, hinner, hmember⟩⟩ :=
          frame.exists_passes after minor_nil hmem hfatal
        · exact .body hstart hpasses hend
        · have hlt := Consumes.shorter hstart
          have hle := hpasses.reaches.remaining_le
          have hskip := last.skipBreaks_remaining_le
          exact .member hstart hpasses hpeek hclose hinner (ih _ (by omega) hmember rfl)

/-- A body is opened by a brace. -/
theorem opener_of_start (h : statement.start tape = .ok (.opened frame) after) :
    frame.opener ∈ tape.rest ∧ frame.opener.isMark .openBrace = true := by
  obtain ⟨words, htape, -, hyields⟩ := exists_yields h
  suffices hopener : frame.opener ∈ words ∧ frame.opener.isMark .openBrace = true by
    rw [congrArg Tape.rest htape, List.mem_append]
    exact ⟨.inl hopener.1, hopener.2⟩
  cases statement with
  | message | oneof | enum | service =>
    obtain ⟨keyword, name, opener, rfl, hspells, hreading⟩ := Grammar.header_of_yields hyields
    cases hreading
    simp only [Grammar.spells_cons, Grammar.admits_mark] at hspells
    exact ⟨by simp, hspells.2.1⟩
  | method =>
    obtain ⟨node, hreading, -⟩ | ⟨_, hreading, hopening⟩ := Grammar.method_of_yields hyields
    · cases hreading
    · cases hreading
      cases hopening with
      | named hblock _ => cases hblock
      | method _ hopener => exact ⟨by simp, by simpa using hopener⟩
  | comment mark =>
    cases mark <;> obtain ⟨node, hreading, -⟩ := Grammar.whole_of_yields hyields <;> cases hreading
  | _ =>
    obtain ⟨node, hreading, -⟩ := Grammar.whole_of_yields hyields
    cases hreading

end Statement

theorem Tape.mem_rest_of_reaches {tape after : Tape} {token : Token} (h : tape.Reaches after)
    (hmem : token ∈ after.rest) : token ∈ tape.rest := by
  obtain ⟨passed, hrest, -⟩ := h
  rw [hrest]
  exact List.mem_append_right passed hmem

/-- The token that a fatal diagnostic points at opens a body or a block comment. -/
theorem RanOut.opener {statement : Statement} {tape : Tape} {diagnostic : Diagnostic}
    (h : RanOut statement tape diagnostic) :
    diagnostic.token ∈ tape.rest ∧ (diagnostic.token.isMark .openBrace = true ∨
      Lexeme.opensBlockComment diagnostic.token.lexeme = true) := by
  induction h with
  | body hopened _ _ =>
    have hopener := Statement.opener_of_start hopened
    exact ⟨hopener.1, .inl hopener.2⟩
  | member hopened hmembers _ _ _ _ ih =>
    have hreach := (Parse.Lawful.reaches_of_ok hopened).trans
      (hmembers.reaches.trans (Tape.reaches_skipBreaks _))
    exact ⟨Tape.mem_rest_of_reaches hreach ih.1, ih.2⟩
  | comment hrest hopens _ _ =>
    rw [hrest]
    exact ⟨List.mem_cons_self, .inr hopens⟩

/-! ### The shape of outcomes -/

/-- Whether a statement may have a body. -/
def Statement.hasBody : Statement → Bool
  | message | oneof | enum | service | method => true
  | _ => false

/-- **The shape of what reading a statement from a place leads to.** -/
structure Outcome.Shaped (statement : Statement) (tape : Tape) (outcome : Outcome) : Prop where
  /-- Of the diagnostics only the last one may be fatal. -/
  fatal_last : Minor outcome.errors.dropLast
  /-- After a fatal one there is no node and no token, and it points at the opening token of the
  innermost construct that was open when the tokens ran out. -/
  fatal_end : ∀ diagnostic ∈ outcome.errors, diagnostic.isFatal = true →
    outcome.node = none ∧ outcome.tape.rest = [] ∧ RanOut statement tape diagnostic ∧
      diagnostic.token ∈ tape.rest ∧ (diagnostic.token.isMark .openBrace = true ∨
        Lexeme.opensBlockComment diagnostic.token.lexeme = true)
  /-- A statement that gives no node and does not end fatally has exactly one diagnostic. -/
  refused : outcome.isFatal = false → outcome.node = none →
    ∃ diagnostic, outcome.errors = [diagnostic] ∧ diagnostic.isFatal = false
  /-- Where there is no node there is a diagnostic. -/
  answered : outcome.node = none → outcome.errors ≠ []
  /-- A statement without a body gives either a node or one diagnostic. -/
  whole : statement.hasBody = false →
    (∃ node, outcome.node = some node ∧ outcome.errors = []) ∨
      outcome.node = none ∧ ∃ diagnostic, outcome.errors = [diagnostic]

namespace Statement

variable {statement : Statement} {tape : Tape}

/-- A statement ends like a body, or it is refused with one diagnostic. -/
theorem settled_read (statement : Statement) (tape : Tape) :
    (statement.read tape).Settled ∨
      ∃ diagnostic after, statement.read tape = ⟨none, [diagnostic], after⟩ ∧
        diagnostic.isFatal = false := by
  unfold read
  cases hstart : statement.start tape with
  | error diagnostic after =>
    cases hfatal : diagnostic.isFatal with
    | false => exact .inr ⟨diagnostic, diagnostic.resume after, rfl, hfatal⟩
    | true =>
      have hrest := Parse.Lawful.rest_of_fatal hstart hfatal
      have hresume : diagnostic.resume after = after := by simp [Diagnostic.resume, hfatal]
      refine .inl ?_
      simp only [hresume]
      exact @Outcome.Settled.cut [] diagnostic after minor_nil hfatal hrest
  | ok reading after =>
    refine .inl ?_
    cases reading with
    | whole node => exact .closed minor_nil
    | opened frame => exact frame.settled_run [] [] after minor_nil

/-- A statement without a body is read in one step. -/
theorem whole_of_hasBody (h : statement.hasBody = false) :
    (∃ node, (statement.read tape).node = some node ∧ (statement.read tape).errors = []) ∨
      (statement.read tape).node = none ∧
        ∃ diagnostic, (statement.read tape).errors = [diagnostic] := by
  unfold read
  cases hstart : statement.start tape with
  | error diagnostic after => exact .inr ⟨rfl, diagnostic, rfl⟩
  | ok reading after =>
    cases reading with
    | whole node => exact .inl ⟨node, rfl, rfl⟩
    | opened frame =>
      obtain ⟨words, -, -, hyields⟩ := Parse.exists_yields hstart
      cases statement with
      | message | oneof | enum | service | method => cases h
      | comment mark =>
        cases mark <;> obtain ⟨node, hreading, -⟩ := Grammar.whole_of_yields hyields <;>
          cases hreading
      | _ =>
        obtain ⟨node, hreading, -⟩ := Grammar.whole_of_yields hyields
        cases hreading

end Statement

/-- A settled outcome is shaped, if its fatal diagnostic is the one of the innermost construct. -/
theorem Outcome.Settled.shaped {statement : Statement} {tape : Tape} {outcome : Outcome}
    (h : outcome.Settled)
    (hranOut : ∀ diagnostic ∈ outcome.errors, diagnostic.isFatal = true →
      RanOut statement tape diagnostic)
    (hwhole : statement.hasBody = false →
      (∃ node, outcome.node = some node ∧ outcome.errors = []) ∨
        outcome.node = none ∧ ∃ diagnostic, outcome.errors = [diagnostic]) :
    outcome.Shaped statement tape := by
  cases h with
  | @closed node errors after herrors =>
    refine ⟨?_, ?_, ?_, ?_, hwhole⟩
    · exact fun diagnostic hmem => herrors diagnostic ((List.dropLast_sublist _).subset hmem)
    · intro diagnostic hmem hfatal
      rw [herrors diagnostic hmem] at hfatal
      cases hfatal
    · intro _ hnode
      cases hnode
    · intro hnode
      cases hnode
  | @cut errors last after herrors hlast hrest =>
    refine ⟨by simpa using herrors, ?_, ?_, by simp, hwhole⟩
    · intro diagnostic hmem hfatal
      have hran := hranOut diagnostic hmem hfatal
      exact ⟨rfl, hrest, hran, hran.opener⟩
    · intro hminor
      rw [isFatal_eq_false, minor_append, minor_singleton, hlast] at hminor
      cases hminor.2

/-- Reading a statement gives an outcome of the right shape. -/
theorem Statement.shaped (statement : Statement) (tape : Tape) :
    (statement.read tape).Shaped statement tape := by
  rcases settled_read statement tape with hsettled | ⟨diagnostic, after, hread, hminor⟩
  · exact hsettled.shaped (fun _ => ranOut_of_read) whole_of_hasBody
  · rw [hread]
    refine ⟨minor_nil, ?_, fun _ _ => ⟨diagnostic, rfl, hminor⟩, by simp,
      fun _ => .inr ⟨rfl, diagnostic, rfl⟩⟩
    intro fault hmem hfatal
    rw [List.mem_singleton.1 hmem, hminor] at hfatal
    cases hfatal

namespace Tree

/-- Nothing is read where no token is left. -/
theorem readFrom_of_end {tree : Tree} {tape : Tape} (h : tape.rest = []) :
    readFrom tree tape = (tree, tape) := by
  obtain ⟨seen, rest⟩ := tape
  obtain rfl : rest = [] := h
  rw [readFrom_eq]
  rfl

theorem minor_report {tree : Tree} {problem : Problem} {token : Token} (h : Minor tree.errors)
    (hproblem : Minor [⟨problem, token⟩]) : Minor (tree.report problem token).errors :=
  minor_append.2 ⟨h, hproblem⟩

/-- **Of the diagnostics of a file only the last one may be fatal.** -/
theorem minor_readFrom (tree : Tree) (tape : Tape) (h : Minor tree.errors) :
    Minor (readFrom tree tape).1.errors.dropLast := by
  fun_induction readFrom tree tape with
  | case1 tree tape htoken =>
    exact fun diagnostic hmem => h diagnostic ((List.dropLast_sublist _).subset hmem)
  | case2 tree tape token htoken hword statement hstatement outcome ih =>
    have hshaped := statement.shaped tape.skipBreaks
    cases hfatal : outcome.isFatal with
    | false => exact ih (minor_append.2 ⟨h, Outcome.isFatal_eq_false.1 hfatal⟩)
    | true =>
      -- the tokens have run out, so that the outcome is the last one
      obtain ⟨diagnostic, hmem, hdiagnostic⟩ := List.any_eq_true.1 hfatal
      have hrest := (hshaped.fatal_end diagnostic hmem hdiagnostic).2.1
      have hne : outcome.errors ≠ [] := List.ne_nil_of_mem hmem
      rw [readFrom_of_end hrest, add, List.dropLast_append_of_ne_nil hne, minor_append]
      exact ⟨h, hshaped.fatal_last⟩
  | case3 tree tape token htoken hword hstatement ih =>
    exact ih (minor_report h (Scope.minor_refusal .file token))
  | case4 tree tape token htoken hword ih => exact ih (minor_report h (minor_singleton.2 rfl))

/-- After a statement that ends fatally the file is at its end. -/
theorem readFrom_of_fatal {tree : Tree} {tape : Tape} {token : Token} {statement : Statement}
    (hpeek : tape.skipBreaks.peek? = some token) (hword : token.isWord = true)
    (hstatement : Scope.file.statement? token.lexeme = some statement)
    (hfatal : (statement.read tape.skipBreaks).isFatal = true) :
    readFrom tree tape =
      (tree.add (statement.read tape.skipBreaks), (statement.read tape.skipBreaks).tape) := by
  obtain ⟨diagnostic, hmem, hdiagnostic⟩ := List.any_eq_true.1 hfatal
  have hrest := ((statement.shaped tape.skipBreaks).fatal_end diagnostic hmem hdiagnostic).2.1
  rw [readFrom_eq]
  simp only [hpeek, hword, if_true, hstatement]
  exact readFrom_of_end hrest

end Tree

/-- **The shape of every outcome.** Whatever the tokens, a statement read from any place leads to a
shaped outcome. So a file has at most one fatal diagnostic, it is the last one, and reading ends
with the statement that gave it. -/
theorem shaped_read :
    (∀ (statement : Statement) (tape : Tape), (statement.read tape).Shaped statement tape) ∧
      (∀ tokens : List Token, Minor (Tree.ofTokens tokens).errors.dropLast) ∧
      ∀ (tree : Tree) (tape : Tape) (token : Token) (statement : Statement),
        tape.skipBreaks.peek? = some token → token.isWord = true →
        Scope.file.statement? token.lexeme = some statement →
        (statement.read tape.skipBreaks).isFatal = true →
        Tree.readFrom tree tape =
          (tree.add (statement.read tape.skipBreaks), (statement.read tape.skipBreaks).tape) := by
  refine ⟨Statement.shaped, ?_, ?_⟩
  · intro tokens
    exact Tree.minor_readFrom {} (.ofTokens tokens) minor_nil
  · intro tree tape token statement hpeek hword hstatement hfatal
    exact Tree.readFrom_of_fatal hpeek hword hstatement hfatal

/-- An enum that is never closed, inside a message and after a member that is refused. -/
def unclosedEnum : List Token := tokenize "message A \x7b\nbad;\nenum B \x7b\nC = 0;"

/-- The message has two diagnostics: the second is fatal and points at the brace of the enum. So
reading a file ends with the message. -/
theorem shaped_read_unclosedEnum :
    ∃ refusal diagnostic, (Statement.read .message (.ofTokens unclosedEnum)).errors =
        [refusal, diagnostic] ∧
      diagnostic.isFatal = true ∧ diagnostic.token = ⟨.punctuation, ⟨3, 8⟩, "\x7b"⟩ ∧
      RanOut .message (.ofTokens unclosedEnum) diagnostic ∧
      Tree.readFrom {} (.ofTokens unclosedEnum) =
        (Tree.add {} (Statement.read .message (.ofTokens unclosedEnum)),
         (Statement.read .message (.ofTokens unclosedEnum)).tape) := by
  have hread : (Statement.read .message (.ofTokens unclosedEnum)).errors =
      [⟨.unexpected .fieldName, ⟨.punctuation, ⟨2, 4⟩, ";"⟩⟩,
       ⟨.unterminatedBody .enum, ⟨.punctuation, ⟨3, 8⟩, "\x7b"⟩⟩] := by decide +kernel
  refine ⟨_, _, hread, rfl, rfl, ?_, ?_⟩
  · refine ((shaped_read.1 .message (.ofTokens unclosedEnum)).fatal_end _ ?_ rfl).2.2.1
    rw [hread]
    simp
  · have hskip : (Tape.ofTokens unclosedEnum).skipBreaks = .ofTokens unclosedEnum := by
      decide +kernel
    have hlast := shaped_read.2.2 {} (.ofTokens unclosedEnum) ⟨.keyword, ⟨1, 1⟩, "message"⟩
      .message (by decide +kernel) (by decide +kernel) (by decide +kernel) (by decide +kernel)
    rwa [hskip] at hlast

end ProtoSchema
