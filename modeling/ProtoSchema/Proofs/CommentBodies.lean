import ProtoSchema.Proofs.CommentTokens
import ProtoSchema.Proofs.Layout
import ProtoSchema.Proofs.Outcomes

/-!
# What stands in a comment

Two texts that differ in the body of one comment are read alike up to the mark that opens it, since
no statement but a comment passes that mark. If a comment is read there, it is passed whatever its
body is. If the mark stands inside a statement, that statement is refused and the rest of the line
is passed: what the body has on its further lines is then read as statements.

* `Tape.Ahead`: a tape that ends with the opening mark, and one that goes on behind it.
* `Place.leaves_of_steps`: up to the mark, and over the comment or its first line.
* `SeesComment`: whether the mark is read as that of a comment.
* `sameReading_commented`: the body of a comment that is seen, or that stays on its line, means
  nothing.
-/

namespace ProtoSchema

open Parse

variable {opener token : Token} {more rest : List Token} {tape tape' after : Tape}

/-! ### Tapes that end with the mark -/

/-- The tokens to come end with a token. -/
structure Tape.LeadsTo (opener : Token) (tape : Tape) : Prop where
  regular : ∀ token ∈ tape.rest, token.Regular
  last : tape.rest.getLast? = some opener

/-- The first tape ends with a token, and the second one goes on behind it. -/
structure Tape.Ahead (opener : Token) (more : List Token) (tape tape' : Tape) : Prop
    extends Tape.LeadsTo opener tape where
  rest : tape'.rest = tape.rest ++ more

/-- The second tape goes on where the first one does, or, where the first one is at its end, behind
the line on which it ends. -/
structure Tape.Follows (opener : Token) (more : List Token) (tape tape' : Tape) : Prop where
  before : tape.skipBreaks.rest ≠ [] → tape.skipBreaks.Ahead opener more tape'.skipBreaks
  behind : tape.skipBreaks.rest = [] →
    tape'.skipBreaks.rest = (more.dropWhile (!·.isLineEnd)).dropWhile Token.isLineEnd

namespace Tape

/-- What is left of tokens ends as they do. -/
theorem Reaches.getLast?_eq (h : tape.Reaches after) (hleft : after.rest ≠ []) :
    after.rest.getLast? = tape.rest.getLast? := by
  obtain ⟨passed, hrest, -⟩ := h
  rw [hrest, List.getLast?_append]
  cases hlast : after.rest.getLast? with
  | none => exact absurd (List.getLast?_eq_none_iff.1 hlast) hleft
  | some token => rfl

theorem rest_skipWhile (tape : Tape) (test : Token → Bool) :
    (tape.skipWhile test).rest = tape.rest.dropWhile test := rfl

/-- A run that takes all tokens goes on with those behind them. -/
theorem rest_skipWhile_of_nil {test : Token → Bool} (h : tape'.rest = tape.rest ++ more)
    (hnil : (tape.skipWhile test).rest = []) :
    (tape'.skipWhile test).rest = more.dropWhile test := by
  rw [rest_skipWhile] at hnil ⊢
  rw [h, List.dropWhile_append, hnil]
  rfl

namespace LeadsTo

theorem reaches (h : tape.LeadsTo opener) (hreach : tape.Reaches after)
    (hleft : after.rest ≠ []) : after.LeadsTo opener :=
  ⟨Frame.regular_of_reaches hreach h.regular, by rw [hreach.getLast?_eq hleft, h.last]⟩

theorem ne_nil (h : tape.LeadsTo opener) : tape.rest ≠ [] := by
  intro hnil
  have hlast := h.last
  rw [hnil] at hlast
  cases hlast

theorem exists_peek? (h : tape.LeadsTo opener) :
    ∃ token, tape.peek? = some token ∧ token.Regular := by
  obtain ⟨token, rest, hrest⟩ := List.exists_cons_of_ne_nil h.ne_nil
  refine ⟨token, by rw [peek?, hrest]; rfl, h.regular token ?_⟩
  rw [hrest]
  exact List.mem_cons_self

/-- The opening mark is no line break. -/
theorem isLineEnd_opener (h : tape.LeadsTo opener) (hopener : opener.lexeme = "/*") :
    opener.isLineEnd = false := by
  rw [← Bool.not_eq_true]
  intro hend
  have hlexeme := (h.regular opener (List.mem_of_getLast? h.last)).lexeme_of_isLineEnd hend
  rw [hopener] at hlexeme
  exact absurd hlexeme (by decide)

theorem skipBreaks (h : tape.LeadsTo opener) (hopener : opener.lexeme = "/*") :
    tape.skipBreaks.LeadsTo opener := by
  refine h.reaches tape.reaches_skipBreaks fun hnil => ?_
  have hpass := List.dropWhile_eq_nil_iff.1 hnil opener (List.mem_of_getLast? h.last)
  rw [h.isLineEnd_opener hopener] at hpass
  cases hpass

end LeadsTo

namespace Ahead

theorem reaches (h : tape.Ahead opener more tape') (hreach : tape.Reaches after)
    (hleft : after.rest ≠ []) {after' : Tape} (hrest : after'.rest = after.rest ++ more) :
    after.Ahead opener more after' :=
  ⟨h.toLeadsTo.reaches hreach hleft, hrest⟩

theorem peek?_eq (h : tape.Ahead opener more tape') : tape'.peek? = tape.peek? := by
  obtain ⟨token, rest, hrest⟩ := List.exists_cons_of_ne_nil h.toLeadsTo.ne_nil
  rw [peek?, peek?, h.rest, hrest]
  rfl

theorem nearest_eq (h : tape.Ahead opener more tape') : tape'.nearest = tape.nearest := by
  obtain ⟨token, rest, hrest⟩ := List.exists_cons_of_ne_nil h.toLeadsTo.ne_nil
  have hpeek : tape.peek? = some token := by rw [peek?, hrest]; rfl
  rw [nearest, nearest, h.peek?_eq, hpeek]
  rfl

/-- A token other than the opening mark is not the last one. -/
theorem ne_nil_advance (h : tape.Ahead opener more tape') (hpeek : tape.peek? = some token)
    (hne : token ≠ opener) : tape.advance.rest ≠ [] := by
  intro hnil
  have hlast := h.last
  rw [Frame.rest_of_peek? hpeek, hnil] at hlast
  exact hne (Option.some.inj hlast)

theorem rest_advance (h : tape.Ahead opener more tape') :
    tape'.advance.rest = tape.advance.rest ++ more := by
  obtain ⟨token, rest, hrest⟩ := List.exists_cons_of_ne_nil h.toLeadsTo.ne_nil
  rw [Tape.advance, Tape.advance, h.rest, hrest]
  rfl

/-- A token is passed on both tapes, unless it is the last one. -/
theorem advance (h : tape.Ahead opener more tape') (hleft : tape.advance.rest ≠ []) :
    tape.advance.Ahead opener more tape'.advance :=
  h.reaches tape.reaches_advance hleft h.rest_advance

/-- A run of tokens is passed on both tapes, and goes on behind the first if it takes all of it. -/
theorem skipWhile_cases (h : tape.Ahead opener more tape') (test : Token → Bool) :
    (tape.skipWhile test).Ahead opener more (tape'.skipWhile test) ∨
      (tape.skipWhile test).rest = [] ∧ (tape'.skipWhile test).rest = more.dropWhile test := by
  by_cases hnil : (tape.skipWhile test).rest = []
  · exact .inr ⟨hnil, rest_skipWhile_of_nil h.rest hnil⟩
  · refine .inl (h.reaches (tape.reaches_skipWhile test) hnil ?_)
    rw [rest_skipWhile] at hnil
    rw [rest_skipWhile, rest_skipWhile, h.rest, List.dropWhile_append,
      if_neg (mt List.isEmpty_iff.1 hnil)]

theorem skipBreaks (h : tape.Ahead opener more tape') (hopener : opener.lexeme = "/*") :
    tape.skipBreaks.Ahead opener more tape'.skipBreaks := by
  rcases h.skipWhile_cases Token.isLineEnd with hskip | ⟨hnil, -⟩
  · exact hskip
  · exact absurd hnil (h.toLeadsTo.skipBreaks hopener).ne_nil

/-- Where the tapes correspond, the second one follows the first. -/
theorem follows (h : tape.Ahead opener more tape') (hopener : opener.lexeme = "/*") :
    tape.Follows opener more tape' :=
  ⟨fun _ => h.skipBreaks hopener, fun hnil => absurd hnil (h.skipBreaks hopener).toLeadsTo.ne_nil⟩

/-- So it does at the end of the line, which for the first one may be where it ends. -/
theorem follows_line (h : tape.Ahead opener more tape') (hopener : opener.lexeme = "/*") :
    (tape.skipWhile (!·.isLineEnd)).Follows opener more (tape'.skipWhile (!·.isLineEnd)) := by
  rcases h.skipWhile_cases (!·.isLineEnd) with hskip | ⟨hnil, hrest⟩
  · exact hskip.follows hopener
  · refine ⟨fun hleft => absurd ?_ hleft, fun _ => ?_⟩
    · rw [Tape.skipBreaks, Tape.skipWhile, hnil]
      rfl
    · rw [Tape.skipBreaks, Tape.skipWhile, hrest]

end Ahead

end Tape

/-- Tapes that correspond up to the opening mark are coupled. -/
def Coupling.ahead (opener : Token) (more : List Token) (hopener : opener.lexeme = "/*") :
    Coupling where
  rel := Tape.Ahead opener more
  twin := Eq
  opened := Tape.Ahead opener more
  passes token := token ≠ opener
  kept _ := True
  kept_of_reaches _ _ := trivial
  twin_eq := @Token.exists_position
  peek {tape tape'} h := by
    rw [h.peek?_eq]
    cases tape.peek? with
    | none => exact .none
    | some token => exact .some rfl
  nearest h := h.nearest_eq.symm
  advance h hpeek hpasses _ := h.advance (h.ne_nil_advance hpeek hpasses)
  opens h hpeek hbrace _ := by
    refine h.advance (h.ne_nil_advance hpeek ?_)
    rintro rfl
    rw [Token.isMark, hopener] at hbrace
    exact absurd hbrace (by decide)
  skipBreaks h _ := h.skipBreaks hopener
  stream _ _ _ := trivial
  passes_of_inner {tape tape' token} h hpeek hinner := by
    rintro rfl
    have hcomment := (hinner (h.regular token (List.mem_of_head? hpeek))).comment
    rw [Token.inComment, h.toLeadsTo.isLineEnd_opener hopener, hopener] at hcomment
    exact absurd hcomment (by decide)

theorem Tape.follows_of_resumes {hopener : opener.lexeme = "/*"}
    (h : (Coupling.ahead opener more hopener).Resumes tape tape') :
    tape.Follows opener more tape' := by
  cases h with
  | rel h => exact Tape.Ahead.follows h hopener
  | opened h => exact Tape.Ahead.follows h hopener
  | line h =>
    have hline := Tape.Ahead.follows_line h hopener
    refine ⟨?_, ?_⟩
    · rw [Tape.skipBreaks_skipLine, Tape.skipBreaks_skipLine]
      exact hline.before
    · rw [Tape.skipBreaks_skipLine, Tape.skipBreaks_skipLine]
      exact hline.behind

/-! ### Comments before the mark, and the one it opens -/

/-- A comment that ends before the mark, or on the line of it, ends on both tapes. -/
theorem Tape.Ahead.afterComment? {mark : OpenComment} (h : tape.Ahead opener more tape')
    (hopener : opener.lexeme = "/*") (hpeek : tape.peek? = some token)
    (hopens : mark.opens token.lexeme = true)
    (hafter : tape.afterComment? token mark = some after) :
    ∃ after', tape'.afterComment? token mark = some after' ∧ after.Follows opener more after' := by
  have hadvance : token ≠ opener → tape.advance.Ahead opener more tape'.advance :=
    fun hne => h.advance (h.ne_nil_advance hpeek hne)
  cases mark with
  | line =>
    have hne : token ≠ opener := by
      rintro rfl
      rw [OpenComment.opens, hopener] at hopens
      exact absurd hopens (by decide)
    cases hafter
    exact ⟨_, rfl, (hadvance hne).follows_line hopener⟩
  | block =>
    unfold Tape.afterComment? at hafter ⊢
    by_cases hcloses : Lexeme.closesBlockComment token.lexeme = true
    · have hne : token ≠ opener := by
        rintro rfl
        rw [hopener] at hcloses
        exact absurd hcloses (by decide)
      rw [if_pos hcloses] at hafter ⊢
      cases hafter
      exact ⟨_, rfl, (hadvance hne).follows hopener⟩
    · -- the word that closes the comment stands before the mark, which closes none
      rw [if_neg hcloses] at hafter ⊢
      obtain ⟨closer, hcloser, rfl⟩ := Option.map_eq_some_iff.1 hafter
      have hleft : tape.advance.rest ≠ [] :=
        (Tape.reaches_skipWhile _ _).ne_nil (Tape.ne_nil_of_peek? hcloser)
      have hcloses : closesComment closer = true := by
        have hnext := next_dropWhile (!closesComment ·) tape.advance.rest closer hcloser
        simpa using hnext
      have hne : closer ≠ opener := by
        rintro rfl
        rw [closesComment, hopener, Bool.and_eq_true] at hcloses
        exact absurd hcloses.2 (by decide)
      rcases (h.advance hleft).skipWhile_cases (!closesComment ·) with hskip | ⟨hnil, -⟩
      · refine ⟨_, ?_, (hskip.advance (hskip.ne_nil_advance hcloser hne)).follows hopener⟩
        simp only [hskip.peek?_eq, hcloser, Option.map_some]
      · exact absurd hnil (Tape.ne_nil_of_peek? hcloser)

/-- **A comment that does not end before the mark ends where the body does.** -/
theorem Tape.Ahead.afterComment?_of_none {closer : Token} (h : tape.Ahead opener more tape')
    (hafter : tape.afterComment? token .block = none)
    (hcloses : more.dropWhile (!closesComment ·) = closer :: rest) :
    ∃ after', tape'.afterComment? token .block = some after' ∧ after'.rest = rest := by
  unfold Tape.afterComment? at hafter ⊢
  by_cases hsingle : Lexeme.closesBlockComment token.lexeme = true
  · rw [if_pos hsingle] at hafter
    cases hafter
  · rw [if_neg hsingle] at hafter ⊢
    have hnil : (tape.advance.skipWhile (!closesComment ·)).rest = [] :=
      Tape.rest_of_peek?_eq_none (Option.map_eq_none_iff.1 hafter)
    have hrest := Tape.rest_skipWhile_of_nil h.rest_advance hnil
    rw [hcloses] at hrest
    have hpeek : (tape'.advance.skipWhile (!closesComment ·)).peek? = some closer := by
      rw [Tape.peek?, hrest]
      rfl
    refine ⟨_, by simp only [hpeek, Option.map_some]; rfl, ?_⟩
    rw [Tape.advance, hrest]

/-! ### Places -/

namespace Place

variable {place place' next last : Place} {statement : Statement}

/-- No comment has been found that does not end. -/
def Finished (place : Place) : Prop :=
  ∀ diagnostic ∈ place.tree.errors, diagnostic.problem ≠ .unterminatedComment

namespace Finished

theorem add (h : place.Finished) (node : Node) (tape : Tape) : (place.add node tape).Finished := by
  unfold Place.add
  split <;> exact h

theorem report {problem : Problem} (h : place.Finished) (hproblem : problem ≠ .unterminatedComment)
    (blocks : List Frame) (token : Token) (tape : Tape) :
    Finished ⟨blocks, place.tree.report problem token, tape⟩ := by
  intro diagnostic hmem
  rcases List.mem_append.1 hmem with hmem | hmem
  · exact h diagnostic hmem
  · rw [List.mem_singleton.1 hmem]
    exact hproblem

theorem follow (h : place.Finished) (hstatement : statement ≠ .comment .block) (tape : Tape) :
    (place.follow (statement.start tape)).Finished := by
  cases hstart : statement.start tape with
  | ok reading after =>
    cases reading with
    | whole node => exact h.add node after
    | opened frame => exact h
  | error diagnostic after =>
    have hminor := (Statement.recoverable_start hstatement).minor hstart
    have hproblem : diagnostic.problem ≠ .unterminatedComment := by
      intro hproblem
      rw [Diagnostic.isFatal, hproblem] at hminor
      cases hminor
    simp only [Place.follow, hminor, Bool.false_eq_true, if_false]
    exact h.report hproblem _ _ _

theorem dispatch (h : place.Finished)
    (hstatement : place.scope.statement? token.lexeme ≠ some (.comment .block)) (tape : Tape) :
    (place.dispatch token tape).Finished := by
  cases hsome : place.scope.statement? token.lexeme with
  | none =>
    rw [dispatch_of_none hsome]
    exact h.report (by cases place.scope <;> exact Problem.noConfusion) _ _ _
  | some statement =>
    rw [dispatch_of_some hsome]
    exact h.follow (fun hblock => hstatement (hblock ▸ hsome)) tape

/-- Only a block comment can leave a comment open. -/
theorem proceed (h : place.Finished)
    (hstatement : place.scope.statement? token.lexeme ≠ some (.comment .block)) (tape : Tape) :
    (place.proceed token tape).Finished := by
  have hdispatch := h.dispatch hstatement tape
  unfold Place.proceed
  split
  · split
    · exact hdispatch
    · exact h.report Problem.noConfusion _ _ _
  · split
    · exact add (by exact h) _ _
    · exact hdispatch

/-- Where no token is left no comment is found. -/
theorem steps (h : place.Finished) (hrest : place.tape.skipBreaks.rest = [])
    (hsteps : place.Steps last) : last.Finished := by
  suffices hboth : last.Finished ∧ last.tape.skipBreaks.rest = [] from hboth.1
  induction hsteps with
  | refl => exact ⟨h, hrest⟩
  | tail _ hstep ih =>
    obtain ⟨hfinished, hnil⟩ := ih
    unfold Place.step at hstep
    rw [show Tape.peek? _ = none from congrArg List.head? hnil] at hstep
    split at hstep
    · contradiction
    · cases hstep
    · cases hstep
      refine ⟨hfinished.report Problem.noConfusion _ _ _, ?_⟩
      rw [Place.abandon, Tape.skipBreaks, Tape.rest_skipWhile, hnil]
      rfl

end Finished

/-- Places that are alike, before tokens that correspond up to the opening mark. -/
structure Ahead (opener : Token) (more : List Token) (place place' : Place) : Prop
    extends Like place place' where
  tape : place.tape.skipBreaks.Ahead opener more place'.tape.skipBreaks

theorem Ahead.step_of_peek? (h : place.Ahead opener more place')
    (hpeek : place.tape.skipBreaks.peek? = some token) :
    place'.step = some (place'.proceed token place'.tape.skipBreaks) :=
  Place.step_of_peek? (by rw [h.tape.peek?_eq, hpeek])

/-- A step over what is no comment, or over one that ends before the mark or on its line, is made in
both readings. -/
def Accompanied (opener : Token) (place next : Place) : Prop :=
  ∀ ⦃more : List Token⦄ ⦃place' : Place⦄, place.Ahead opener more place' →
    ∃ next', place'.step = some next' ∧ next.Like next' ∧ next.tape.Follows opener more next'.tape

/-- Readings that go on behind the mark come to the same place, in front of what follows the end of
something that the mark starts. -/
def Leaves (opener : Token) (ends : List Token → List Token → Prop) (place : Place) : Prop :=
  ∃ middle : Place, ∀ ⦃more rest : List Token⦄ ⦃place' : Place⦄, place.Ahead opener more place' →
    ends more rest → ∃ next', place'.Steps next' ∧ middle.Like next' ∧
      next'.tape.skipBreaks.rest = rest.dropWhile Token.isLineEnd

theorem accompanied_proceed (hopener : opener.lexeme = "/*") (hregular : token.Regular)
    (hpeek : place.tape.skipBreaks.peek? = some token)
    (hcomment : ∀ mark, place.scope.statement? token.lexeme ≠ some (.comment mark)) :
    place.Accompanied opener (place.proceed token place.tape.skipBreaks) := by
  intro more place' h
  have hrel : (Coupling.ahead opener more hopener).rel place.tape.skipBreaks
      place'.tape.skipBreaks := h.tape
  have hcloser : token.isMark .closeBrace = true → token ≠ opener := by
    rintro hmark rfl
    rw [Token.isMark, hopener] at hmark
    exact absurd hmark (by decide)
  obtain ⟨hlike, hresumes⟩ := h.toLike.proceed (fun _ => trivial) hrel hregular hpeek hcloser rfl
    hcomment
  exact ⟨_, h.step_of_peek? hpeek, hlike, Tape.follows_of_resumes hresumes⟩

/-- A reading that finds the end of a comment passes it. -/
theorem Ahead.exists_add {mark : OpenComment} {after' : Tape} (h : place.Ahead opener more place')
    (hregular : token.Regular) (hpeek : place.tape.skipBreaks.peek? = some token)
    (hstatement : place.scope.statement? token.lexeme = some (.comment mark))
    (hafter : place'.tape.skipBreaks.afterComment? token mark = some after') :
    ∃ node, node.kind = Node.Kind.comment ∧ place'.step = some (place'.add node after') := by
  rw [h.step_of_peek? hpeek]
  rw [← h.toLike.scope] at hstatement
  rw [← h.tape.peek?_eq] at hpeek
  rcases proceed_comment hregular hpeek hstatement with
    ⟨after, node, hsome, hkind, hnext⟩ | ⟨hnone, -⟩
  · rw [hafter] at hsome
    cases hsome
    exact ⟨node, hkind, by rw [hnext]⟩
  · rw [hafter] at hnone
    cases hnone

theorem accompanied_comment {mark : OpenComment} {node : Node} (hopener : opener.lexeme = "/*")
    (hregular : token.Regular) (hpeek : place.tape.skipBreaks.peek? = some token)
    (hstatement : place.scope.statement? token.lexeme = some (.comment mark))
    (hafter : place.tape.skipBreaks.afterComment? token mark = some after)
    (hkind : node.kind = .comment) : place.Accompanied opener (place.add node after) := by
  intro more place' h
  obtain ⟨after', hafter', hfollows⟩ :=
    h.tape.afterComment? hopener hpeek (Scope.opens_of_statement? hstatement) hafter
  obtain ⟨node', hkind', hstep⟩ := h.exists_add hregular hpeek hstatement hafter'
  refine ⟨_, hstep, h.toLike.add ?_, ?_⟩
  · rw [Node.withoutCommentsAll_of_comment hkind, Node.withoutCommentsAll_of_comment hkind']
  · rw [tape_add, tape_add]
    exact hfollows

/-- The comment that the mark opens is passed by the reading that has its end. -/
theorem leaves_comment (hregular : token.Regular)
    (hpeek : place.tape.skipBreaks.peek? = some token)
    (hstatement : place.scope.statement? token.lexeme = some (.comment .block))
    (hafter : place.tape.skipBreaks.afterComment? token .block = none) :
    place.Leaves opener EndsComment := by
  -- any comment will do for the place in common, since comments do not count
  refine ⟨place.add (commentNode .block "") place.tape, ?_⟩
  rintro more rest place' h ⟨closer, lineEnd, hend, hcloses⟩
  obtain ⟨after', hafter', hrest⟩ := h.tape.afterComment?_of_none hafter hcloses
  obtain ⟨node', hkind', hstep⟩ := h.exists_add hregular hpeek hstatement hafter'
  refine ⟨_, .single hstep, h.toLike.add ?_, ?_⟩
  · rw [Node.withoutCommentsAll_of_comment hkind', Node.withoutCommentsAll_of_comment rfl]
  · rw [tape_add, Tape.skipBreaks, Tape.rest_skipWhile, hrest, List.dropWhile_cons_of_pos hend]

/-- **One step up to the mark.** Every reading makes it, or it is that over the comment. -/
theorem step_cases (hopener : opener.lexeme = "/*") (hleads : place.tape.skipBreaks.LeadsTo opener)
    (hfinished : place.Finished) :
    (∃ next, place.step = some next ∧ next.Finished ∧ place.Accompanied opener next) ∨
      place.Leaves opener EndsComment := by
  obtain ⟨token, hpeek, hregular⟩ := hleads.exists_peek?
  by_cases hcomment : ∃ mark, place.scope.statement? token.lexeme = some (.comment mark)
  · obtain ⟨mark, hmark⟩ := hcomment
    rcases proceed_comment hregular hpeek hmark with
      ⟨after, node, hafter, hkind, hnext⟩ | ⟨hafter, -⟩
    · refine .inl ⟨_, by rw [step_of_peek? hpeek, hnext], hfinished.add node after, ?_⟩
      exact accompanied_comment hopener hregular hpeek hmark hafter hkind
    · -- without what stands behind the mark the comment does not end
      obtain rfl : mark = .block := by
        cases mark with
        | line => cases hafter
        | block => rfl
      exact .inr (leaves_comment hregular hpeek hmark hafter)
  · have hnone : ∀ mark, place.scope.statement? token.lexeme ≠ some (.comment mark) :=
      fun mark hmark => hcomment ⟨mark, hmark⟩
    exact .inl ⟨_, step_of_peek? hpeek, hfinished.proceed (hnone _) _,
      accompanied_proceed hopener hregular hpeek hnone⟩

/-- A step that passes the line of the mark. -/
theorem Accompanied.leaves_line (h : place.Accompanied opener next)
    (hnil : next.tape.skipBreaks.rest = []) : place.Leaves opener EndsFirstLine := by
  refine ⟨next, ?_⟩
  rintro more rest place' hahead ⟨lineEnd, hend, hline⟩
  obtain ⟨next', hstep', hlike, hfollows⟩ := h hahead
  refine ⟨next', .single hstep', hlike, ?_⟩
  rw [hfollows.behind hnil, hline, List.dropWhile_cons_of_pos hend]

/-- A step that stays before the mark. -/
theorem Accompanied.leaves {ends : List Token → List Token → Prop}
    (h : place.Accompanied opener next) (hleft : next.tape.skipBreaks.rest ≠ [])
    (hnext : next.Leaves opener ends) : place.Leaves opener ends := by
  obtain ⟨middle, hmiddle⟩ := hnext
  refine ⟨middle, fun more rest place' hahead hends => ?_⟩
  obtain ⟨next', hstep', hlike, hfollows⟩ := h hahead
  obtain ⟨last', hsteps', hlast'⟩ := hmiddle ⟨hlike, hfollows.before hleft⟩ hends
  exact ⟨last', .head hstep' hsteps', hlast'⟩

/-- **Up to the mark and past it.** Readings that go on behind the mark pass the comment that it
opens; or they pass the line of the mark, and the reading that ends there finds no comment. -/
theorem leaves_of_steps (hopener : opener.lexeme = "/*") (hsteps : place.Steps last)
    (hlast : last.step = none) (hleads : place.tape.LeadsTo opener)
    (hfinished : place.Finished) :
    place.Leaves opener EndsComment ∨ last.Finished ∧ place.Leaves opener EndsFirstLine := by
  induction hsteps using Relation.ReflTransGen.head_induction_on with
  | refl =>
    -- the mark is still to come, so that the run is not at its end
    obtain ⟨token, hpeek, -⟩ := (hleads.skipBreaks hopener).exists_peek?
    rw [step_of_peek? hpeek] at hlast
    cases hlast
  | @head place next hstep hsteps ih =>
    rcases step_cases hopener (hleads.skipBreaks hopener) hfinished with
      ⟨_, hnext, hfinished', haccompanied⟩ | hleaves
    · rw [hstep] at hnext
      cases hnext
      by_cases hnil : next.tape.skipBreaks.rest = []
      · exact .inr ⟨hfinished'.steps hnil hsteps, haccompanied.leaves_line hnil⟩
      · have hleft := next.tape.reaches_skipBreaks.ne_nil hnil
        have hleads' := hleads.reaches (reaches_step hstep) hleft
        exact (ih hleads' hfinished').imp (haccompanied.leaves hnil)
          (And.imp id (haccompanied.leaves hnil))
    · exact .inl hleaves

end Place

/-! ### Texts -/

/-- What a text with a comment ends with. -/
theorem EndsComment.last {tokens : List Token} (h : EndsComment tokens rest)
    (hregular : ∀ token ∈ tokens, token.Regular) (words : List Token) :
    (words ++ tokens).getLast?.map Token.shape =
      some ((rest.map Token.shape).getLast?.getD (.lineEnd, "\n")) := by
  obtain ⟨closer, lineEnd, hend, hdrop⟩ := h
  have hsuffix : tokens.dropWhile (!closesComment ·) <:+ tokens := List.dropWhile_suffix _
  rw [hdrop] at hsuffix
  have hmem : lineEnd ∈ tokens := hsuffix.subset (by simp)
  obtain ⟨others, rfl⟩ := hsuffix
  rw [← List.append_assoc, List.getLast?_append, List.getLast?_cons_cons, List.getLast?_cons,
    List.getLast?_map]
  cases rest.getLast? with
  | none => simpa using (hregular lineEnd hmem).shape_of_isLineEnd hend
  | some token => rfl

namespace Place

variable {words more' rest' : List Token} {ends : List Token → List Token → Prop}

theorem ahead_start (hopener : opener.lexeme = "/*")
    (hregular : ∀ token ∈ words ++ opener :: more, token.Regular) :
    (start (words ++ [opener])).Ahead opener more (start (words ++ opener :: more)) := by
  refine ⟨⟨.nil, rfl, .nil⟩, Tape.Ahead.skipBreaks ⟨⟨?_, ?_⟩, ?_⟩ hopener⟩
  · intro token htoken
    refine hregular token ?_
    rw [List.append_cons]
    exact List.mem_append_left _ htoken
  · exact List.getLast?_concat
  · exact List.append_cons _ _ _

/-- Readings that go on behind the mark with the same tokens, but for their places, end alike. -/
theorem Leaves.alike (h : (start (words ++ [opener])).Leaves opener ends)
    (hopener : opener.lexeme = "/*")
    (hregular : ∀ token ∈ words ++ opener :: more, token.Regular)
    (hregular' : ∀ token ∈ words ++ opener :: more', token.Regular)
    (hends : ends more rest) (hends' : ends more' rest') (hcomment : EndsComment more rest)
    (hcomment' : EndsComment more' rest')
    (hshapes : rest'.map Token.shape = rest.map Token.shape) :
    (Tree.ofTokens (words ++ opener :: more')).root.withoutComments =
        (Tree.ofTokens (words ++ opener :: more)).root.withoutComments ∧
      List.Forall₂ Diagnostic.Like (Tree.ofTokens (words ++ opener :: more)).errors
        (Tree.ofTokens (words ++ opener :: more')).errors := by
  obtain ⟨middle, hmiddle⟩ := h
  obtain ⟨next, hsteps, hlike, hrest⟩ := hmiddle (ahead_start hopener hregular) hends
  obtain ⟨next', hsteps', hlike', hrest'⟩ := hmiddle (ahead_start hopener hregular') hends'
  have hreach := (reaches_steps hsteps).trans next.tape.reaches_skipBreaks
  have hreach' := (reaches_steps hsteps').trans next'.tape.reaches_skipBreaks
  refine Tree.alike_of_sameLayout hsteps hsteps' ⟨hlike.of_common hlike', ?_⟩
  refine ⟨Frame.regular_of_reaches hreach hregular, Frame.regular_of_reaches hreach' hregular',
    ?_, ?_⟩
  · have hdrop : ∀ tokens : List Token, (tokens.dropWhile Token.isLineEnd).map Token.shape =
        (tokens.map Token.shape).dropWhile (·.1 == .lineEnd) := by
      intro tokens
      rw [List.dropWhile_map]
      rfl
    rw [outline, outline, hrest, hrest', hdrop, hdrop, hshapes]
  · rw [hreach.tokens_eq, hreach'.tokens_eq]
    have hmore : ∀ token ∈ more, token.Regular :=
      fun token htoken => hregular token (by simp [htoken])
    have hmore' : ∀ token ∈ more', token.Regular :=
      fun token htoken => hregular' token (by simp [htoken])
    have hlast := hcomment.last hmore (words ++ [opener])
    have hlast' := hcomment'.last hmore' (words ++ [opener])
    rw [← List.append_cons] at hlast hlast'
    rw [← hshapes, ← hlast'] at hlast
    exact hlast.symm

end Place

/-- The mark that opens a comment behind a text is read as that of a block comment, which is
reported if nothing follows. -/
def SeesComment (before : String) : Prop :=
  (Lexer.ofText (before ++ " /* ")).comment = some .block ∧
    ∃ diagnostic ∈ (Tree.ofSource (before ++ " /* ")).errors,
      diagnostic.problem = .unterminatedComment

/-- A text has no line breaks. -/
def OnOneLine (text : String) : Prop := '\n' ∉ text.toList ∧ '\r' ∉ text.toList

theorem OnOneLine.unifyBreaks {text : String} (h : OnOneLine text) :
    '\n' ∉ unifyBreaks text.toList := by
  obtain ⟨hfeed, hreturn⟩ := h
  generalize text.toList = characters at hfeed hreturn
  fun_induction ProtoSchema.unifyBreaks characters with
  | case1 => exact hfeed
  | case2 rest => exact absurd List.mem_cons_self hreturn
  | case3 rest => exact absurd List.mem_cons_self hreturn
  | case4 c rest _ _ ih =>
    rw [List.mem_cons, not_or] at hfeed hreturn ⊢
    exact ⟨hfeed.1, ih hfeed.2 hreturn.2⟩

/-- **The body of a comment means nothing**, if the mark that opens the comment is read as such or
the bodies stay on its line. What follows it is read alike: the file is the same, and the
diagnostics agree one by one. -/
theorem sameReading_commented {before body body' : String} (after : String)
    (hliteral : (Lexer.ofText before).inLiteral = false) (hbody : Unclosing body.toList)
    (hbody' : Unclosing body'.toList)
    (h : SeesComment before ∨ OnOneLine body ∧ OnOneLine body') :
    SameReading (commented before body after) (commented before body' after) := by
  obtain ⟨mark, hopening⟩ := exists_ofText_opening hliteral
  have hmark : (Lexer.ofText (before ++ " /* ")).comment = some mark := by rw [hopening]
  have hlines : mark = .block ∨ OnOneLine body ∧ OnOneLine body' := by
    refine h.imp (fun hsees => ?_) id
    rw [SeesComment, hmark] at hsees
    exact Option.some.inj hsees.1
  obtain ⟨more, rest, hcloses, htokens, hrest⟩ := exists_tokenize_commented hliteral hmark hbody
    (hlines.imp id fun hline => hline.1.unifyBreaks) after
  obtain ⟨more', rest', hcloses', htokens', hrest'⟩ := exists_tokenize_commented hliteral hmark
    hbody' (hlines.imp id fun hline => hline.2.unifyBreaks) after
  have hregular := regular_tokenize (commented before body after)
  have hregular' := regular_tokenize (commented before body' after)
  rw [htokens] at hregular
  rw [htokens'] at hregular'
  have hshapes : rest'.map Token.shape = rest.map Token.shape := by rw [hrest, hrest']
  -- the text that ends with the mark tells which way the texts with a comment go
  obtain ⟨last, hrun, hend, htree⟩ := Tree.exists_run (tokenize before ++ [openingToken before])
  have hleads : (Tape.ofTokens (tokenize before ++ [openingToken before])).LeadsTo
      (openingToken before) := by
    refine ⟨?_, List.getLast?_concat⟩
    rw [← tokenize_opening hliteral]
    exact regular_tokenize _
  refine sameReading_of_alike ?_
  rw [Tree.ofSource, Tree.ofSource, htokens, htokens']
  rcases Place.leaves_of_steps rfl hrun hend hleads (by rintro _ ⟨⟩) with
    hleaves | ⟨hfinished, hleaves⟩
  · exact hleaves.alike rfl hregular hregular' hcloses.comment hcloses'.comment hcloses.comment
      hcloses'.comment hshapes
  · rcases h with ⟨-, diagnostic, hmem, hproblem⟩ | ⟨hline, hline'⟩
    · rw [Tree.ofSource, tokenize_opening hliteral, ← htree] at hmem
      exact absurd hproblem (hfinished diagnostic hmem)
    · exact hleaves.alike rfl hregular hregular' (hcloses.line hline.unifyBreaks)
        (hcloses'.line hline'.unifyBreaks) hcloses.comment hcloses'.comment hshapes

/-- A comment inside a message may hold anything, and one on a line that is refused may hold what
fits on that line. -/
theorem sameReading_commented_message :
    (SeesComment "message M \x7b" ∧
      SameReading (commented "message M \x7b" "\nint32 a = 1;\n\x7d \"" "int32 b = 2;\x7d")
        (commented "message M \x7b" "" "int32 b = 2;\x7d")) ∧
    SameReading (commented "bad" "message M \x7b\x7d" "enum E \x7bA = 0;\x7d")
      (commented "bad" "'" "enum E \x7bA = 0;\x7d") := by
  have hsees : SeesComment "message M \x7b" := ⟨by decide +kernel, by decide +kernel⟩
  refine ⟨⟨hsees, ?_⟩, ?_⟩
  · exact sameReading_commented _ (by decide +kernel) (by unfold Unclosing; decide +kernel)
      (by unfold Unclosing; decide +kernel) (.inl hsees)
  · exact sameReading_commented _ (by decide +kernel) (by unfold Unclosing; decide +kernel)
      (by unfold Unclosing; decide +kernel)
      (.inr ⟨⟨by decide +kernel, by decide +kernel⟩, ⟨by decide +kernel, by decide +kernel⟩⟩)

/-- Behind a line that is refused the body of a comment is read: a message that is commented out is
part of the file. -/
theorem message_of_commented :
    ¬∀ before body body' after : String, (Lexer.ofText before).inLiteral = false →
      (Lexer.ofText before).comment = none → Unclosing body.toList → Unclosing body'.toList →
      ∃ file errors errors', parse (commented before body after) = .ok ⟨file, errors⟩ ∧
        parse (commented before body' after) = .ok ⟨file, errors'⟩ := by
  intro hall
  obtain ⟨file, errors, errors', hparse, hparse'⟩ := hall "bad" "\nmessage X \x7b\x7d\n" "" ""
    (by decide +kernel) (by decide +kernel) (by unfold Unclosing; decide +kernel)
    (by unfold Unclosing; decide +kernel)
  have hone : (parse (commented "bad" "\nmessage X \x7b\x7d\n" "")).toOption.map
      (·.file.messages.length) = some 1 := by decide +kernel
  have hnone : (parse (commented "bad" "" "")).toOption.map (·.file.messages.length) = some 0 := by
    decide +kernel
  rw [hparse] at hone
  rw [hparse'] at hnone
  exact absurd (hone.symm.trans hnone) (by decide)

end ProtoSchema
