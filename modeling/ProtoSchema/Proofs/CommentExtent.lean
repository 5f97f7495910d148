import ProtoSchema.Proofs.Accept
import ProtoSchema.Proofs.Lockstep

/-!
# How far block comments run

A block comment runs over any number of lines to the first token that ends in its closing mark. The
token that opens it may be that token, if it has room for both marks, and a line break is never it.
A comment without such a token is fatal. One word is an exception to the rule: the word of a slash,
an asterisk and a slash ends in the closing mark, but it never closes a comment, not even one that
another word has opened.

* `Lexeme.exists_body`: a word that opens a comment and closes it has both marks, apart.
* `Token.closesComment_eq`: which tokens close a comment that is open.
* `Statement.read_blockComment`, `Statement.read_unclosed`: a comment by the tokens it is made of.
* `isComment_of_whole`, `isComment_of_closer`: the two ways to end.
* `comment_runs_to_closer`: how far comments run, the word that is an exception apart.
-/

namespace ProtoSchema

open Parse

variable {tape : Tape} {opener token : Token} {words rest later : List Token} {node : Node}

/-! ### Marks -/

namespace Lexeme

variable {lexeme : String}

/-- Whether a word ends in the mark that closes block comments. -/
def endsInCloser (lexeme : String) : Bool := ['*', '/'].isSuffixOf lexeme.toList

/-- Whether a word that opens a block comment also ends it: its bytes are enough for both marks. -/
def isWholeComment (lexeme : String) : Bool :=
  decide (4 ≤ lexeme.utf8ByteSize) && endsInCloser lexeme

/-- **A word that opens a comment and closes it has both marks**, and they do not overlap. -/
theorem exists_body (hopens : opensBlockComment lexeme = true)
    (hcloses : closesBlockComment lexeme = true) :
    ∃ body, lexeme.toList = ['/', '*'] ++ (body ++ ['*', '/']) := by
  obtain ⟨rest, hlexeme⟩ := exists_of_slash hopens
  rw [closesBlockComment, Bool.and_eq_true, bne_iff_ne] at hcloses
  obtain ⟨hsuffix, hne⟩ := hcloses
  obtain ⟨front, hfront⟩ := List.isSuffixOf_iff_suffix.1 hsuffix
  rw [hlexeme] at hfront hne ⊢
  -- the closing mark starts behind the opening one, or they share the asterisk
  match front, hfront with
  | [], hfront => simp at hfront
  | [_], hfront =>
    obtain ⟨-, rfl⟩ : _ ∧ ['/'] = rest := by simpa using hfront
    exact absurd rfl hne
  | _ :: _ :: body, hfront =>
    obtain ⟨-, -, hrest⟩ : _ ∧ _ ∧ body ++ ['*', '/'] = rest := by simpa using hfront
    exact ⟨body, by rw [← hrest]; rfl⟩

/-- A word that opens a comment closes it if it has room for both marks. -/
theorem closesBlockComment_eq (hopens : opensBlockComment lexeme = true) :
    closesBlockComment lexeme = isWholeComment lexeme := by
  rw [Bool.eq_iff_iff]
  constructor
  · intro hcloses
    obtain ⟨body, hbody⟩ := exists_body hopens hcloses
    have hlexeme : lexeme = "/*" ++ (String.ofList body ++ "*/") := by
      rw [← String.toList_inj, hbody]
      simp
    have hsize : 4 ≤ lexeme.utf8ByteSize := by
      have hmarks : "/*".utf8ByteSize = 2 ∧ "*/".utf8ByteSize = 2 := by decide
      rw [hlexeme, String.utf8ByteSize_append, String.utf8ByteSize_append]
      omega
    rw [closesBlockComment, Bool.and_eq_true] at hcloses
    rw [isWholeComment, endsInCloser, hcloses.1]
    simp [hsize]
  · intro hwhole
    rw [isWholeComment, Bool.and_eq_true, decide_eq_true_eq] at hwhole
    rw [closesBlockComment, Bool.and_eq_true, bne_iff_ne]
    refine ⟨hwhole.2, fun hword => ?_⟩
    obtain rfl : lexeme = "/*/" := String.toList_injective hword
    exact absurd hwhole.1 (by decide)

end Lexeme

/-- Whether a token ends in the mark that closes block comments; a line break does not count. -/
def Token.endsComment (token : Token) : Bool :=
  !token.isLineEnd && Lexeme.endsInCloser token.lexeme

/-- **What closes a comment that is open** ends in the closing mark and is not the one word that
only opens comments. -/
theorem Token.closesComment_eq (token : Token) :
    closesComment token = (token.endsComment && token.lexeme != "/*/") := by
  have hword : (token.lexeme.toList != ['/', '*', '/']) = (token.lexeme != "/*/") := by
    rw [Bool.eq_iff_iff, bne_iff_ne, bne_iff_ne, ← String.toList_inj.ne]
    rfl
  rw [closesComment, endsComment, Lexeme.closesBlockComment, Lexeme.endsInCloser, hword,
    Bool.and_assoc]

theorem Token.closesComment_of_endsComment (h : token.endsComment = false) :
    closesComment token = false := by
  rw [closesComment_eq, h, Bool.false_and]

/-! ### Comments by their tokens -/

namespace Statement

/-- The tokens of a comment are read as that comment. -/
theorem read_blockComment (h : Grammar.Line (.comment .block) words node)
    (hrest : tape.rest = words ++ rest) :
    (comment .block).read tape = ⟨some node, [], ⟨words.reverse ++ tape.seen, rest⟩⟩ := by
  have hstart : (comment .block).start tape =
      .ok (.whole node) ⟨words.reverse ++ tape.seen, rest⟩ := by
    have hyields : blockComment.Yields tape.seen words node rest :=
      Grammar.yields_of_blockComment h
    rw [Yields, ← hrest] at hyields
    exact whole_of_ok hyields
  rw [read, hstart]

/-- A comment that no token closes is fatal. -/
theorem read_unclosed (hrest : tape.rest = opener :: later)
    (hopens : Lexeme.opensBlockComment opener.lexeme = true)
    (hopen : Lexeme.closesBlockComment opener.lexeme = false)
    (hlater : ∀ token ∈ later, closesComment token = false) :
    ((comment .block).read tape).errors = [⟨.unterminatedComment, opener⟩] := by
  have hpeek : tape.peek? = some opener := by rw [Tape.peek?, hrest]; rfl
  have hend : (tape.advance.skipWhile (!closesComment ·)).peek? = none := by
    have hadvance : tape.advance.rest = later := by simp [Tape.advance, hrest]
    have hdrop : later.dropWhile (!closesComment ·) = [] := by
      rw [List.dropWhile_eq_nil_iff]
      intro token htoken
      simp [hlater token htoken]
    simp [Tape.peek?, Tape.skipWhile, hadvance, hdrop]
  rcases @start_comment tape opener .block hpeek hopens with
    ⟨after, node, hafter, -⟩ | ⟨-, after, -, hstart⟩
  · simp [Tape.afterComment?, hopen, hend] at hafter
  · rw [read, hstart]

end Statement

/-! ### How far comments run -/

/-- A statement led to a block comment and to no diagnostic, and passed these tokens and no more. -/
def Outcome.IsComment (outcome : Outcome) (tape : Tape) (words rest : List Token) : Prop :=
  ∃ text, outcome = ⟨some (commentNode .block text), [], ⟨words.reverse ++ tape.seen, rest⟩⟩

theorem Outcome.IsComment.isFatal {outcome : Outcome} (h : outcome.IsComment tape words rest) :
    outcome.isFatal = false := by
  obtain ⟨text, rfl⟩ := h
  rfl

theorem isComment_of_whole (hrest : tape.rest = opener :: later)
    (hopens : Lexeme.opensBlockComment opener.lexeme = true)
    (hwhole : Lexeme.isWholeComment opener.lexeme = true) :
    ((Statement.comment .block).read tape).IsComment tape [opener] later := by
  have hcloses := (Lexeme.closesBlockComment_eq hopens).trans hwhole
  exact ⟨_, Statement.read_blockComment (.shortComment hopens hcloses) hrest⟩

/-- A comment ends with the first later token that ends in the closing mark, unless this is the word
that only opens comments. -/
theorem isComment_of_closer {inside : List Token} {closer : Token}
    (hrest : tape.rest = opener :: (inside ++ closer :: rest))
    (hopens : Lexeme.opensBlockComment opener.lexeme = true)
    (hopen : Lexeme.isWholeComment opener.lexeme = false)
    (hinside : ∀ token ∈ inside, token.endsComment = false) (hends : closer.endsComment = true)
    (hword : closer.lexeme ≠ "/*/") :
    ((Statement.comment .block).read tape).IsComment tape
      (opener :: (inside ++ [closer])) rest := by
  have hcloses : closesComment closer = true := by
    rw [Token.closesComment_eq, hends, bne_iff_ne.2 hword]
    rfl
  have hline := Grammar.Line.blockComment hopens ((Lexeme.closesBlockComment_eq hopens).trans hopen)
    (fun token htoken => Token.closesComment_of_endsComment (hinside token htoken)) hcloses
  exact ⟨_, Statement.read_blockComment hline (by simp [hrest])⟩

/-- **A block comment runs to the first token that ends in its closing mark.** Reading starts at any
place of any tokens, before one that opens a comment. If the comment is not whole with this token,
then the first later token that ends in the mark must not be the word that only opens comments. -/
theorem comment_runs_to_closer (hrest : tape.rest = opener :: later)
    (hopens : Lexeme.opensBlockComment opener.lexeme = true)
    (hword : Lexeme.isWholeComment opener.lexeme = false →
      ∀ closer ∈ later.find? Token.endsComment, closer.lexeme ≠ "/*/") :
    (Lexeme.isWholeComment opener.lexeme = true →
      ((Statement.comment .block).read tape).IsComment tape [opener] later) ∧
    (Lexeme.isWholeComment opener.lexeme = false →
      ∀ inside closer rest, later = inside ++ closer :: rest →
        (∀ token ∈ inside, token.endsComment = false) → closer.endsComment = true →
        ((Statement.comment .block).read tape).IsComment tape
          (opener :: (inside ++ [closer])) rest) ∧
    (((Statement.comment .block).read tape).isFatal = true ↔
      Lexeme.isWholeComment opener.lexeme = false ∧
        ∀ token ∈ later, token.endsComment = false) := by
  refine ⟨isComment_of_whole hrest hopens, ?_, ?_, ?_⟩
  · rintro hopen inside closer rest rfl hinside hends
    have hfirst : closer ∈ (inside ++ closer :: rest).find? Token.endsComment := by
      rw [Option.mem_def, List.find?_append, List.find?_eq_none.2 (by simpa using hinside),
        Option.none_or, List.find?_cons_of_pos hends]
    exact isComment_of_closer hrest hopens hopen hinside hends (hword hopen closer hfirst)
  · -- where the comment ends, nothing is fatal
    intro hfatal
    cases hopen : Lexeme.isWholeComment opener.lexeme with
    | true =>
      rw [(isComment_of_whole hrest hopens hopen).isFatal] at hfatal
      cases hfatal
    | false =>
      refine ⟨rfl, ?_⟩
      cases hfirst : later.find? Token.endsComment with
      | none => simpa using hfirst
      | some closer =>
        obtain ⟨hends, inside, rest, rfl, hinside⟩ := List.find?_eq_some_iff_append.1 hfirst
        have hcomment := isComment_of_closer hrest hopens hopen (by simpa using hinside) hends
          (hword hopen closer hfirst)
        rw [hcomment.isFatal] at hfatal
        cases hfatal
  · rintro ⟨hopen, hlater⟩
    have hcloses := (Lexeme.closesBlockComment_eq hopens).trans hopen
    have herrors := Statement.read_unclosed hrest hopens hcloses fun token htoken =>
      Token.closesComment_of_endsComment (hlater token htoken)
    rw [Outcome.isFatal, herrors]
    rfl

/-- A comment whose opening word has the closing mark in it, over two lines, with the opening mark
once more before its end. -/
def overlappingMarks : String := "/*/ a\n/* c*/ d"

/-- The opening word has no room for both marks, and the opening mark inside changes nothing. -/
theorem comment_runs_to_closer_overlappingMarks :
    (Tape.ofTokens (tokenize overlappingMarks)).rest =
      .ofLexeme ⟨1, 1⟩ "/*/" :: ([.ofLexeme ⟨1, 5⟩ "a", .lineBreak ⟨2, 0⟩, .ofLexeme ⟨2, 1⟩ "/*"] ++
        .ofLexeme ⟨2, 4⟩ "c*/" :: [.ofLexeme ⟨2, 8⟩ "d"]) ∧
    ((Statement.comment .block).read (.ofTokens (tokenize overlappingMarks))).IsComment
      (.ofTokens (tokenize overlappingMarks))
      (.ofLexeme ⟨1, 1⟩ "/*/" :: ([.ofLexeme ⟨1, 5⟩ "a", .lineBreak ⟨2, 0⟩,
        .ofLexeme ⟨2, 1⟩ "/*"] ++ [.ofLexeme ⟨2, 4⟩ "c*/"]))
      [.ofLexeme ⟨2, 8⟩ "d"] := by
  have hrest : (Tape.ofTokens (tokenize overlappingMarks)).rest =
      .ofLexeme ⟨1, 1⟩ "/*/" :: ([.ofLexeme ⟨1, 5⟩ "a", .lineBreak ⟨2, 0⟩,
        .ofLexeme ⟨2, 1⟩ "/*"] ++ .ofLexeme ⟨2, 4⟩ "c*/" :: [.ofLexeme ⟨2, 8⟩ "d"]) := by
    decide +kernel
  refine ⟨hrest, (comment_runs_to_closer hrest (by decide) ?_).2.1 (by decide) _ _ _ rfl
    (by decide) (by decide)⟩
  decide

/-- A comment with a word before its end that ends in the closing mark, but only opens comments. -/
def reopenedComment : String := "/* a /*/ b */"

/-- **One word that ends in the closing mark is passed over.** It is the first such word behind the
opening one, and the comment goes on to the next one. -/
theorem comment_runs_past_closer :
    (Tape.ofTokens (tokenize reopenedComment)).rest =
      .ofLexeme ⟨1, 1⟩ "/*" :: ([.ofLexeme ⟨1, 4⟩ "a"] ++
        .ofLexeme ⟨1, 6⟩ "/*/" :: [.ofLexeme ⟨1, 10⟩ "b", .ofLexeme ⟨1, 12⟩ "*/"]) ∧
    Lexeme.opensBlockComment "/*" = true ∧ Lexeme.isWholeComment "/*" = false ∧
    (Token.ofLexeme ⟨1, 4⟩ "a").endsComment = false ∧
    (Token.ofLexeme ⟨1, 6⟩ "/*/").endsComment = true ∧
    ¬((Statement.comment .block).read (.ofTokens (tokenize reopenedComment))).IsComment
      (.ofTokens (tokenize reopenedComment))
      (.ofLexeme ⟨1, 1⟩ "/*" :: ([.ofLexeme ⟨1, 4⟩ "a"] ++ [.ofLexeme ⟨1, 6⟩ "/*/"]))
      [.ofLexeme ⟨1, 10⟩ "b", .ofLexeme ⟨1, 12⟩ "*/"] := by
  refine ⟨by decide +kernel, by decide, by decide, by decide, by decide, ?_⟩
  rintro ⟨text, houtcome⟩
  have hrest : ((Statement.comment .block).read (.ofTokens (tokenize reopenedComment))).tape.rest =
      [] := by decide +kernel
  rw [houtcome] at hrest
  cases hrest

end ProtoSchema
