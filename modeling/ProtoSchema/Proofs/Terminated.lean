import ProtoSchema.Proofs.CommentTokens
import ProtoSchema.Proofs.Declarations

/-!
# Literals that are closed

While words are cut from the text, a literal runs from its quote to the same quote without a
backslash before it, or to the end of the line, and what follows the closing quote without a gap
belongs to the word as well. A word counts as quoted as soon as its first and last characters are
the same quote. So a word that counts as quoted is one closed literal, unless something is glued to
the literal, or unless the line ends before the literal does.

* `Lexeme.behindLiteral?`: what stands behind the closing quote of a word.
* `Lexer.Tracks`: the word that is being read, and whether its literal is open.
* `Lexer.literalsEnd_scan`: a literal that is not closed ends its line.
* `Grammar.Line.next_of_quoted`: a statement on one line goes on behind a literal.
* `quoted_is_terminated`: the literals of a text.
-/

namespace ProtoSchema

open OpenComment

/-! ### Closing quotes -/

namespace OpenLiteral

variable {literal : OpenLiteral}

/-- What stands behind the quote that closes a literal. -/
def behind? (literal : OpenLiteral) : List Char → Option (List Char)
  | [] => none
  | c :: rest =>
    match literal.after c with
    | none => some rest
    | some later => later.behind? rest

/-- The literal that is open after characters in a row. -/
def afterAll (literal? : Option OpenLiteral) (text : List Char) : Option OpenLiteral :=
  text.foldl (fun literal? c => literal?.bind (·.after c)) literal?

theorem afterAll_none (text : List Char) : afterAll none text = none := by
  induction text with
  | nil => rfl
  | cons c rest ih => exact ih

theorem afterAll_concat (literal? : Option OpenLiteral) (text : List Char) (c : Char) :
    afterAll literal? (text ++ [c]) = (afterAll literal? text).bind (·.after c) := by
  simp [afterAll]

/-- Nothing stands behind the closing quote of a literal that is open. -/
theorem isSome_afterAll (literal : OpenLiteral) (text : List Char) :
    (afterAll (some literal) text).isSome = (literal.behind? text).isNone := by
  induction text generalizing literal with
  | nil => rfl
  | cons c rest ih =>
    have hstep : afterAll (some literal) (c :: rest) = afterAll (literal.after c) rest := rfl
    rw [hstep, behind?]
    cases literal.after c with
    | none => simp [afterAll_none]
    | some later => exact ih later

/-- A literal is closed by its quote. -/
theorem eq_quote_of_after {c : Char} (h : literal.after c = none) : c = literal.quote := by
  unfold after at h
  split at h
  · cases h
  · split at h
    · cases h
    · split at h
      · assumption
      · cases h

theorem quote_after {c : Char} {later : OpenLiteral} (h : literal.after c = some later) :
    later.quote = literal.quote := by
  unfold after at h
  split at h
  · cases h
    rfl
  · split at h
    · cases h
      rfl
    · split at h
      · cases h
      · cases h
        rfl

/-- What the first quote that is not escaped closes ends with that quote. -/
theorem exists_body {text : List Char} (h : literal.behind? text = some []) :
    ∃ body, text = body ++ [literal.quote] := by
  induction text generalizing literal with
  | nil => cases h
  | cons c rest ih =>
    rw [behind?] at h
    cases hafter : literal.after c with
    | none =>
      rw [hafter] at h
      cases h
      exact ⟨[], by rw [eq_quote_of_after hafter]; rfl⟩
    | some later =>
      rw [hafter] at h
      obtain ⟨body, hbody⟩ := ih h
      exact ⟨c :: body, by rw [hbody, quote_after hafter]; rfl⟩

end OpenLiteral

namespace Lexeme

variable {lexeme : String}

/-- What stands behind the closing quote of the literal that a word starts with. -/
def behindLiteral? (lexeme : String) : Option (List Char) :=
  match lexeme.toList with
  | [] => none
  | quote :: rest => OpenLiteral.behind? { quote } rest

/-- **A word that is one closed literal**: it starts with a quote, and the first such quote that no
backslash escapes is its last character. -/
def IsTerminated (lexeme : String) : Prop :=
  startsQuoted lexeme = true ∧ behindLiteral? lexeme = some []

/-- A word with something glued to a closed literal. -/
def IsGlued (lexeme : String) : Prop := ∃ c rest, behindLiteral? lexeme = some (c :: rest)

instance (lexeme : String) : Decidable (IsTerminated lexeme) :=
  inferInstanceAs (Decidable (_ ∧ _))

theorem startsQuoted_of_isQuoted (h : isQuoted lexeme = true) : startsQuoted lexeme = true := by
  obtain ⟨quote, rest, hlexeme, hquote⟩ := exists_quote_of_isQuoted h
  simp [startsQuoted, hlexeme, hquote]

theorem isQuoted_of_isTerminated (h : IsTerminated lexeme) : isQuoted lexeme = true := by
  obtain ⟨hquote, hbehind⟩ := h
  cases hlexeme : lexeme.toList with
  | nil =>
    rw [behindLiteral?, hlexeme] at hbehind
    cases hbehind
  | cons quote rest =>
    have hfirst : isQuote quote = true := by simpa [startsQuoted, hlexeme] using hquote
    have hend : OpenLiteral.behind? { quote } rest = some [] := by
      simpa [behindLiteral?, hlexeme] using hbehind
    obtain ⟨body, rfl⟩ := OpenLiteral.exists_body hend
    simp [isQuoted, unquote?, unquoteChars?, hlexeme, hfirst, List.isSuffixOf?, List.isPrefixOf?]

/-- A mark is no quote. -/
theorem startsQuoted_singleton {c : Char} (h : isPunctuation c = true) :
    startsQuoted (String.singleton c) = false := by
  obtain ⟨mark, rfl⟩ := (isPunctuation_iff c).1 h
  cases mark <;> decide

end Lexeme

/-! ### The word that is being read -/

/-- A literal is open in a word as long as its closing quote has not been read, if no comment was
open where the word starts. -/
def PendingWord.Tracks (comment : Option OpenComment) (word : PendingWord) : Prop :=
  ∃ first rest, word.text.toList = first :: rest ∧
    word.literal = if Lexeme.isQuote first && comment.isNone
      then OpenLiteral.afterAll (some { quote := first }) rest else none

/-- A token that starts a literal outside comments and does not close it. -/
def Token.Cut (comment : Option OpenComment) (token : Token) : Prop :=
  comment = none ∧ Lexeme.startsQuoted token.lexeme = true ∧
    Lexeme.behindLiteral? token.lexeme = none

/-- Every literal that is not closed is the last word of its line. -/
def LiteralsEnd (comment : Option OpenComment) : List Token → Prop
  | [] => True
  | token :: rest =>
    (token.Cut comment → ∀ next ∈ rest.head?, next.isLineEnd = true) ∧
      LiteralsEnd (afterToken comment token) rest

theorem LiteralsEnd.at_token {comment : Option OpenComment} {before after : List Token}
    {token : Token} (h : LiteralsEnd comment (before ++ token :: after)) :
    token.Cut (afterTokens comment before) → ∀ next ∈ after.head?, next.isLineEnd = true := by
  induction before generalizing comment with
  | nil => exact h.1
  | cons first rest ih => exact ih h.2

namespace Lexer

variable {lexer : Lexer} {tokens : List Token} {c : Char} {position : Position}

/-- What the lexer knows about the word that it is reading. -/
def Tracks (lexer : Lexer) : Prop := ∀ word ∈ lexer.word, word.Tracks lexer.comment

theorem tracks_of_word (h : lexer.word = none) : lexer.Tracks := by
  intro word hword
  rw [h] at hword
  cases hword

theorem Tracks.extend (h : lexer.Tracks) (c : Char) (position : Position) :
    (lexer.extend c position).Tracks := by
  obtain ⟨word?, comment⟩ := lexer
  cases word? with
  | none =>
    rintro _ ⟨⟩
    exact ⟨c, [], by simp, rfl⟩
  | some word =>
    rintro _ ⟨⟩
    obtain ⟨first, rest, htext, hliteral⟩ := h word rfl
    refine ⟨first, rest ++ [c], by simp [PendingWord.push, htext], ?_⟩
    have hcomment : (Lexer.extend ⟨some word, comment⟩ c position).comment = comment := rfl
    rw [hcomment, PendingWord.push, hliteral, OpenLiteral.afterAll_concat]
    cases Lexeme.isQuote first && comment.isNone <;> rfl

/-- The word that a flush ends may be cut only if its literal is open. -/
theorem literalsEnd_flush (h : lexer.Tracks) (hrest : LiteralsEnd lexer.flush.2.comment tokens)
    (hnext : lexer.inLiteral = true → ∀ next ∈ tokens.head?, next.isLineEnd = true) :
    LiteralsEnd lexer.comment (lexer.flush.1 ++ tokens) := by
  obtain ⟨word?, comment⟩ := lexer
  cases word? with
  | none => exact hrest
  | some word =>
    obtain ⟨first, rest, htext, hliteral⟩ := h word rfl
    refine ⟨?_, ?_⟩
    · rintro ⟨hcomment, hquote, hcut⟩
      refine hnext ?_
      have hfirst : Lexeme.isQuote first = true := by
        rwa [Token.ofLexeme, Lexeme.startsQuoted, htext] at hquote
      have hbehind : OpenLiteral.behind? { quote := first } rest = none := by
        rwa [Token.ofLexeme, Lexeme.behindLiteral?, htext] at hcut
      have hopen := OpenLiteral.isSome_afterAll { quote := first } rest
      rw [hbehind] at hopen
      obtain rfl : comment = none := hcomment
      simpa [inLiteral, hliteral, hfirst] using hopen
    · have hafter : afterToken comment (.ofLexeme word.start word.text) =
          afterWord comment word.text := by
        rw [afterToken, Token.isLineEnd_ofLexeme]
        rfl
      rw [hafter]
      exact hrest

/-- A token that starts with no quote. -/
theorem literalsEnd_cons {comment : Option OpenComment} {token : Token}
    (hquote : Lexeme.startsQuoted token.lexeme = false)
    (hrest : LiteralsEnd (afterToken comment token) tokens) :
    LiteralsEnd comment (token :: tokens) := by
  refine ⟨?_, hrest⟩
  rintro ⟨-, hstarts, -⟩
  rw [hquote] at hstarts
  cases hstarts

/-- **A literal that is not closed ends its line.** -/
theorem literalsEnd_scan (h : lexer.Tracks) (characters : List (Char × Position)) :
    LiteralsEnd lexer.comment (lexer.scan characters) := by
  induction characters generalizing lexer with
  | nil =>
    have hflush := @literalsEnd_flush lexer [] h trivial (by simp)
    rwa [List.append_nil] at hflush
  | cons character rest ih =>
    obtain ⟨c, position⟩ := character
    have hextend : LiteralsEnd lexer.comment ((lexer.extend c position).scan rest) := by
      have hcomment : (lexer.extend c position).comment = lexer.comment := by
        unfold Lexer.extend
        split <;> rfl
      rw [← hcomment]
      exact ih (h.extend c position)
    have hflushed : LiteralsEnd lexer.flush.2.comment (lexer.flush.2.scan rest) :=
      ih (tracks_of_word lexer.word_flush)
    rw [scan_cons, step]
    split
    · -- the line ends, and an open literal with it
      have hline : LiteralsEnd (afterLine lexer.flush.2.comment)
          (scan ⟨lexer.flush.2.word, afterLine lexer.flush.2.comment⟩ rest) :=
        @ih ⟨lexer.flush.2.word, afterLine lexer.flush.2.comment⟩ (tracks_of_word lexer.word_flush)
      have hbreak : Lexeme.startsQuoted "\n" = false := by decide
      rw [List.append_assoc]
      refine literalsEnd_flush h (literalsEnd_cons hbreak hline) ?_
      rintro - next ⟨⟩
      rfl
    · split
      · exact hextend
      · rename_i hliteral
        split
        · exact literalsEnd_flush h hflushed fun hopen => absurd hopen hliteral
        · split
          · rename_i hmark
            rw [List.append_assoc]
            refine literalsEnd_flush h ?_ fun hopen => absurd hopen hliteral
            refine literalsEnd_cons (Lexeme.startsQuoted_singleton hmark) ?_
            rw [show afterToken lexer.flush.2.comment ⟨.punctuation, position, .singleton c⟩ =
              afterWord lexer.flush.2.comment (.singleton c) from rfl, afterWord_singleton hmark]
            exact hflushed
          · exact hextend

end Lexer

/-- **In the tokens of a text** a literal that is not closed ends its line. -/
theorem literalsEnd_tokenize (source : String) : LiteralsEnd none (tokenize source) := by
  rw [tokenize_eq_scan]
  exact @Lexer.literalsEnd_scan {} (Lexer.tracks_of_word rfl) _

/-- A quoted token of a text that belongs to no comment is no line break, and no comment is open
before it. -/
theorem Token.Regular.comment_of_isQuoted {token : Token} {comment : Option OpenComment}
    (hregular : token.Regular) (hcomment : token.inComment comment = false)
    (hquoted : token.isQuoted = true) : comment = none := by
  have hend : token.isLineEnd = false := by
    rw [← Bool.not_eq_true]
    intro hend
    rw [Token.isQuoted, hregular.lexeme_of_isLineEnd hend] at hquoted
    exact absurd hquoted (by decide)
  rw [Token.inComment, hend] at hcomment
  cases comment with
  | none => rfl
  | some mark => cases hcomment

/-! ### Statements on one line -/

/-- The statements that take literals and have no list of options in brackets, which may break the
line. -/
def Statement.takesLiteral : Statement → Bool
  | version | importFile | option | reserved _ => true
  | _ => false

theorem Statement.isDeclaration_of_takesLiteral {statement : Statement}
    (h : statement.takesLiteral = true) : statement.isDeclaration = true := by
  cases statement <;> first | rfl | cases h

namespace Grammar

variable {words : List Token} {node : Node}

/-- **Such a statement goes on behind a literal** on the same line: what ends it is no literal. -/
theorem Line.next_of_quoted {statement : Statement} {earlier later : List Token} {token : Token}
    (h : Line statement (earlier ++ token :: later) node) (hliteral : statement.takesLiteral = true)
    (hregular : ∀ token ∈ later, token.Regular) (hquoted : token.isQuoted = true) :
    ∃ next rest, later = next :: rest ∧ next.isLineEnd = false := by
  have hended := h.ended (Statement.isDeclaration_of_takesLiteral hliteral)
  cases later with
  | nil =>
    obtain ⟨front, semicolon, hwords, -, hmark⟩ := hended
    obtain rfl : token = semicolon := by simpa using congrArg List.getLast? hwords
    rw [Token.isQuoted, show token.lexeme = ";" from beq_iff_eq.1 hmark] at hquoted
    exact absurd hquoted (by decide)
  | cons next rest =>
    have hnext := hregular next List.mem_cons_self
    exact ⟨next, rest, rfl, hended.isLineEnd_of_mem (by simp) hnext⟩

/-- Such a statement has no body, and is no comment. -/
theorem Read.exists_line {statement : Statement} {rest : List Token} {reading : Reading}
    (h : Read statement words rest reading) (hliteral : statement.takesLiteral = true) :
    ∃ node, Line statement words node := by
  cases reading with
  | whole node =>
    rcases h with hline | ⟨rfl, -⟩
    · exact ⟨node, hline⟩
    · cases hliteral
  | opened frame =>
    cases h with
    | named hblock _ =>
      cases statement with
      | message | oneof | enum | service => cases hliteral
      | _ => cases hblock
    | method => cases hliteral

end Grammar

/-! ### The literals of a text -/

/-- A quoted token outside comments: one closed literal, one with something glued to it, or one that
is cut by the end of its line. -/
theorem exists_closed_or_cut {source : String} {before after : List Token} {token : Token}
    (htokens : tokenize source = before ++ token :: after)
    (hcomment : token.inComment (afterTokens none before) = false)
    (hquoted : token.isQuoted = true) :
    Lexeme.IsTerminated token.lexeme ∨ Lexeme.IsGlued token.lexeme ∨
      Lexeme.behindLiteral? token.lexeme = none ∧
        ∀ next ∈ after.head?, next.isLineEnd = true := by
  have hregular : token.Regular := regular_tokenize source token (by simp [htokens])
  have hnone := hregular.comment_of_isQuoted hcomment hquoted
  have hstarts := Lexeme.startsQuoted_of_isQuoted hquoted
  have hends := literalsEnd_tokenize source
  rw [htokens] at hends
  cases hbehind : Lexeme.behindLiteral? token.lexeme with
  | none => exact .inr (.inr ⟨rfl, hends.at_token ⟨hnone, hstarts, hbehind⟩⟩)
  | some behind =>
    cases behind with
    | nil => exact .inl ⟨hstarts, hbehind⟩
    | cons c rest => exact .inr (.inl ⟨c, rest, hbehind⟩)

/-- **Only complete literals count as quoted, but for two cases.** A word of a text that counts as
quoted outside comments is one closed literal, unless something is glued to the closing quote, or
unless the literal is not closed and ends its line. In statements that do not break the line the
second case does not occur. A closed literal always counts as quoted. -/
theorem quoted_is_terminated (source : String) :
    (∀ before token after, tokenize source = before ++ token :: after →
      token.inComment (afterTokens none before) = false → token.isQuoted = true →
      Lexeme.IsTerminated token.lexeme ∨ Lexeme.IsGlued token.lexeme ∨
        Lexeme.behindLiteral? token.lexeme = none ∧
          ∀ next ∈ after.head?, next.isLineEnd = true) ∧
    (∀ (scope : Scope) (statement : Statement) (tape after : Tape) first reading,
      tape.tokens = tokenize source → tape.peek? = some first →
      scope.statement? first.lexeme = some statement → statement.takesLiteral = true →
      statement.start tape = .ok reading after →
      ∀ earlier token later, tape.rest = earlier ++ token :: (later ++ after.rest) →
        token.inComment (afterTokens none (tape.seen.reverse ++ earlier)) = false →
        token.isQuoted = true →
        Lexeme.IsTerminated token.lexeme ∨ Lexeme.IsGlued token.lexeme) ∧
    ∀ lexeme, Lexeme.IsTerminated lexeme → Lexeme.isQuoted lexeme = true := by
  refine ⟨fun _ _ _ => exists_closed_or_cut, ?_, fun _ => Lexeme.isQuoted_of_isTerminated⟩
  intro scope statement tape after first reading htokens hpeek hstatement hliteral hstart
    earlier token later hrest hcomment hquoted
  have hsplit : tokenize source =
      (tape.seen.reverse ++ earlier) ++ token :: (later ++ after.rest) := by
    rw [← htokens, Tape.tokens, hrest, List.append_assoc]
  rcases exists_closed_or_cut hsplit hcomment hquoted with hclosed | hglued | ⟨-, hend⟩
  · exact .inl hclosed
  · exact .inr hglued
  -- the words of the statement go on behind the literal, and not on another line
  obtain ⟨words, hwords, hread⟩ := Frame.exists_read hpeek hstatement hstart
  obtain rfl : words = earlier ++ token :: later := by
    refine List.append_cancel_right (hwords.symm.trans (hrest.trans ?_))
    rw [List.append_assoc, List.cons_append]
  have hregular : ∀ token ∈ later, token.Regular := by
    intro token htoken
    exact regular_tokenize source token (by simp [hsplit, htoken])
  obtain ⟨node, hline⟩ := Grammar.Read.exists_line hread hliteral
  obtain ⟨next, rest, rfl, hnext⟩ := hline.next_of_quoted hliteral hregular hquoted
  rw [hend next rfl] at hnext
  cases hnext

/-- An import with a quote inside its path. -/
def escapedImport : String := "import \x22a\\\x22b\x22;"

/-- The words of the import. -/
def escapedWords : List Token :=
  [.ofLexeme ⟨1, 1⟩ "import", .ofLexeme ⟨1, 8⟩ "\x22a\\\x22b\x22", .ofLexeme ⟨1, 14⟩ ";"]

/-- The path of the import counts as quoted and is one closed literal, both as a word of the text
and as the path that the statement takes. -/
theorem quoted_is_terminated_escapedImport :
    tokenize escapedImport = escapedWords ∧
      Lexeme.IsTerminated "\x22a\\\x22b\x22" ∧ Lexeme.isQuoted "\x22a\\\x22b\x22" = true ∧
      ∃ reading after, Statement.importFile.start (.ofTokens escapedWords) = .ok reading after ∧
        (Lexeme.IsTerminated "\x22a\\\x22b\x22" ∨ Lexeme.IsGlued "\x22a\\\x22b\x22") := by
  have hwords : tokenize escapedImport = escapedWords := by decide +kernel
  have hbehind : Lexeme.behindLiteral? "\x22a\\\x22b\x22" = some [] := by decide
  have hclosed : Lexeme.IsTerminated "\x22a\\\x22b\x22" := by
    rcases (quoted_is_terminated escapedImport).1 [.ofLexeme ⟨1, 1⟩ "import"]
      (.ofLexeme ⟨1, 8⟩ "\x22a\\\x22b\x22") [.ofLexeme ⟨1, 14⟩ ";"] hwords (by decide) (by decide)
      with h | ⟨c, rest, h⟩ | ⟨h, -⟩
    · exact h
    · cases hbehind.symm.trans h
    · cases hbehind.symm.trans h
  refine ⟨hwords, hclosed, (quoted_is_terminated escapedImport).2.2 _ hclosed, ?_⟩
  have hline : Grammar.Line .importFile escapedWords _ :=
    .plainImport (by simp only [Grammar.spells_cons, Grammar.spells_nil, and_true]; decide)
  have hstart := @Grammar.yields_of_line [] escapedWords [] _ _ hline
    (hwords ▸ regular_tokenize escapedImport)
  refine ⟨_, _, hstart, ?_⟩
  exact (quoted_is_terminated escapedImport).2.1 .file .importFile (.ofTokens escapedWords) _
    _ _ hwords.symm rfl (by decide) rfl hstart [.ofLexeme ⟨1, 1⟩ "import"]
    (.ofLexeme ⟨1, 8⟩ "\x22a\\\x22b\x22") [.ofLexeme ⟨1, 14⟩ ";"] rfl (by decide) (by decide)

/-- A literal with something glued to it. -/
def gluedImport : String := "import \x22a\x22b\x22;"

/-- An option whose literal is cut by the end of its line. -/
def cutOption : String :=
  "message M \x7b\nint32 a = 1 [b = \x22x\\\x22\n];\n\x7d"

/-- **Not every word that counts as quoted is a closed literal**: the path of the first text has
something glued to it, the value in the second one is cut, and both are read without an error. -/
theorem quoted_not_terminated :
    ¬(∀ source before token after, tokenize source = before ++ token :: after →
        token.inComment (afterTokens none before) = false → token.isQuoted = true →
        Lexeme.IsTerminated token.lexeme) ∧
      ∀ source ∈ [gluedImport, cutOption], (Tree.ofSource source).errors = [] ∧
        ∃ token ∈ tokenize source, token.isQuoted = true ∧ ¬Lexeme.IsTerminated token.lexeme := by
  refine ⟨fun h => ?_, by decide +kernel⟩
  have hwords : tokenize gluedImport = [.ofLexeme ⟨1, 1⟩ "import"] ++
      .ofLexeme ⟨1, 8⟩ "\x22a\x22b\x22" :: [.ofLexeme ⟨1, 13⟩ ";"] := by
    decide +kernel
  exact absurd (h _ _ _ _ hwords (by decide) (by decide)) (by decide)

end ProtoSchema
