import ProtoSchema.Proofs.Erasure
import ProtoSchema.Proofs.Spacing

/-!
# The tokens of a text with a comment put in

A comment that is put between two texts stands between their tokens: its opening word, the words of
its body, none of which closes it, its closing word, and a line break. Inside the comment no quote
starts a literal, so the words of the body depend on nothing around it.

* `commented`: two texts with a block comment between them.
* `Lexer.Commenting`: the lexer inside a comment; `Commenting.feed` reads a body.
* `exists_tokenize_commented`: the tokens of the whole text.
-/

namespace ProtoSchema

open OpenComment Parse

/-- Two texts with a block comment between them, which ends a line. -/
def commented (before body after : String) : String :=
  before ++ (" /* " ++ (body ++ (" */\n" ++ after)))

/-- A text does not have the mark that closes block comments. -/
def Unclosing (text : List Char) : Prop := ¬['*', '/'] <:+: text

/-! ### Inside a comment -/

namespace Unclosing

variable {text first second : List Char}

theorem right (h : Unclosing (first ++ second)) : Unclosing second :=
  fun hpart => h (hpart.trans (List.suffix_append first second).isInfix)

theorem left (h : Unclosing (first ++ second)) : Unclosing first :=
  fun hpart => h (hpart.trans (List.prefix_append first second).isInfix)

/-- A word without the mark does not close a comment. -/
theorem closesBlockComment {lexeme : String} (h : Unclosing lexeme.toList) :
    Lexeme.closesBlockComment lexeme = false := by
  rw [Lexeme.closesBlockComment, Bool.and_eq_false_iff, ← Bool.not_eq_true]
  left
  intro hsuffix
  exact h (List.isSuffixOf_iff_suffix.1 hsuffix).isInfix

theorem cons_iff {c : Char} {rest : List Char} :
    Unclosing (c :: rest) ↔ ¬(c = '*' ∧ rest.head? = some '/') ∧ Unclosing rest := by
  rw [Unclosing, List.infix_cons_iff, not_or, List.cons_prefix_cons]
  refine and_congr_left fun _ => not_congr (and_congr eq_comm ?_)
  cases rest with
  | nil => simp
  | cons next others => simp [List.cons_prefix_cons, eq_comm]

/-- Line breaks take no part in the mark. -/
theorem unifyBreaks (h : Unclosing text) : Unclosing (unifyBreaks text) := by
  have hhead : ∀ {rest : List Char}, (ProtoSchema.unifyBreaks rest).head? = some '/' →
      rest.head? = some '/' := by
    intro rest
    fun_cases ProtoSchema.unifyBreaks rest <;> simp
  have hbreak : ∀ {rest : List Char}, ¬('\n' = '*' ∧ rest.head? = some '/') := by simp
  fun_induction ProtoSchema.unifyBreaks text with
  | case1 => exact h
  | case2 rest ih => exact cons_iff.2 ⟨hbreak, ih (cons_iff.1 (cons_iff.1 h).2).2⟩
  | case3 rest hfeed ih => exact cons_iff.2 ⟨hbreak, ih (cons_iff.1 h).2⟩
  | case4 c rest hboth hreturn ih =>
    obtain ⟨hmark, hrest⟩ := cons_iff.1 h
    exact cons_iff.2 ⟨fun hc => hmark ⟨hc.1, hhead hc.2⟩, ih hrest⟩

end Unclosing

namespace Lexer

variable {mark : OpenComment} {lexer : Lexer} {held text : List Char}
  {characters : List (Char × Position)}

/-- The lexer is inside a comment and holds some characters. -/
inductive Commenting (mark : OpenComment) : Lexer → List Char → Prop
  | nothing : Commenting mark ⟨none, some mark⟩ []
  | word {start : Position} {text : String} :
      Commenting mark ⟨some ⟨start, text, none⟩, some mark⟩ text.toList

namespace Commenting

theorem comment (h : Commenting mark lexer held) : lexer.comment = some mark := by
  cases h <;> rfl

theorem inLiteral (h : Commenting mark lexer held) : lexer.inLiteral = false := by
  cases h <;> rfl

/-- A word without the closing mark leaves the comment open. -/
theorem flush (h : Commenting mark lexer held) (hheld : Unclosing held) :
    lexer.flush.2 = ⟨none, some mark⟩ ∧
      ∀ token ∈ lexer.flush.1, closesComment token = false ∧ token.isLineEnd = false := by
  cases h with
  | nothing => exact ⟨rfl, by simp [Lexer.flush]⟩
  | @word start text =>
    have hcloses := hheld.closesBlockComment
    refine ⟨?_, ?_⟩
    · cases mark <;> simp [Lexer.flush, afterWord, hcloses]
    · intro token htoken
      obtain rfl : token = .ofLexeme start text := by simpa [Lexer.flush] using htoken
      have hend := Token.isLineEnd_ofLexeme start text
      exact ⟨by rw [closesComment, hend]; exact hcloses, hend⟩

theorem extend (h : Commenting mark lexer held) (c : Char) (position : Position) :
    Commenting mark (lexer.extend c position) (held ++ [c]) := by
  cases h with
  | nothing =>
    have hword := @Commenting.word mark position (String.singleton c)
    rw [String.toList_singleton] at hword
    simpa [Lexer.extend] using hword
  | @word start text =>
    have hword := @Commenting.word mark start (text.push c)
    rw [String.toList_push] at hword
    exact hword

/-- One character inside a comment. -/
theorem step {c : Char} {rest : List Char} (h : Commenting mark lexer held)
    (hbody : Unclosing (held ++ c :: rest)) (hline : mark = .block ∨ c ≠ '\n')
    (position : Position) :
    ∃ held', Commenting mark (lexer.step c position).2 held' ∧ Unclosing (held' ++ rest) ∧
      ∀ token ∈ (lexer.step c position).1, closesComment token = false ∧
        (token.isLineEnd = true → c = '\n') := by
  obtain ⟨hflush, htokens⟩ := h.flush hbody.left
  have hrest : Unclosing ([] ++ rest) := (Unclosing.cons_iff.1 hbody.right).2
  have hends : ∀ token ∈ lexer.flush.1, closesComment token = false ∧
      (token.isLineEnd = true → c = '\n') := by
    intro token htoken
    obtain ⟨hcloses, hend⟩ := htokens token htoken
    exact ⟨hcloses, fun h => by rw [hend] at h; cases h⟩
  have hextend : Commenting mark (lexer.extend c position) (held ++ [c]) ∧
      Unclosing (held ++ [c] ++ rest) := ⟨h.extend c position, by simpa using hbody⟩
  unfold Lexer.step
  split
  · -- a line break ends the word, and line comments
    rename_i hbreak
    obtain rfl : mark = .block := hline.resolve_right fun hne => hne hbreak
    refine ⟨[], ?_, hrest, ?_⟩
    · simp only [hflush]
      exact .nothing
    · simp only [List.mem_append, List.mem_singleton]
      rintro token (htoken | rfl)
      · exact hends token htoken
      · exact ⟨rfl, fun _ => hbreak⟩
  · split
    · rename_i hliteral
      rw [h.inLiteral] at hliteral
      cases hliteral
    · split
      · exact ⟨[], hflush ▸ .nothing, hrest, hends⟩
      · split
        · rename_i hmark
          refine ⟨[], ?_, hrest, ?_⟩
          · simp only [hflush]
            exact .nothing
          · simp only [List.mem_append, List.mem_singleton]
            rintro token (htoken | rfl)
            · exact hends token htoken
            · refine ⟨?_, fun hend => by cases hend⟩
              have hnot : Unclosing (String.singleton c).toList := by
                rw [String.toList_singleton]
                exact fun hpart => by simpa using hpart.length_le
              simp [closesComment, hnot.closesBlockComment]
        · -- the word goes on, and what it holds is still part of the body
          exact ⟨held ++ [c], hextend.1, hextend.2, by simp⟩

/-- **Inside a comment no word of a body closes it**, if the body does not have the mark; a line
comment stays open on its line. -/
theorem feed (h : Commenting mark lexer held) (hbody : Unclosing (held ++ text))
    (hlines : mark = .block ∨ '\n' ∉ text) (htext : characters.map Prod.fst = text) :
    ∃ held', Commenting mark (lexer.feed characters).2 held' ∧ Unclosing held' ∧
      ∀ token ∈ (lexer.feed characters).1, closesComment token = false ∧
        (token.isLineEnd = true → '\n' ∈ text) := by
  induction characters generalizing lexer held text with
  | nil =>
    subst htext
    exact ⟨held, h, by simpa using hbody, by simp [Lexer.feed]⟩
  | cons character rest ih =>
    obtain ⟨c, position⟩ := character
    obtain rfl : c :: rest.map Prod.fst = text := htext
    rw [List.mem_cons, not_or] at hlines
    obtain ⟨middle, hmiddle, hmore, htokens⟩ :=
      h.step hbody (hlines.imp id fun hnot => Ne.symm hnot.1) position
    obtain ⟨last, hlast, hend, hothers⟩ := ih hmiddle hmore (hlines.imp id And.right) rfl
    refine ⟨last, hlast, hend, ?_⟩
    simp only [Lexer.feed, List.mem_append]
    rintro token (htoken | htoken)
    · obtain ⟨hcloses, hbreak⟩ := htokens token htoken
      exact ⟨hcloses, fun h => by rw [hbreak h]; exact List.mem_cons_self⟩
    · obtain ⟨hcloses, hbreak⟩ := hothers token htoken
      exact ⟨hcloses, fun h => List.mem_cons_of_mem _ (hbreak h)⟩

end Commenting

/-! ### The marks of a comment -/

theorem step_blank (hliteral : lexer.inLiteral = false) (position : Position) :
    lexer.step ' ' position = lexer.flush := by
  have hblank : isBlank ' ' = true := by decide
  rw [step, if_neg (by decide), hliteral, if_neg Bool.false_ne_true, if_pos hblank]

/-- A character that is part of words, where none has been started or after one that is no
literal. -/
theorem step_word {c : Char} (hliteral : lexer.inLiteral = false)
    (hc : isBlank c = false ∧ isPunctuation c = false ∧ c ≠ '\n') (position : Position) :
    lexer.step c position = ([], lexer.extend c position) := by
  rw [step, if_neg hc.2.2, hliteral, if_neg Bool.false_ne_true, hc.1, hc.2.1,
    if_neg Bool.false_ne_true]
  rfl

/-- **The opening word between blanks** is a token of its own. -/
theorem feed_opening (hliteral : lexer.inLiteral = false) (position : Position) :
    lexer.feed (position.along " /* ".toList) =
      (lexer.flush.1 ++ [.ofLexeme ((position.after ' ').after '/') "/*"],
       ⟨none, afterWord lexer.flush.2.comment "/*"⟩) := by
  have hopening : " /* ".toList = [' ', '/', '*', ' '] := by decide
  rw [hopening]
  simp only [Position.along, feed]
  rw [step_blank hliteral, flush_eq]
  rw [step_word rfl (by decide), step_word rfl (by decide), step_blank rfl]
  simp [extend, PendingWord.push, flush]

/-- **The closing word behind a blank** is a token of its own, and so is the line break. -/
theorem feed_closing (hliteral : lexer.inLiteral = false) (position : Position) :
    lexer.feed (position.along " */\n".toList) =
      (lexer.flush.1 ++ [.ofLexeme ((position.after ' ').after '*') "*/",
        .lineBreak ((((position.after ' ').after '*').after '/').after '\n')],
       ⟨none, afterLine (afterWord lexer.flush.2.comment "*/")⟩) := by
  have hclosing : " */\n".toList = [' ', '*', '/', '\n'] := by decide
  rw [hclosing]
  simp only [Position.along, feed]
  rw [step_blank hliteral, flush_eq]
  rw [step_word rfl (by decide), step_word rfl (by decide), step_break]
  simp [extend, PendingWord.push, flush]

end Lexer

open Lexer

/-- The characters of a text with a comment put in. -/
theorem unifyBreaks_commented (before body after : String) :
    unifyBreaks (commented before body after).toList =
      unifyBreaks before.toList ++ (" /* ".toList ++
        (unifyBreaks body.toList ++ (" */\n".toList ++ unifyBreaks after.toList))) := by
  have hopening : unifyBreaks " /* ".toList = " /* ".toList := by decide
  have hclosing : unifyBreaks " */\n".toList = " */\n".toList := by decide
  have hmark : ∀ rest : List Char, (" /* ".toList ++ rest).head? ≠ some '\n' := by
    intro rest
    simp
  have hclose : ∀ rest : List Char, (" */\n".toList ++ rest).head? ≠ some '\n' := by
    intro rest
    simp
  simp only [commented, String.toList_append]
  rw [unifyBreaks_append (.inr (hmark _)), unifyBreaks_append (.inl (by decide)),
    unifyBreaks_append (.inr (hclose _)), unifyBreaks_append (.inl (by decide)), hopening, hclosing]

/-- Tokens go on behind the end of the first line. -/
def EndsFirstLine (tokens rest : List Token) : Prop :=
  ∃ lineEnd, lineEnd.isLineEnd = true ∧ tokens.dropWhile (!·.isLineEnd) = lineEnd :: rest

/-- Tokens close a comment at the end of a line, and go on behind it. -/
def EndsComment (tokens rest : List Token) : Prop :=
  ∃ closer lineEnd, lineEnd.isLineEnd = true ∧
    tokens.dropWhile (!closesComment ·) = closer :: lineEnd :: rest

/-- Tokens close a comment at the end of a line, which is the first one if the body of the comment
has no line breaks. -/
structure ClosesLine (body : List Char) (tokens rest : List Token) : Prop where
  comment : EndsComment tokens rest
  line : '\n' ∉ body → EndsFirstLine tokens rest

theorem ClosesLine.of_words {body : List Char} {words rest : List Token} {closer lineEnd : Token}
    (hwords : ∀ token ∈ words, closesComment token = false ∧
      (token.isLineEnd = true → '\n' ∈ body))
    (hcloser : closesComment closer = true) (hend : lineEnd.isLineEnd = true) :
    ClosesLine body (words ++ closer :: lineEnd :: rest) rest := by
  refine ⟨⟨closer, lineEnd, hend, ?_⟩, fun hline => ⟨lineEnd, hend, ?_⟩⟩
  · rw [List.dropWhile_append_of_pos (by simpa using fun token htoken => (hwords token htoken).1),
      List.dropWhile_cons_of_neg (by simp [hcloser])]
  · have hword : closer.isLineEnd = false := by
      rw [closesComment, Bool.and_eq_true, Bool.not_eq_true'] at hcloser
      exact hcloser.1
    have hnone : ∀ token ∈ words, (!token.isLineEnd) = true := by
      intro token htoken
      rw [Bool.not_eq_true', ← Bool.not_eq_true]
      exact fun h => hline ((hwords token htoken).2 h)
    rw [List.dropWhile_append_of_pos hnone, List.dropWhile_cons_of_pos (by simp [hword]),
      List.dropWhile_cons_of_neg (by simp [hend])]

/-- The closing mark and a line break leave no comment open. -/
theorem afterLine_closing (mark : OpenComment) :
    afterLine (afterWord (some mark) "*/") = none := by
  cases mark <;> decide

/-- The token that opens a comment behind a text and a blank. -/
def openingToken (before : String) : Token :=
  .ofLexeme ((((unifyBreaks before.toList).foldl Position.after .start).after ' ').after '/') "/*"

theorem tokenize_eq_scan (source : String) :
    tokenize source = scan {} (Position.start.along (unifyBreaks source.toList)) := by
  rw [← Reader.characters_eq]
  rfl

/-- Behind a text that ends outside literals the opening mark is read as such. -/
theorem feed_before {before : String} (hliteral : (ofText before).inLiteral = false) :
    feed {} (Position.start.along (unifyBreaks before.toList ++ " /* ".toList)) =
      (tokenize before ++ [openingToken before],
        ⟨none, afterWord (ofText before).flush.2.comment "/*"⟩) := by
  have hbefore : (feed {} (Position.start.along (unifyBreaks before.toList))).2 = ofText before :=
    (ofText_eq before).symm
  rw [Position.along_append, feed_append, hbefore, feed_opening hliteral, tokenize_eq_scan, scan,
    hbefore, openingToken, List.append_assoc]

theorem unifyBreaks_opening (before : String) :
    unifyBreaks (before ++ " /* ").toList = unifyBreaks before.toList ++ " /* ".toList := by
  rw [String.toList_append, unifyBreaks_append (.inr (by decide))]
  congr 1

theorem tokenize_opening {before : String} (hliteral : (ofText before).inLiteral = false) :
    tokenize (before ++ " /* ") = tokenize before ++ [openingToken before] := by
  rw [tokenize_eq_scan, unifyBreaks_opening, scan, feed_before hliteral]
  simp [flush]

/-- The opening mark leaves a comment open: a block comment, unless it stands in a line comment. -/
theorem exists_ofText_opening {before : String} (hliteral : (ofText before).inLiteral = false) :
    ∃ mark, ofText (before ++ " /* ") = ⟨none, some mark⟩ := by
  have hmark : ∃ mark, afterWord (ofText before).flush.2.comment "/*" = some mark := by
    rcases (ofText before).flush.2.comment with _ | (_ | _)
    · exact ⟨.block, by decide⟩
    · exact ⟨.line, rfl⟩
    · exact ⟨.block, by decide⟩
  obtain ⟨mark, hmark⟩ := hmark
  exact ⟨mark, by rw [ofText_eq, unifyBreaks_opening, Lexer.after, feed_before hliteral, hmark]⟩

/-- Inside a comment the tokens of a body, of the closing mark and of what follows. -/
theorem Lexer.exists_scan_closing {mark : OpenComment} {body : List Char} (hbody : Unclosing body)
    (hlines : mark = .block ∨ '\n' ∉ body) (position : Position) (after : List Char) :
    ∃ tokens rest, ClosesLine body tokens rest ∧
      scan ⟨none, some mark⟩ (position.along (body ++ (" */\n".toList ++ after))) = tokens ∧
      rest.map Token.shape = shapes {} after := by
  have hopen : Commenting mark ⟨none, some mark⟩ [] := .nothing
  obtain ⟨held, hheld, hunclosing, hwords⟩ :=
    hopen.feed hbody hlines (map_fst_along position body)
  obtain ⟨hflush, hlast⟩ := hheld.flush hunclosing
  refine ⟨_, _, ?_, rfl, map_shape_scan (.refl {})
    (" */\n".toList.foldl Position.after (body.foldl Position.after position)) after⟩
  rw [Position.along_append, scan_append, Position.along_append, scan_append,
    feed_closing hheld.inLiteral, hflush, afterLine_closing, List.append_assoc,
    ← List.append_assoc]
  have hcloser : ∀ start, closesComment (.ofLexeme start "*/") = true := by
    intro start
    have hcloses : Lexeme.closesBlockComment "*/" = true := by decide
    rw [closesComment, Token.isLineEnd_ofLexeme, Bool.not_false, Bool.true_and]
    exact hcloses
  refine .of_words ?_ (hcloser _) rfl
  intro token htoken
  rcases List.mem_append.1 htoken with hmem | hmem
  · exact hwords token hmem
  · obtain ⟨hcloses, hend⟩ := hlast token hmem
    exact ⟨hcloses, fun h => by rw [hend] at h; cases h⟩

/-- **The tokens of a text with a comment put in.** Those up to the opening mark do not depend on
the comment, nor do those behind it but for their places. -/
theorem exists_tokenize_commented {before body : String} {mark : OpenComment}
    (hliteral : (ofText before).inLiteral = false)
    (hmark : (ofText (before ++ " /* ")).comment = some mark) (hbody : Unclosing body.toList)
    (hlines : mark = .block ∨ '\n' ∉ unifyBreaks body.toList) (after : String) :
    ∃ tokens rest, ClosesLine (unifyBreaks body.toList) tokens rest ∧
      tokenize (commented before body after) =
        tokenize before ++ openingToken before :: tokens ∧
      rest.map Token.shape = (tokenize after).map Token.shape := by
  obtain ⟨mark', hopening⟩ := exists_ofText_opening hliteral
  obtain rfl : mark' = mark := by simpa [hopening] using hmark
  rw [ofText_eq, unifyBreaks_opening, Lexer.after] at hopening
  obtain ⟨tokens, rest, hcloses, hscan, hrest⟩ := exists_scan_closing hbody.unifyBreaks hlines
    ((unifyBreaks before.toList ++ " /* ".toList).foldl Position.after .start)
    (unifyBreaks after.toList)
  refine ⟨tokens, rest, hcloses, ?_, by rw [hrest, map_shape_tokenize]⟩
  rw [tokenize_eq_scan, unifyBreaks_commented, ← List.append_assoc, Position.along_append,
    scan_append, hopening, hscan, feed_before hliteral]
  simp

end ProtoSchema
